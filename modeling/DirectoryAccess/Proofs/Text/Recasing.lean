import DirectoryAccess.Proofs.Text.Trimming
import DirectoryAccess.Text.LetterCase

/-!
# Texts that differ in letter case

Two texts are the same but for the case of letters that stand outside quotes. A place is outside
quotes where an even number of double quotes stand in front of it. For proofs about readers, which
go from left to right, the same is said by a recursion that remembers whether a quote is open.
-/
namespace DirectoryAccess.Text

/-- The texts are equally long. Where they have different characters, an even number of double
quotes stand in front, and the characters are the same letter in different case. -/
structure SameButCase (cs ds : List Char) : Prop where
  length : cs.length = ds.length
  apart : ∀ (i : Nat) (c d : Char), cs[i]? = some c → ds[i]? = some d → c ≠ d →
    (cs.take i).count '"' % 2 = 0 ∧ c.toLower = d.toLower

/-- The second text is the first with letters outside quotes made small or capital. The flag tells
whether a quote is open in front of the texts. -/
def Recased : Bool → List Char → List Char → Prop
  | _, [], [] => True
  | inside, c :: cs, d :: ds =>
    (if inside then c = d else c.toLower = d.toLower) ∧ Recased (inside != (c == '"')) cs ds
  | _, _, _ => False

/-! ### Letters -/

theorem isAlpha_toLower (c : Char) : c.toLower.isAlpha = c.isAlpha := by
  have letter : ∀ d : Char, d.isAlpha = (d.isUpper || d.isLower) := fun _ => rfl
  have lower : ∀ d : Char, d.isLower = (decide (d.val ≥ 'a'.val) && decide (d.val ≤ 'z'.val)) :=
    fun _ => rfl
  unfold Char.toLower
  split
  · next capital =>
    have upper : c.isUpper = true := decide_eq_true capital
    rw [letter c, upper, Bool.true_or, letter]
    simp only [lower, Bool.or_eq_true, Bool.and_eq_true, decide_eq_true_eq, ge_iff_le,
      UInt32.le_iff_toNat_le, UInt32.toNat_add] at capital ⊢
    right
    have a : 'A'.val.toNat = 65 := rfl
    have z : 'Z'.val.toNat = 90 := rfl
    have a' : 'a'.val.toNat = 97 := rfl
    have z' : 'z'.val.toNat = 122 := rfl
    have step : ('a'.val - 'A'.val).toNat = 32 := rfl
    omega
  · rfl

theorem toLower_of_not_isAlpha {c : Char} (h : c.isAlpha = false) : c.toLower = c := by
  unfold Char.toLower
  split
  · next capital =>
    have upper : c.isUpper = true := decide_eq_true capital
    have letter : c.isAlpha = (c.isUpper || c.isLower) := rfl
    rw [letter, upper] at h
    cases h
  · rfl

/-- Only a letter has another case. -/
theorem eq_of_toLower_eq {c d : Char} (h : c.isAlpha = false) (same : c.toLower = d.toLower) :
    c = d := by
  have h' : d.isAlpha = false := by rw [← isAlpha_toLower, ← same, isAlpha_toLower, h]
  rwa [toLower_of_not_isAlpha h, toLower_of_not_isAlpha h'] at same

theorem quote_of_toLower_eq {c d : Char} (same : c.toLower = d.toLower) :
    (c == '"') = (d == '"') := by
  rw [Bool.eq_iff_iff, beq_iff_eq, beq_iff_eq]
  constructor
  · rintro rfl
    exact (eq_of_toLower_eq (by decide) same).symm
  · rintro rfl
    exact (eq_of_toLower_eq (by decide) same.symm).symm

/-! ### Recasing from left to right -/

theorem recased_of_apart {inside : Bool} {cs ds : List Char} (length : cs.length = ds.length)
    (apart : ∀ (i : Nat) (c d : Char), cs[i]? = some c → ds[i]? = some d → c ≠ d →
      (inside.toNat + (cs.take i).count '"') % 2 = 0 ∧ c.toLower = d.toLower) :
    Recased inside cs ds := by
  induction cs generalizing inside ds with
  | nil =>
    cases ds with
    | nil => trivial
    | cons d ds => cases length
  | cons c cs ih =>
    cases ds with
    | nil => cases length
    | cons d ds =>
      refine ⟨?_, ih (Nat.succ.inj length) ?_⟩
      · have first := apart 0 c d rfl rfl
        by_cases same : c = d
        · simp [same]
        · cases inside with
          | true => exact absurd (first same).1 (by simp)
          | false => exact (first same).2
      · intro i a b ha hb differ
        obtain ⟨outside, same⟩ := apart (i + 1) a b ha hb differ
        refine ⟨?_, same⟩
        -- A quote in front of the rest counts there in the flag and here in the number.
        rw [List.take_succ_cons, List.count_cons] at outside
        cases inside <;> cases hq : c == '"' <;> simp [hq] at outside ⊢ <;> omega

theorem Recased.of_nil {inside : Bool} {ds : List Char} (h : Recased inside [] ds) : ds = [] := by
  cases ds with
  | nil => rfl
  | cons d ds => exact h.elim

theorem apart_of_recased {inside : Bool} {cs ds : List Char} (h : Recased inside cs ds) :
    cs.length = ds.length ∧ ∀ (i : Nat) (c d : Char), cs[i]? = some c → ds[i]? = some d → c ≠ d →
      (inside.toNat + (cs.take i).count '"') % 2 = 0 ∧ c.toLower = d.toLower := by
  induction cs generalizing inside ds with
  | nil =>
    obtain rfl := h.of_nil
    exact ⟨rfl, fun i c d hc => by simp at hc⟩
  | cons c cs ih =>
    cases ds with
    | nil => exact h.elim
    | cons d ds =>
      obtain ⟨same, rest⟩ := h
      obtain ⟨length, apart⟩ := ih rest
      refine ⟨congrArg Nat.succ length, ?_⟩
      intro i a b ha hb differ
      cases i with
      | zero =>
        obtain rfl : c = a := Option.some.inj ha
        obtain rfl : d = b := Option.some.inj hb
        cases inside with
        | true => exact absurd same differ
        | false => exact ⟨by simp, same⟩
      | succ i =>
        obtain ⟨outside, lowered⟩ := apart i a b ha hb differ
        refine ⟨?_, lowered⟩
        rw [List.take_succ_cons, List.count_cons]
        cases inside <;> cases hq : c == '"' <;> simp [hq] at outside ⊢ <;> omega

theorem sameButCase_iff_recased {cs ds : List Char} :
    SameButCase cs ds ↔ Recased false cs ds := by
  constructor
  · intro h
    exact recased_of_apart h.length (by simpa using h.apart)
  · intro h
    obtain ⟨length, apart⟩ := apart_of_recased h
    exact ⟨length, by simpa using apart⟩

def decRecased : (inside : Bool) → (cs ds : List Char) → Decidable (Recased inside cs ds)
  | _, [], [] => .isTrue trivial
  | _, [], _ :: _ => .isFalse id
  | _, _ :: _, [] => .isFalse id
  | inside, c :: cs, d :: ds =>
    have := decRecased (inside != (c == '"')) cs ds
    inferInstanceAs
      (Decidable ((if inside then c = d else c.toLower = d.toLower) ∧ Recased _ cs ds))

instance (inside : Bool) (cs ds : List Char) : Decidable (Recased inside cs ds) :=
  decRecased inside cs ds

instance (cs ds : List Char) : Decidable (SameButCase cs ds) :=
  decidable_of_iff _ sameButCase_iff_recased.symm

theorem Recased.symm {inside : Bool} {cs ds : List Char} (h : Recased inside cs ds) :
    Recased inside ds cs := by
  induction cs generalizing inside ds with
  | nil =>
    cases ds with
    | nil => trivial
    | cons d ds => exact h.elim
  | cons c cs ih =>
    cases ds with
    | nil => exact h.elim
    | cons d ds =>
      obtain ⟨same, rest⟩ := h
      have quotes : (c == '"') = (d == '"') := by
        cases inside with
        | true => rw [show c = d from same]
        | false => exact quote_of_toLower_eq same
      refine ⟨?_, ?_⟩
      · cases inside <;> exact Eq.symm same
      · rw [← quotes]
        exact ih rest

/-- Outside quotes a recased text begins with a recased character. -/
theorem Recased.of_cons {c : Char} {cs ds : List Char} (h : Recased false (c :: cs) ds)
    (noQuote : c ≠ '"') : ∃ d r, ds = d :: r ∧ c.toLower = d.toLower ∧ Recased false cs r := by
  cases ds with
  | nil => exact h.elim
  | cons d r =>
    obtain ⟨same, rest⟩ := h
    have outside : (false != (c == '"')) = false := by simp [noQuote]
    rw [outside] at rest
    exact ⟨d, r, rfl, same, rest⟩

/-- A word without quotes stays the same word, and what follows it is recased. -/
theorem Recased.of_word {w cs ds : List Char} (h : Recased false (w ++ cs) ds) (free : '"' ∉ w) :
    ∃ w' r, ds = w' ++ r ∧ lower w' = lower w ∧ Recased false cs r := by
  induction w generalizing ds with
  | nil => exact ⟨[], ds, rfl, rfl, h⟩
  | cons c w ih =>
    obtain ⟨d, r, rfl, same, rest⟩ := h.of_cons (Ne.symm (List.ne_of_not_mem_cons free))
    obtain ⟨w', r', rfl, lowered, rest'⟩ := ih rest (List.not_mem_of_not_mem_cons free)
    exact ⟨d :: w', r', rfl, by simp_all [lower], rest'⟩

theorem eq_of_lower_eq {s t : List Char} (solid : ∀ c ∈ s, c.isAlpha = false)
    (same : lower t = lower s) : t = s := by
  induction s generalizing t with
  | nil => exact List.map_eq_nil_iff.mp same
  | cons c s ih =>
    cases t with
    | nil => cases same
    | cons d t =>
      obtain ⟨first, others⟩ := List.cons.inj same
      obtain ⟨h, hs⟩ := List.forall_mem_cons.mp solid
      rw [← eq_of_toLower_eq h first.symm, ih hs others]

/-- A character that is neither a letter nor a quote. -/
def isMark (c : Char) : Bool := !c.isAlpha && c != '"'

/-- What has neither letters nor quotes stays as it is. -/
theorem Recased.of_sign {s cs ds : List Char} (h : Recased false (s ++ cs) ds)
    (marks : s.all isMark = true) : ∃ r, ds = s ++ r ∧ Recased false cs r := by
  have solid : ∀ c ∈ s, c.isAlpha = false ∧ c ≠ '"' := by
    simpa [isMark, List.all_eq_true] using marks
  obtain ⟨s', r, rfl, lowered, rest⟩ := h.of_word fun quote => (solid _ quote).2 rfl
  exact ⟨r, by rw [eq_of_lower_eq (fun c hc => (solid c hc).1) lowered], rest⟩

theorem Recased.of_quote_open {v cs ds : List Char} (h : Recased true (v ++ '"' :: cs) ds)
    (free : '"' ∉ v) : ∃ r, ds = v ++ '"' :: r ∧ Recased false cs r := by
  induction v generalizing ds with
  | nil =>
    cases ds with
    | nil => exact h.elim
    | cons d r =>
      obtain ⟨rfl, rest⟩ := h
      exact ⟨r, rfl, rest⟩
  | cons c v ih =>
    cases ds with
    | nil => exact h.elim
    | cons d r =>
      obtain ⟨same, rest⟩ := h
      have inside : (true != (c == '"')) = true := by simp [Ne.symm (List.ne_of_not_mem_cons free)]
      rw [inside] at rest
      obtain ⟨r', rfl, rest'⟩ := ih rest (List.not_mem_of_not_mem_cons free)
      exact ⟨r', by rw [show c = d from same]; rfl, rest'⟩

/-- What stands between quotes stays as it is. -/
theorem Recased.of_quoted {v cs ds : List Char} (h : Recased false ('"' :: (v ++ '"' :: cs)) ds)
    (free : '"' ∉ v) : ∃ r, ds = '"' :: (v ++ '"' :: r) ∧ Recased false cs r := by
  cases ds with
  | nil => exact h.elim
  | cons d r =>
    obtain ⟨same, rest⟩ := h
    obtain rfl : '"' = d := eq_of_toLower_eq (by decide) same
    obtain ⟨r', rfl, rest'⟩ := Recased.of_quote_open rest free
    exact ⟨r', rfl, rest'⟩

end DirectoryAccess.Text
