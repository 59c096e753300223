import DirectoryAccess.Text.Blank

/-!
# Trimmed texts

Which characters are not blank, and what trimming does to a text that has been trimmed before or
that has blanks around it.
-/
namespace DirectoryAccess.Text

theorem isBlank_of_visible {c : Char} (low : 33 ≤ c.toNat) (high : c.toNat ≤ 126) :
    isBlank c = false := by
  unfold isBlank
  simp only [Bool.or_eq_false_iff, Bool.and_eq_false_iff, decide_eq_false_iff_not,
    beq_eq_false_iff_ne, ne_eq]
  omega

theorem toNat_of_isAlphanum {c : Char} (h : c.isAlphanum = true) :
    48 ≤ c.toNat ∧ c.toNat ≤ 122 := by
  have upper : c.isUpper = decide (c.val ≥ 'A'.val ∧ c.val ≤ 'Z'.val) := rfl
  have lower : c.isLower = (decide (c.val ≥ 'a'.val) && decide (c.val ≤ 'z'.val)) := rfl
  have letter : c.isAlpha = (c.isUpper || c.isLower) := rfl
  simp only [Char.isAlphanum, letter, upper, lower, Char.isDigit,
    Bool.or_eq_true, Bool.and_eq_true, decide_eq_true_eq, ge_iff_le, UInt32.le_iff_toNat_le] at h
  have same : c.val.toNat = c.toNat := rfl
  rw [same] at h
  simp at h
  omega

theorem isBlank_of_isAlphanum {c : Char} (h : c.isAlphanum = true) : isBlank c = false := by
  obtain ⟨low, high⟩ := toNat_of_isAlphanum h
  exact isBlank_of_visible (by omega) (by omega)

theorem isGap_of_not_isBlank {c : Char} (h : isBlank c = false) : isGap c = false := by
  rw [Bool.eq_false_iff] at h ⊢
  intro gap
  exact h (isBlank_of_isGap gap)

theorem toLower_of_isDigit {c : Char} (h : c.isDigit = true) : c.toLower = c := by
  unfold Char.toLower
  split
  · next capital =>
    simp only [Char.isDigit, Bool.and_eq_true, decide_eq_true_eq, ge_iff_le,
      UInt32.le_iff_toNat_le] at h capital
    have a : 'A'.val.toNat = 65 := rfl
    have nine : '9'.val.toNat = 57 := rfl
    omega
  · rfl

theorem toLower_of_isGap {c : Char} (h : isGap c = true) : c.toLower = c := by
  simp only [isGap, Bool.or_eq_true, beq_iff_eq] at h
  rcases h with ((rfl | rfl) | rfl) | rfl <;> decide

/-! ### Trimming -/

/-- The text neither begins nor ends with a blank. -/
def IsTrimmed (cs : List Char) : Prop :=
  (∀ c ∈ cs.head?, isBlank c = false) ∧ ∀ c ∈ cs.getLast?, isBlank c = false

theorem isTrimmed_of_forall {cs : List Char} (h : ∀ c ∈ cs, isBlank c = false) : IsTrimmed cs :=
  ⟨fun c hc => h c (List.mem_of_mem_head? hc), fun c hc => h c (List.mem_of_mem_getLast? hc)⟩

theorem IsTrimmed.trim_eq {cs : List Char} (h : IsTrimmed cs) : trim cs = cs :=
  trim_eq_self h.1 h.2

theorem head?_trimStart {cs : List Char} : ∀ c ∈ (trimStart cs).head?, isBlank c = false := by
  intro c hc
  have := List.head?_dropWhile_not isBlank cs
  unfold trimStart at hc
  rw [Option.mem_def.mp hc] at this
  simpa using this

theorem getLast?_trimEnd {cs : List Char} : ∀ c ∈ (trimEnd cs).getLast?, isBlank c = false := by
  intro c hc
  unfold trimEnd at hc
  rw [List.getLast?_reverse] at hc
  exact head?_trimStart c hc

theorem trimEnd_prefix (cs : List Char) :
    ∃ ds, cs = trimEnd cs ++ ds ∧ ∀ c ∈ ds, isBlank c = true := by
  refine ⟨(cs.reverse.takeWhile isBlank).reverse, ?_, ?_⟩
  · unfold trimEnd
    rw [← List.reverse_append, List.takeWhile_append_dropWhile, List.reverse_reverse]
  · intro c hc
    have := List.all_takeWhile (p := isBlank) (l := cs.reverse)
    rw [List.all_eq_true] at this
    exact this c (List.mem_reverse.mp hc)

theorem isTrimmed_trim (cs : List Char) : IsTrimmed (trim cs) := by
  refine ⟨?_, getLast?_trimEnd⟩
  intro c hc
  obtain ⟨ds, split, _⟩ := trimEnd_prefix (trimStart cs)
  have start : ∀ d ∈ (trimStart cs).head?, isBlank d = false := head?_trimStart
  apply start c
  rw [split]
  unfold trim at hc
  cases h : trimEnd (trimStart cs) with
  | nil => simp [h] at hc
  | cons d r =>
    rw [h] at hc
    exact hc

theorem trim_trim (cs : List Char) : trim (trim cs) = trim cs :=
  (isTrimmed_trim cs).trim_eq

theorem length_trim_le (cs : List Char) : (trim cs).length ≤ cs.length := by
  have start : (trimStart cs).length ≤ cs.length := (List.dropWhile_sublist isBlank).length_le
  obtain ⟨ds, split, _⟩ := trimEnd_prefix (trimStart cs)
  have parts := congrArg List.length split
  rw [List.length_append] at parts
  show (trimEnd (trimStart cs)).length ≤ cs.length
  omega

theorem trimEnd_append {cs ds : List Char} (last : ∀ c ∈ cs.getLast?, isBlank c = false)
    (blank : ∀ c ∈ ds, isBlank c = true) : trimEnd (cs ++ ds) = cs := by
  unfold trimEnd
  rw [List.reverse_append,
    List.dropWhile_append_of_pos (fun c hc => blank c (List.mem_reverse.mp hc))]
  rw [List.reverse_eq_iff]
  cases h : cs.reverse with
  | nil => rfl
  | cons c r =>
    have : cs.getLast? = some c := by rw [← List.head?_reverse, h]; rfl
    simp [last c (by simp [this])]

theorem trimEnd_eq_self_iff {cs : List Char} :
    trimEnd cs = cs ↔ ∀ c ∈ cs.getLast?, isBlank c = false := by
  constructor
  · intro same
    rw [← same]
    exact getLast?_trimEnd
  · intro last
    have none' : ∀ c ∈ ([] : List Char), isBlank c = true := by simp
    simpa using trimEnd_append last none'

theorem trimEnd_of_getLast? {cs : List Char} {c : Char} (last : cs.getLast? = some c)
    (solid : isBlank c = false) : trimEnd cs = cs :=
  trimEnd_eq_self_iff.mpr (by simpa [last] using solid)

/-- Blanks are dropped no further than down to a character that is none. -/
theorem trimEnd_append_cons {c : Char} (solid : isBlank c = false) (cs ds : List Char) :
    trimEnd (cs ++ c :: ds) = cs ++ c :: trimEnd ds := by
  obtain ⟨es, split, blank⟩ := trimEnd_prefix ds
  have joined : cs ++ c :: ds = (cs ++ c :: trimEnd ds) ++ es := by
    rw [List.append_assoc, List.cons_append, ← split]
  rw [joined]
  refine trimEnd_append ?_ blank
  intro d hd
  rw [List.getLast?_append, List.getLast?_cons, Option.some_or, Option.mem_some_iff] at hd
  cases last : (trimEnd ds).getLast? with
  | none =>
    rw [last] at hd
    exact hd ▸ solid
  | some e =>
    rw [last] at hd
    exact hd ▸ getLast?_trimEnd e last

/-- Only a text of blanks is trimmed to nothing. -/
theorem trim_ne_nil {cs : List Char} (h : ∃ c ∈ cs, isBlank c = false) : trim cs ≠ [] := by
  intro empty
  obtain ⟨c, hc, visible⟩ := h
  obtain ⟨ds, split, blank⟩ := trimEnd_prefix (trimStart cs)
  have start : cs.takeWhile isBlank ++ trimStart cs = cs := List.takeWhile_append_dropWhile
  have nothing : trimEnd (trimStart cs) = [] := empty
  rw [nothing, List.nil_append] at split
  rw [← start, List.mem_append, split] at hc
  rcases hc with hc | hc
  · have leading := List.all_eq_true.mp (List.all_takeWhile (p := isBlank) (l := cs)) c hc
    rw [visible] at leading
    cases leading
  · rw [blank c hc] at visible
    cases visible

/-- Blanks around a text are dropped, and nothing else. -/
theorem trim_append {cs ds es : List Char} (before : ∀ c ∈ ds, isBlank c = true)
    (after : ∀ c ∈ es, isBlank c = true) (full : cs ≠ []) (h : IsTrimmed cs) :
    trim (ds ++ cs ++ es) = cs := by
  have start : trimStart (ds ++ cs ++ es) = cs ++ es := by
    unfold trimStart
    rw [List.append_assoc, List.dropWhile_append_of_pos before]
    cases cs with
    | nil => exact absurd rfl full
    | cons c r => simp [h.1 c (by simp)]
  rw [trim, start]
  exact trimEnd_append h.2 after

end DirectoryAccess.Text
