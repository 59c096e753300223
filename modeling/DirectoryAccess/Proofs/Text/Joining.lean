import DirectoryAccess.Proofs.Text.Trimming
import DirectoryAccess.Text.Pieces
import Mathlib.Data.List.Forall2

/-!
# Joined texts and their pieces

A list of texts that is joined with a separator is cut into the same texts again, blanks around them
aside.
-/
namespace DirectoryAccess.Text

/-- The second text is the first with blanks around it. -/
def Pads (cs padded : List Char) : Prop :=
  ∃ g h, padded = g ++ cs ++ h ∧ (∀ c ∈ g, isBlank c = true) ∧ ∀ c ∈ h, isBlank c = true

theorem Pads.trim_eq {cs padded : List Char} (h : Pads cs padded) (full : cs ≠ [])
    (trimmed : IsTrimmed cs) : trim padded = cs := by
  obtain ⟨g, e, rfl, before, after⟩ := h
  exact trim_append before after full trimmed

theorem not_mem_intercalate {c : Char} {sep : String} {ps : List String} (hs : c ∉ sep.toList)
    (h : ∀ p ∈ ps, c ∉ p.toList) : c ∉ (sep.intercalate ps).toList := by
  induction ps with
  | nil => simp
  | cons p ps ih =>
    cases ps with
    | nil => simpa using h p (by simp)
    | cons q qs =>
      rw [String.intercalate_cons_cons]
      simp only [String.toList_append, List.mem_append, not_or]
      exact ⟨⟨h p (by simp), hs⟩, ih fun r hr => h r (by simp [hr])⟩

theorem getLast?_intercalate {sep : List Char} {ps : List (List Char)} {c : Char} (full : ps ≠ [])
    (h : ∀ p ∈ ps, p.getLast? = some c) : (sep.intercalate ps).getLast? = some c := by
  induction ps with
  | nil => exact absurd rfl full
  | cons p ps ih =>
    cases ps with
    | nil => simpa using h p (by simp)
    | cons q qs =>
      have tail := ih (by simp) fun r hr => h r (by simp [hr])
      rw [List.intercalate_cons_cons, List.getLast?_append, tail, Option.some_or]

/-! ### Single separators -/

theorem piecesAt_of_not_mem {sep : Char} {cs : List Char} (h : sep ∉ cs) :
    piecesAt sep cs = [cs] := by
  induction cs with
  | nil => rfl
  | cons c r ih =>
    have differ : c ≠ sep := fun same => h (by simp [same])
    rw [piecesAt, if_neg differ, ih fun mem => h (by simp [mem])]
    rfl

theorem piecesAt_append {sep : Char} {cs rest : List Char} (h : sep ∉ cs) :
    piecesAt sep (cs ++ sep :: rest) = cs :: piecesAt sep rest := by
  induction cs with
  | nil => simp [piecesAt]
  | cons c r ih =>
    have differ : c ≠ sep := fun same => h (by simp [same])
    rw [List.cons_append, piecesAt, if_neg differ, ih fun mem => h (by simp [mem])]
    rfl

theorem first_unique {sep : Char} {xs ys r s : List Char} (hx : sep ∉ xs) (hy : sep ∉ ys)
    (same : xs ++ sep :: r = ys ++ sep :: s) : xs = ys ∧ r = s := by
  have pieces := congrArg (piecesAt sep) same
  rw [piecesAt_append hx, piecesAt_append hy] at pieces
  obtain ⟨rfl, _⟩ := List.cons.inj pieces
  have tails := List.append_cancel_left same
  exact ⟨rfl, (List.cons.inj tails).2⟩

theorem last_unique {sep : Char} {xs ys r s : List Char} (hr : sep ∉ r) (hs : sep ∉ s)
    (same : xs ++ sep :: r = ys ++ sep :: s) : xs = ys ∧ r = s := by
  have backwards : r.reverse ++ sep :: xs.reverse = s.reverse ++ sep :: ys.reverse := by
    simpa using congrArg List.reverse same
  obtain ⟨back, front⟩ := first_unique (by simpa using hr) (by simpa using hs) backwards
  exact ⟨List.reverse_injective front, List.reverse_injective back⟩

theorem piecesAt_intercalate {sep : Char} {ps : List (List Char)} (full : ps ≠ [])
    (h : ∀ p ∈ ps, sep ∉ p) : piecesAt sep ([sep].intercalate ps) = ps := by
  induction ps with
  | nil => exact absurd rfl full
  | cons p ps ih =>
    cases ps with
    | nil => simpa using piecesAt_of_not_mem (h p (by simp))
    | cons q qs =>
      rw [List.intercalate_cons_cons, List.append_assoc]
      show piecesAt sep (p ++ sep :: [sep].intercalate (q :: qs)) = _
      rw [piecesAt_append (h p (by simp)), ih (by simp) fun r hr => h r (by simp [hr])]

theorem split_intercalate {sep : Char} {joint : String} (single : joint.toList = [sep])
    {ps : List String} (full : ps ≠ []) (h : ∀ p ∈ ps, sep ∉ p.toList) :
    split sep (joint.intercalate ps) = ps := by
  unfold split
  rw [String.toList_intercalate, single, piecesAt_intercalate]
  · simp
  · simpa using full
  · intro p hp
    obtain ⟨s, hs, rfl⟩ := List.mem_map.mp hp
    exact h s hs

/-! ### Doubled separators -/

theorem piecesAtDouble_ne_nil (sep : Char) (cs : List Char) : piecesAtDouble sep cs ≠ [] := by
  fun_cases piecesAtDouble sep cs with
  | case1 => simp
  | case2 c => simp
  | case3 c d r same => simp
  | case4 c d r differ => cases piecesAtDouble sep (d :: r) <;> simp [extendFirst]

theorem length_extendFirst {c : Char} {ps : List (List Char)} (h : ps ≠ []) :
    (extendFirst c ps).length = ps.length := by
  cases ps with
  | nil => exact absurd rfl h
  | cons p ps => rfl

theorem piecesAtDouble_of_not_hasDouble {sep : Char} {cs : List Char}
    (h : hasDouble sep cs = false) : piecesAtDouble sep cs = [cs] := by
  induction cs with
  | nil => rfl
  | cons c r ih =>
    cases r with
    | nil => rfl
    | cons d r =>
      simp only [hasDouble, Bool.or_eq_false_iff, Bool.and_eq_false_iff, beq_eq_false_iff_ne] at h
      rw [piecesAtDouble, if_neg (by rintro ⟨hc, hd⟩; rcases h.1 with h | h <;> contradiction),
        ih h.2]
      rfl

theorem hasDouble_concat (sep d : Char) (cs : List Char) :
    hasDouble sep (cs ++ [d]) = (hasDouble sep cs || (cs.getLast? == some sep && d == sep)) := by
  induction cs with
  | nil => rfl
  | cons c r ih =>
    cases r with
    | nil => simp [hasDouble]
    | cons e r =>
      simp only [List.cons_append, hasDouble] at ih ⊢
      rw [ih, Bool.or_assoc, List.getLast?_cons_cons]

/-- The first doubled separator of a text ends its first piece. -/
theorem piecesAtDouble_of_first {sep : Char} {cs : List Char}
    (first : hasDouble sep (cs ++ [sep]) = false) (rest : List Char) :
    piecesAtDouble sep (cs ++ sep :: sep :: rest) = cs :: piecesAtDouble sep rest := by
  induction cs with
  | nil => rw [List.nil_append, piecesAtDouble, if_pos ⟨rfl, rfl⟩]
  | cons a cs ih =>
    have step : ∀ d r, cs ++ [sep] = d :: r →
        ¬ (a = sep ∧ d = sep) ∧ hasDouble sep (d :: r) = false := by
      intro d r same
      rw [List.cons_append, same] at first
      simp only [hasDouble, Bool.or_eq_false_iff, Bool.and_eq_false_iff, beq_eq_false_iff_ne]
        at first
      refine ⟨?_, first.2⟩
      rintro ⟨ha, hd⟩
      rcases first.1 with h | h <;> contradiction
    cases cs with
    | nil =>
      have tail := ih rfl
      rw [List.nil_append] at tail
      show piecesAtDouble sep (a :: sep :: sep :: rest) = _
      rw [piecesAtDouble, if_neg (step sep [] rfl).1, tail]
      rfl
    | cons b cs =>
      obtain ⟨apart, single⟩ := step b (cs ++ [sep]) rfl
      have tail := ih single
      rw [List.cons_append] at tail
      show piecesAtDouble sep (a :: b :: (cs ++ sep :: sep :: rest)) = _
      rw [piecesAtDouble, if_neg apart, tail]
      rfl

theorem first_double_unique {sep : Char} {xs ys r s : List Char}
    (hx : hasDouble sep (xs ++ [sep]) = false) (hy : hasDouble sep (ys ++ [sep]) = false)
    (same : xs ++ sep :: sep :: r = ys ++ sep :: sep :: s) : xs = ys ∧ r = s := by
  have pieces := congrArg (piecesAtDouble sep) same
  rw [piecesAtDouble_of_first hx, piecesAtDouble_of_first hy] at pieces
  obtain ⟨rfl, _⟩ := List.cons.inj pieces
  have tails := List.append_cancel_left same
  simpa using tails

/-- Behind a text without a doubled separator, and a character that is none, a doubled separator is
the first. -/
theorem hasDouble_apart {sep c : Char} {cs : List Char} (apart : c ≠ sep)
    (h : hasDouble sep cs = false) : hasDouble sep (cs ++ [c] ++ [sep]) = false := by
  rw [hasDouble_concat, hasDouble_concat, h]
  simp [apart]

/-- A doubled separator ends a piece that it is kept apart from. -/
theorem piecesAtDouble_append {sep c : Char} {cs rest : List Char} (apart : c ≠ sep)
    (h : hasDouble sep cs = false) :
    piecesAtDouble sep (cs ++ c :: sep :: sep :: rest) =
      (cs ++ [c]) :: piecesAtDouble sep rest := by
  have pieces := piecesAtDouble_of_first (hasDouble_apart apart h) rest
  rwa [List.append_assoc] at pieces

/-- Whatever stands in front of it, a doubled separator that is kept apart cuts a text in two. -/
theorem two_le_length_piecesAtDouble {sep c : Char} (apart : c ≠ sep) (rest : List Char) :
    ∀ cs : List Char, 2 ≤ (piecesAtDouble sep (cs ++ c :: sep :: sep :: rest)).length
  | [] => by
    have := List.length_pos_iff.mpr (piecesAtDouble_ne_nil sep rest)
    rw [piecesAtDouble_append apart rfl, List.length_cons]
    omega
  | [a] => by
    have := List.length_pos_iff.mpr (piecesAtDouble_ne_nil sep rest)
    rw [piecesAtDouble_append apart rfl, List.length_cons]
    omega
  | a :: b :: cs => by
    show 2 ≤ (piecesAtDouble sep (a :: b :: (cs ++ c :: sep :: sep :: rest))).length
    rw [piecesAtDouble]
    split
    · have := two_le_length_piecesAtDouble apart rest cs
      rw [List.length_cons]
      omega
    · rw [length_extendFirst (piecesAtDouble_ne_nil _ _)]
      exact two_le_length_piecesAtDouble apart rest (b :: cs)

theorem hasDouble_blank_cons {sep : Char} {cs : List Char} (apart : ' ' ≠ sep) :
    hasDouble sep (' ' :: cs) = hasDouble sep cs := by
  cases cs with
  | nil => rfl
  | cons d r => simp [hasDouble, apart]

/-- Texts without a doubled bar, joined by bars between blanks, come apart again at the bars. -/
theorem forall₂_pads_piecesAtDouble {ps : List (List Char)} (full : ps ≠ [])
    (h : ∀ p ∈ ps, hasDouble '|' p = false) :
    List.Forall₂ Pads ps (piecesAtDouble '|' ([' ', '|', '|', ' '].intercalate ps)) := by
  -- The piece behind a separator begins with a blank, so the statement is about both beginnings.
  have general : ∀ g : List Char, g = [] ∨ g = [' '] →
      List.Forall₂ Pads ps (piecesAtDouble '|' (g ++ [' ', '|', '|', ' '].intercalate ps)) := by
    induction ps with
    | nil => exact absurd rfl full
    | cons p ps ih =>
      intro g start
      have blank : ∀ c ∈ g, isBlank c = true := by
        rcases start with rfl | rfl <;> exact List.all_eq_true.mp (by decide)
      have single : hasDouble '|' (g ++ p) = false := by
        rcases start with rfl | rfl
        · exact h p (by simp)
        · exact (hasDouble_blank_cons (by decide)).trans (h p (by simp))
      cases ps with
      | nil =>
        rw [List.intercalate_singleton, piecesAtDouble_of_not_hasDouble single]
        exact .cons ⟨g, [], by simp, blank, by simp⟩ .nil
      | cons q qs =>
        have cut : g ++ [' ', '|', '|', ' '].intercalate (p :: q :: qs) =
            (g ++ p) ++ ' ' :: '|' :: '|' ::
              ([' '] ++ [' ', '|', '|', ' '].intercalate (q :: qs)) := by
          rw [List.intercalate_cons_cons]
          simp
        rw [cut, piecesAtDouble_append (by decide) single]
        refine .cons ⟨g, [' '], by simp, blank, List.all_eq_true.mp (by decide)⟩ ?_
        exact ih (by simp) (fun r hr => h r (by simp [hr])) [' '] (.inr rfl)
  exact general [] (.inl rfl)

/-- A text that has a bar at its end makes the first doubled bar with the one behind it; otherwise
the two bars behind the text are the first. -/
theorem exists_first_bars {b : List Char} (single : hasDouble '|' b = false) (rest : List Char) :
    ∃ xs r, b ++ '|' :: '|' :: rest = xs ++ '|' :: '|' :: r ∧ hasDouble '|' (xs ++ ['|']) = false ∧
      (xs = b ∨ r.head? = some '|') := by
  by_cases last : b.getLast? = some '|'
  · obtain ⟨w, rfl⟩ := List.getLast?_eq_some_iff.mp last
    exact ⟨w, '|' :: rest, by simp, single, .inr rfl⟩
  · refine ⟨b, rest, rfl, ?_, .inl rfl⟩
    rw [hasDouble_concat, single]
    simp [last]

/-- Several texts with bars between them are no texts with bars between blanks between them. -/
theorem tight_ne_spaced {as bs : List (List Char)} (several : 1 < as.length)
    (trimmed : ∀ a ∈ as, IsTrimmed a) (single : ∀ a ∈ as, hasDouble '|' a = false)
    (single' : ∀ b ∈ bs, hasDouble '|' b = false) :
    ['|', '|'].intercalate as ≠ [' ', '|', '|', ' '].intercalate bs := by
  intro same
  match as, several with
  | a :: a' :: as, _ =>
    rw [List.intercalate_cons_cons, List.append_assoc] at same
    obtain ⟨xs, r, cut, first, start⟩ :=
      exists_first_bars (single a (by simp)) (['|', '|'].intercalate (a' :: as))
    replace same := cut.symm.trans same
    match bs with
    | [] => simp at same
    | [b] =>
      rw [List.intercalate_singleton] at same
      have pieces := piecesAtDouble_of_not_hasDouble (single' b (by simp))
      rw [← same, piecesAtDouble_of_first first] at pieces
      exact piecesAtDouble_ne_nil _ _ (List.cons.inj pieces).2
    | b :: b' :: bs =>
      rw [List.intercalate_cons_cons] at same
      have spaced : hasDouble '|' (b ++ [' '] ++ ['|']) = false :=
        hasDouble_apart (by decide) (single' b (by simp))
      obtain ⟨rfl, rfl⟩ := first_double_unique first spaced (by simpa using same)
      rcases start with rfl | start
      · have visible := (trimmed _ List.mem_cons_self).2 ' ' (by simp)
        revert visible
        decide
      · simp at start

theorem hasDouble_concat_self {sep : Char} {cs : List Char} (single : hasDouble sep cs = false)
    (last : cs.getLast? ≠ some sep) : hasDouble sep (cs ++ [sep]) = false := by
  rw [hasDouble_concat, single]
  simpa using last

/-- Texts without a doubled bar come apart again at the bars between them, unless a bar at the end
of a text stands right in front of these. -/
theorem piecesAtDouble_tight {as : List (List Char)} (full : as ≠ [])
    (single : ∀ a ∈ as, hasDouble '|' a = false)
    (apart : ∀ a ∈ as.dropLast, a.getLast? ≠ some '|') :
    piecesAtDouble '|' (['|', '|'].intercalate as) = as := by
  induction as with
  | nil => exact absurd rfl full
  | cons a as ih =>
    cases as with
    | nil => rw [List.intercalate_singleton, piecesAtDouble_of_not_hasDouble (single a (by simp))]
    | cons b bs =>
      obtain ⟨single₁, singles⟩ := List.forall_mem_cons.mp single
      rw [List.dropLast_cons_cons] at apart
      obtain ⟨apart₁, aparts⟩ := List.forall_mem_cons.mp apart
      rw [List.intercalate_cons_cons, List.append_assoc]
      show piecesAtDouble '|' (a ++ '|' :: '|' :: ['|', '|'].intercalate (b :: bs)) = _
      rw [piecesAtDouble_of_first (hasDouble_concat_self single₁ apart₁),
        ih (by simp) singles aparts]

/-- A bar at the end of a text is taken for the first of the two behind it, and the text is cut
short. -/
theorem apart_of_pieces_tight {as : List (List Char)} (single : ∀ a ∈ as, hasDouble '|' a = false)
    (pieces : List.Forall₂ (fun piece a => trim piece = a)
      (piecesAtDouble '|' (['|', '|'].intercalate as)) as) :
    ∀ a ∈ as.dropLast, a.getLast? ≠ some '|' := by
  induction as with
  | nil => simp
  | cons a as ih =>
    cases as with
    | nil => simp
    | cons b bs =>
      obtain ⟨single₁, singles⟩ := List.forall_mem_cons.mp single
      rw [List.intercalate_cons_cons, List.append_assoc] at pieces
      replace pieces : List.Forall₂ (fun piece a => trim piece = a)
        (piecesAtDouble '|' (a ++ '|' :: '|' :: ['|', '|'].intercalate (b :: bs))) _ := pieces
      rw [List.dropLast_cons_cons]
      by_cases last : a.getLast? = some '|'
      · obtain ⟨w, rfl⟩ := List.getLast?_eq_some_iff.mp last
        rw [List.append_assoc] at pieces
        replace pieces : List.Forall₂ (fun piece a => trim piece = a)
          (piecesAtDouble '|' (w ++ '|' :: '|' :: '|' :: ['|', '|'].intercalate (b :: bs))) _ :=
        pieces
        rw [piecesAtDouble_of_first single₁] at pieces
        have cut : trim w = w ++ ['|'] := (List.forall₂_cons.mp pieces).1
        have shorter := length_trim_le w
        rw [cut, List.length_append, List.length_singleton] at shorter
        omega
      · rw [piecesAtDouble_of_first (hasDouble_concat_self single₁ last)] at pieces
        exact List.forall_mem_cons.mpr ⟨last, ih singles (List.forall₂_cons.mp pieces).2⟩

theorem toList_bars : " || ".toList = [' ', '|', '|', ' '] := by
  decide

theorem forall₂_pads_splitDouble {ps : List String} (full : ps ≠ [])
    (h : ∀ p ∈ ps, hasDouble '|' p.toList = false) :
    List.Forall₂ (fun p piece => Pads p.toList piece.toList) ps
      (splitDouble '|' (" || ".intercalate ps)) := by
  unfold splitDouble
  rw [String.toList_intercalate, toList_bars, List.forall₂_map_right_iff]
  have single : ∀ p ∈ ps.map String.toList, hasDouble '|' p = false := by simpa using h
  have pieces := forall₂_pads_piecesAtDouble (by simpa using full) single
  rw [List.forall₂_map_left_iff] at pieces
  refine pieces.imp ?_
  intro p piece pads
  rwa [String.toList_ofList]

theorem two_le_length_splitDouble {v w : String} {vs : List String} :
    2 ≤ (splitDouble '|' (" || ".intercalate (v :: w :: vs))).length := by
  unfold splitDouble
  rw [List.length_map, String.toList_intercalate, toList_bars, List.map_cons, List.map_cons,
    List.intercalate_cons_cons]
  simp only [List.append_assoc, List.cons_append, List.nil_append]
  exact two_le_length_piecesAtDouble (by decide) _ _

end DirectoryAccess.Text
