import DirectoryAccess.Text.LetterCase

/-!
# What a text starts with
-/
namespace DirectoryAccess.Text

/-- What is left of the text after the given start, if the text has that start. -/
def after? : List Char → List Char → Option (List Char)
  | [], cs => some cs
  | _ :: _, [] => none
  | p :: ps, c :: cs => if p = c then after? ps cs else none

/-- What is left of the text after the given word, the case of ASCII letters aside. -/
def afterWord? : List Char → List Char → Option (List Char)
  | [], cs => some cs
  | _ :: _, [] => none
  | p :: ps, c :: cs => if p.toLower = c.toLower then afterWord? ps cs else none

/-- The text without the given start; a text that does not start so is left alone. -/
def dropStart (start cs : List Char) : List Char :=
  (after? start cs).getD cs

theorem after?_eq_some_iff {start cs rest : List Char} :
    after? start cs = some rest ↔ cs = start ++ rest := by
  induction start generalizing cs with
  | nil => simp [after?, eq_comm]
  | cons p ps ih =>
    cases cs with
    | nil => simp [after?]
    | cons c cs =>
      rw [after?]
      split
      · next h => simp [ih, h]
      · next h => simp [Ne.symm h]

theorem after?_append (start rest : List Char) : after? start (start ++ rest) = some rest :=
  after?_eq_some_iff.mpr rfl

theorem afterWord?_eq_some_iff {word cs rest : List Char} :
    afterWord? word cs = some rest ↔
      ∃ spelling, lower spelling = lower word ∧ cs = spelling ++ rest := by
  induction word generalizing cs with
  | nil => simp [afterWord?, lower, eq_comm]
  | cons p ps ih =>
    cases cs with
    | nil =>
      simp only [afterWord?, reduceCtorEq, false_iff, not_exists, not_and]
      intro sp same empty
      cases sp with
      | nil => simp [lower] at same
      | cons d ds => simp at empty
    | cons c cs =>
      rw [afterWord?]
      split
      · next h =>
        rw [ih]
        constructor
        · rintro ⟨sp, same, rfl⟩
          exact ⟨c :: sp, by simp_all [lower], by simp⟩
        · rintro ⟨sp, same, split⟩
          cases sp with
          | nil => simp [lower] at same
          | cons d ds =>
            simp only [List.cons_append, List.cons.injEq] at split
            exact ⟨ds, by simp_all [lower], split.2⟩
      · next h =>
        simp only [reduceCtorEq, false_iff, not_exists, not_and]
        rintro sp same split
        cases sp with
        | nil => simp [lower] at same
        | cons d ds =>
          simp only [List.cons_append, List.cons.injEq] at split
          simp only [lower, List.map_cons, List.cons.injEq] at same
          exact h (by rw [split.1, same.1])

end DirectoryAccess.Text
