/-!
# Letter case

Words are compared without regard to the case of the letters `A` to `Z`. All other characters
count as they stand.
-/
namespace DirectoryAccess.Text

/-- The text with its letters `A` to `Z` made small. -/
def lower (cs : List Char) : List Char :=
  cs.map Char.toLower

/-- The two strings are equal up to the case of ASCII letters. -/
def sameWord (s t : String) : Bool :=
  lower s.toList == lower t.toList

/-- The first of the candidates whose name is the word, up to the case of ASCII letters. -/
def findNamed {α : Type} (name : α → String) (candidates : List α) (word : String) : Option α :=
  candidates.find? (fun a => sameWord (name a) word)

theorem sameWord_iff {s t : String} :
    sameWord s t = true ↔ lower s.toList = lower t.toList := by
  simp [sameWord]

theorem sameWord_refl (s : String) : sameWord s s = true := by
  simp [sameWord]

theorem sameWord_comm (s t : String) : sameWord s t = sameWord t s := by
  rw [Bool.eq_iff_iff, sameWord_iff, sameWord_iff, eq_comm]

theorem sameWord_trans {s t u : String} (st : sameWord s t = true) (tu : sameWord t u = true) :
    sameWord s u = true := by
  rw [sameWord_iff] at *
  exact st.trans tu

theorem sameWord_congr {s t : String} (h : lower s.toList = lower t.toList) (u : String) :
    sameWord s u = sameWord t u := by
  rw [Bool.eq_iff_iff, sameWord_iff, sameWord_iff, h]

theorem findNamed_congr {α : Type} {name : α → String} {candidates : List α} {s t : String}
    (h : lower s.toList = lower t.toList) :
    findNamed name candidates s = findNamed name candidates t := by
  unfold findNamed
  congr 1
  funext a
  rw [sameWord_comm _ s, sameWord_comm _ t, sameWord_congr h]

theorem sameWord_of_findNamed {α : Type} {name : α → String} {candidates : List α} {word : String}
    {a : α} (h : findNamed name candidates word = some a) : sameWord (name a) word = true := by
  unfold findNamed at h
  have found := List.find?_some h
  exact found

end DirectoryAccess.Text
