/-!
# Cutting a text at its separators

A text with `n` separators has `n + 1` pieces, some of them perhaps empty; the empty text is one
empty piece.
-/
namespace DirectoryAccess.Text

/-- Puts a character in front of the first piece. -/
def extendFirst (c : Char) : List (List Char) → List (List Char)
  | [] => [[c]]
  | p :: ps => (c :: p) :: ps

/-- The pieces between the occurrences of one separating character. -/
def piecesAt (sep : Char) : List Char → List (List Char)
  | [] => [[]]
  | c :: r => if c = sep then [] :: piecesAt sep r else extendFirst c (piecesAt sep r)

/-- The pieces between the occurrences of a doubled character. Of three in a row the first two
separate. -/
def piecesAtDouble (sep : Char) : List Char → List (List Char)
  | [] => [[]]
  | [c] => [[c]]
  | c :: d :: r =>
    if c = sep ∧ d = sep then [] :: piecesAtDouble sep r
    else extendFirst c (piecesAtDouble sep (d :: r))

/-- The character occurs twice in a row. -/
def hasDouble (sep : Char) : List Char → Bool
  | c :: d :: r => (c == sep && d == sep) || hasDouble sep (d :: r)
  | _ => false

/-- The pieces of a string between the occurrences of one character. -/
def split (sep : Char) (s : String) : List String :=
  (piecesAt sep s.toList).map String.ofList

/-- The pieces of a string between the occurrences of a doubled character. -/
def splitDouble (sep : Char) (s : String) : List String :=
  (piecesAtDouble sep s.toList).map String.ofList

theorem piecesAt_ne_nil (sep : Char) (cs : List Char) : piecesAt sep cs ≠ [] := by
  cases cs with
  | nil => simp [piecesAt]
  | cons c r =>
    rw [piecesAt]
    split
    · simp
    · cases piecesAt sep r <;> simp [extendFirst]

theorem intercalate_piecesAt (sep : Char) (cs : List Char) :
    [sep].intercalate (piecesAt sep cs) = cs := by
  induction cs with
  | nil => rfl
  | cons c r ih =>
    rw [piecesAt]
    have full := piecesAt_ne_nil sep r
    generalize hp : piecesAt sep r = ps at ih full ⊢
    cases ps with
    | nil => exact absurd rfl full
    | cons p ps =>
      split
      · subst c; simpa [List.intercalate, List.intersperse] using ih
      · cases ps <;> simp_all [extendFirst, List.intercalate, List.intersperse]

end DirectoryAccess.Text
