/-!
# Decimal numerals
-/
namespace DirectoryAccess.Text

/-- The value of a decimal digit; of other characters nothing is claimed. -/
def digitValue (c : Char) : Nat :=
  c.toNat - '0'.toNat

/-- The number that a run of decimal digits denotes, leading zeros allowed. -/
def numberOf (digits : List Char) : Nat :=
  digits.foldl (fun n c => 10 * n + digitValue c) 0

/-- The number written by one or more decimal digits, with at most one plus sign in front. -/
def number? (cs : List Char) : Option Nat :=
  let digits := match cs with
    | '+' :: r => r
    | _ => cs
  if digits ≠ [] ∧ digits.all Char.isDigit then some (numberOf digits) else none

/-- The number in decimal digits, filled up with zeros in front to the given width. -/
def paddedNumeral (width n : Nat) : String :=
  let digits := toString n
  String.ofList (List.replicate (width - digits.length) '0') ++ digits

/-- The number of bytes of the text's UTF-8 form. -/
def byteLength (cs : List Char) : Nat :=
  cs.foldr (fun c n => c.utf8Size + n) 0

theorem byteLength_append (cs ds : List Char) :
    byteLength (cs ++ ds) = byteLength cs + byteLength ds := by
  induction cs with
  | nil => simp [byteLength]
  | cons c r ih =>
    simp only [byteLength, List.cons_append, List.foldr_cons] at ih ⊢
    omega

end DirectoryAccess.Text
