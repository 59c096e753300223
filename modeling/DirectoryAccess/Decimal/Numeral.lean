import DirectoryAccess.Text.Numeral

/-!
# Numerals with a point and a power of ten

A numeral is a whole number of 64 bits where it has neither point nor power of ten and is small
enough. Any other is read as a floating-point value in two roundings: of its leading digits, as many
as are a number of 64 bits, and of their product with a power of ten. The value is therefore exact
where the digits are below 2 ^ 53 and the power is at most 22; elsewhere it may be a neighbour of
the value that is nearest to the numeral.
-/
namespace DirectoryAccess.Decimal

/-- The parts of a numeral. -/
structure Numeral where
  negative : Bool
  whole : List Char
  /-- The digits behind the point, if there is one. -/
  behind : Option (List Char)
  /-- The power of ten behind the digits, if one is written. -/
  power : Option Int

/-- The number, continued by as many of the digits as keep it below 2 ^ 64, and the digits left. -/
def continued (n : Nat) : List Char → Nat × List Char
  | [] => (n, [])
  | c :: r =>
    let next := 10 * n + Text.digitValue c
    if next < Nat.pow 2 64 then continued next r else (n, c :: r)

/-- A power of ten, rounded to a floating-point value. -/
def powerOfTen (n : Nat) : Float :=
  Float.ofScientific 1 false n

/-- The value divided by a power of ten, in steps of at most 10 ^ 308. -/
def dividedBy (x : Float) (n : Nat) : Float :=
  if n ≤ 308 then x / powerOfTen n
  else if x == 0 then x
  else dividedBy (x / powerOfTen 308) (n - 308)
termination_by n

/-- The value times a power of ten. -/
def scaled (x : Float) (power : Int) : Float :=
  if x == 0 then x
  else if 0 ≤ power then x * powerOfTen power.toNat
  else dividedBy x power.natAbs

namespace Numeral

/-- The number in a run of digits with at most one sign in front. -/
def signedNumber : List Char → Int
  | '-' :: r => -(Text.numberOf r : Int)
  | '+' :: r => Text.numberOf r
  | r => Text.numberOf r

/-- The parts of a written numeral. -/
def ofChars (cs : List Char) : Numeral :=
  let negative := cs.head? == some '-'
  let unsigned := if negative then cs.drop 1 else cs
  let whole := unsigned.takeWhile Char.isDigit
  let afterWhole := unsigned.dropWhile Char.isDigit
  let (behind, tail) : Option (List Char) × List Char := match afterWhole with
    | '.' :: r => (some (r.takeWhile Char.isDigit), r.dropWhile Char.isDigit)
    | r => (none, r)
  let power := match tail with
    | 'e' :: r | 'E' :: r => some (signedNumber r)
    | _ => none
  ⟨negative, whole, behind, power⟩

/-- The whole number that the numeral is. Zero has no sign, so a signed zero is none. -/
def integer? (n : Numeral) : Option Int :=
  let number := Text.numberOf n.whole
  if n.behind.isSome || n.power.isSome then none
  else if n.negative then if 0 < number ∧ number ≤ Nat.pow 2 63 then some (-number) else none
  else if number < Nat.pow 2 64 then some number else none

/-- The floating-point value as which the numeral is read. Each digit in front of the point that is
left over stands for a power of ten, and each digit behind the point that is not for a tenth. -/
def toFloat (n : Numeral) : Float :=
  let behind := n.behind.getD []
  let (front, leftInFront) := continued 0 n.whole
  let (leading, leftBehind) := continued front behind
  let power : Int := leftInFront.length - (behind.length - leftBehind.length) + n.power.getD 0
  let size := scaled (UInt64.ofNat leading).toFloat power
  if n.negative then -size else size

end Numeral

end DirectoryAccess.Decimal
