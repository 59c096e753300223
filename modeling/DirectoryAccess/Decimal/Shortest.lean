/-!
# The shortest decimal of a binary fraction

A floating-point value stands for all reals that are rounded to it. Of the decimals among them the
one with the fewest digits is chosen, which is the one on the coarsest decimal grid; of two on that
grid the nearer is taken, and the one with an even last digit if both are as near.
-/
namespace DirectoryAccess.Decimal

/-- A finite value without its sign, `mantissa` times the power of two. -/
structure BinaryFraction where
  mantissa : Nat
  exponent : Int
  /-- The value below is half as far away as the value above. -/
  narrowBelow : Bool

/-- The digits before and behind the point, as one number with a power of ten. -/
structure Digits where
  number : Nat
  exponent : Int
  deriving DecidableEq

namespace BinaryFraction

/-- The value with the given bits, the sign bit aside. -/
def ofBits (bits : UInt64) : BinaryFraction :=
  let biased := ((bits >>> 52) &&& 0x7FF).toNat
  let fraction := (bits &&& 0xFFFFFFFFFFFFF).toNat
  if biased = 0 then ⟨fraction, -1074, false⟩
  else ⟨Nat.pow 2 52 + fraction, biased - 1075, fraction == 0 && 1 < biased⟩

/-- Four times the value, over a common denominator with the grid of the given power of ten: the
numerator of the value and that of four steps of the grid. -/
def overGrid (b : BinaryFraction) (power : Int) : Nat × Nat :=
  (4 * b.mantissa * Nat.pow 2 b.exponent.toNat * Nat.pow 10 (-power).toNat,
    4 * Nat.pow 2 (-b.exponent).toNat * Nat.pow 10 power.toNat)

/-- So many steps of the grid are a decimal that is rounded to the value. -/
def readsBack (b : BinaryFraction) (power : Int) (steps : Nat) : Bool :=
  let (_, step) := b.overGrid power
  let unit := Nat.pow 2 b.exponent.toNat * Nat.pow 10 (-power).toNat
  let low := (4 * b.mantissa - if b.narrowBelow then 1 else 2) * unit
  let high := (4 * b.mantissa + 2) * unit
  let even := b.mantissa % 2 == 0
  (low < steps * step || (even && low == steps * step)) &&
    (steps * step < high || (even && steps * step == high))

/-- The upper one of two neighbours on the grid is the better decimal for a value that lies at the
given part of a step above the lower one: a half goes to the even neighbour. -/
def prefersAbove (below part step : Nat) : Bool :=
  step < 2 * part || (step == 2 * part && below % 2 == 1)

/-- The decimal on the grid that is rounded to the value, if there is one: the better of the two
neighbours of the value. -/
def onGrid? (b : BinaryFraction) (power : Int) : Option Digits :=
  let (value, step) := b.overGrid power
  let below := value / step
  let fits := fun steps => 0 < steps && b.readsBack power steps
  if fits (below + 1) && (!fits below || prefersAbove below (value % step) step) then
    some ⟨below + 1, power⟩
  else if fits below then some ⟨below, power⟩
  else none

/-- The decimal with the fewest digits. The grids run from above the greatest value to below the
least one; on none of them is there a decimal for zero. -/
def shortest (b : BinaryFraction) : Digits :=
  if b.mantissa = 0 then ⟨0, 0⟩
  else ((List.range 660).findSome? (fun (i : Nat) => b.onGrid? (309 - (i : Int)))).getD ⟨0, 0⟩

end BinaryFraction

namespace Digits

/-- The power of ten just above the number; zero counts as one digit. -/
def magnitude (d : Digits) : Int :=
  d.exponent + (toString d.number).length

/-- A decimal with its digits in their places, at least one on either side of the point. -/
def positional (d : Digits) : String :=
  let places := (-d.exponent).toNat
  let whole := toString (d.number * Nat.pow 10 d.exponent.toNat)
  let filled := String.ofList (List.replicate (places + 1 - whole.length) '0') ++ whole
  let cut := filled.length - places
  let behind := String.ofList (filled.toList.drop cut)
  String.ofList (filled.toList.take cut) ++ "." ++ (if behind.isEmpty then "0" else behind)

/-- A decimal with one digit in front of the point and a power of ten behind the digits. -/
def scientific (d : Digits) : String :=
  let digits := (toString d.number).toList
  let behind := digits.drop 1
  let power := d.magnitude - 1
  String.ofList (digits.take 1) ++ (if behind.isEmpty then "" else "." ++ String.ofList behind) ++
    "e" ++ (if power < 0 then "-" else "+") ++ toString power.natAbs

/-- A decimal is written positionally where at most sixteen digits stand in front of the point, and
at most four zeros between the point and the first other digit. -/
def written (d : Digits) : String :=
  if -5 < d.magnitude ∧ d.magnitude ≤ 16 then d.positional else d.scientific

end Digits

/-- A finite floating-point value as its shortest decimal. -/
def ofFloat (x : Float) : String :=
  let bits := x.toBits
  (if bits >>> 63 = 1 then "-" else "") ++ (BinaryFraction.ofBits bits).shortest.written

end DirectoryAccess.Decimal
