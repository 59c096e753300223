import DirectoryAccess.Condition.Operand
import DirectoryAccess.ReadError

/-!
# Security strength

The strength of the client's connection, a number of key bits from 0 to 256.
-/
namespace DirectoryAccess

/-- A security strength factor. -/
structure Strength where
  factor : Nat := 0
  le_max : factor ≤ 256 := by decide
  deriving DecidableEq

namespace Strength

def max : Nat := 256

/-- The strength with the given factor, if it is not too great. -/
def ofNat? (n : Nat) : Option Strength :=
  if h : n ≤ 256 then some ⟨n, h⟩ else none

def none : Strength := {}

def full : Strength := ⟨256, Nat.le_refl 256⟩

/-- The strength that a text spells: a number, or a word for the least or the greatest strength,
blanks around it and the case of its letters aside. -/
def ofText? (text : String) : Option Strength :=
  let word := Text.trimmed text
  if Text.sameWord word "none" || Text.sameWord word "off" then some .none
  else if Text.sameWord word "max" || Text.sameWord word "full" then some .full
  else (Text.number? word.toList).bind ofNat?

/-- The strength that the text spells, or the strength as it was. -/
def set (s : Strength) (text : String) : Strength :=
  (ofText? text).getD s

def read (text : String) : Except ReadError Strength :=
  match ofText? text with
  | some strength => .ok strength
  | .none => .error { cause := .misspelt "security strength factor" text }

def render (s : Strength) : String :=
  toString s.factor

instance : Ord Strength := ⟨fun s t => compare s.factor t.factor⟩

def toOperand (s : Strength) : Operand :=
  .single (.bind .ssf) (some s.render)

end Strength

end DirectoryAccess
