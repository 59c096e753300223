import DirectoryAccess.Condition.Names
import DirectoryAccess.Decimal.Numeral
import DirectoryAccess.Decimal.Shortest
import DirectoryAccess.Instruction.Reading

/-!
# Stored rules

A rule is stored as the text that it is written as, and is restored by reading that text. What is
not valid is not stored.
-/
namespace DirectoryAccess

/-- A value that a store of structured data may hand back. -/
inductive Datum where
  | text (s : String)
  | integer (n : Int)
  | fraction (x : Float)
  | boolean (b : Bool)
  | null
  | sequence
  | map

/-- A type of rules that can be stored. -/
class Storable (α : Type) where
  /-- The rule may be stored. -/
  check : α → Except RuleError Unit
  render : α → String
  /-- The rule in a text, or the wording of the refusal. -/
  read : String → Except String α

namespace Datum

/-- The number that is written as a numeral. -/
def ofNumeral (cs : List Char) : Datum :=
  let n := Decimal.Numeral.ofChars cs
  match n.integer? with
  | some i => integer i
  | none => fraction n.toFloat

/-- What kind of value was found, with the value where that is short. -/
def description : Datum → String
  | text s => "string \"" ++ s ++ "\""
  | integer n => s!"integer `{n}`"
  | fraction x => s!"floating point `{Decimal.ofFloat x}`"
  | boolean b => s!"boolean `{b}`"
  | null => "null"
  | sequence => "sequence"
  | map => "map"

end Datum

/-- The text under which a valid rule is stored. -/
def store {α : Type} [Storable α] (a : α) : Except RuleError String := do
  Storable.check a
  return Storable.render a

/-- The rule that was stored, or the wording of the refusal; only texts are rules. -/
def restore {α : Type} [Storable α] : Datum → Except String α
  | .text s => Storable.read s
  | d => .error s!"invalid type: {d.description}, expected rule text"

instance : Storable Comparison where
  check _ := .ok ()
  render := Comparison.symbol
  read s := (Comparison.read s).mapError ReadError.message

instance : Storable Keyword where
  check _ := .ok ()
  render := Keyword.name
  read s := (Keyword.read s).mapError ReadError.message

instance : Storable Permission where
  check := Permission.validate
  render := Permission.render
  read s := (Permission.read s).mapError ReadError.message

instance : Storable Condition where
  check := Condition.validate
  render := Condition.render
  read s := (Condition.read s).mapError Refusal.message

instance : Storable Instruction where
  check := Instruction.validate
  render := Instruction.render
  read s := (Instruction.read s).mapError Refusal.message

instance : Storable (Stack Instruction) where
  check := Stack.validate
  render := Stack.render
  read s := (Stack.readInstructions s).mapError Refusal.message

end DirectoryAccess
