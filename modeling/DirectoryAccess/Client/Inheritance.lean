import DirectoryAccess.Client.AttributeMatch

/-!
# Inherited matches

A match that holds for an entry may also be looked for in the entries above it. The levels say how
far above: level 0 is the entry itself.
-/
namespace DirectoryAccess

/-- A number of steps up from an entry. -/
abbrev Level := Fin 10

namespace Level

def max : Nat := 9

/-- The level with the given number, if it is not too great. -/
def ofNat? (n : Nat) : Option Level :=
  if h : n < 10 then some ⟨n, h⟩ else none

def render (l : Level) : String :=
  toString l.val

end Level

/-- A match and the levels at which it is looked for, in the order in which they were given. A void
inheritance has neither. -/
structure Inheritance where
  levels : List Level := []
  value : Option AttributeMatch := none
  deriving DecidableEq

namespace Inheritance

def noun : String := "inheritance"

def voidMarker : String := "<invalid_inheritance>"

/-- The inheritance with one more level, which has to be new. -/
def pushLevel? (i : Inheritance) (n : Nat) : Except RuleError Inheritance :=
  match Level.ofNat? n with
  | none => .error (.badValue "inheritance level" (toString n) "must be 0 through 9")
  | some l =>
    if l ∈ i.levels then .error (.duplicateValue (toString n))
    else .ok { i with levels := i.levels ++ [l] }

/-- The inheritance with one more level; a refused level leaves it as it was. -/
def pushLevel (i : Inheritance) (n : Nat) : Inheritance :=
  match i.pushLevel? n with
  | .ok j => j
  | .error _ => i

/-- The match at the given levels, refused ones left out. -/
def ofLevels (value : AttributeMatch) (levels : List Nat) : Inheritance :=
  levels.foldl pushLevel { value := some value }

/-- The match is at least one level up or at the entry itself, is valid, and is about an attribute
whose name begins with a small letter. -/
def validate (i : Inheritance) : Except RuleError Unit :=
  match i.value with
  | none => .error (.absent noun)
  | some value => do
    if i.levels.isEmpty then
      throw (.badValue noun "parent[]" "at least one level is required")
    value.validate
    let name := value.attributeType.name.getD ""
    if !AttributeType.isIdentifier name then
      throw (.badValue noun name "attribute type is not an identifier")

/-- The match at the given levels, or why it is refused. -/
def ofLevels? (value : AttributeMatch) (levels : List Nat) : Except RuleError Inheritance := do
  let i ← levels.foldlM pushLevel? { value := some value }
  i.validate
  return i

def hasLevel (i : Inheritance) (n : Nat) : Bool :=
  i.levels.any (fun l => l.val == n)

def keyword (i : Inheritance) : Option Keyword :=
  i.value.map (·.keyword)

def isVoid (i : Inheritance) : Bool :=
  i.levels.isEmpty && i.value.isNone

def render (i : Inheritance) : String :=
  match i.value, i.validate with
  | some value, .ok _ =>
    "parent[" ++ ",".intercalate (i.levels.map Level.render) ++ "]." ++ value.render
  | _, _ => voidMarker

def toOperand (i : Inheritance) : Operand where
  keyword := i.keyword
  expression := i.validate.toOption.map (fun _ => .value i.render)

end Inheritance

end DirectoryAccess
