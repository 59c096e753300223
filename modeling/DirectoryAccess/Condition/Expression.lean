import DirectoryAccess.Directory.DistinguishedName
import DirectoryAccess.Directory.FilterOperation
import DirectoryAccess.Directory.ObjectIdentifier

/-!
# Expressions

The right side of a condition: one value, kept as its text, or a list of values, kept as a stack so
that the quoting of the list can still be chosen.
-/
namespace DirectoryAccess

/-- What a keyword is compared with. -/
inductive Expression where
  | value (text : String)
  | distinguishedNames (list : Stack DistinguishedName)
  | objectIdentifiers (list : Stack ObjectIdentifier)
  | attributeTypes (list : Stack AttributeType)
  | filterOperations (list : Stack FilterOperation)
  deriving DecidableEq

namespace Expression

/-- Where the quotes stand; a single value has one pair around it. -/
def quoting : Expression → Quoting
  | value _ => .whole
  | distinguishedNames s => s.settings.quoting
  | objectIdentifiers s => s.settings.quoting
  | attributeTypes s => s.settings.quoting
  | filterOperations s => s.settings.quoting

/-- A list takes the given quoting; a single value has no choice. -/
def setQuoting (q : Quoting) : Expression → Expression
  | value text => value text
  | distinguishedNames s => distinguishedNames (s.setQuoting q)
  | objectIdentifiers s => objectIdentifiers (s.setQuoting q)
  | attributeTypes s => attributeTypes (s.setQuoting q)
  | filterOperations s => filterOperations (s.setQuoting q)

def isEmpty : Expression → Bool
  | value text => text.isEmpty
  | distinguishedNames s => s.isEmpty
  | objectIdentifiers s => s.isEmpty
  | attributeTypes s => s.isEmpty
  | filterOperations s => s.isEmpty

/-- A value is not empty and holds no double quote, which would end it; a list is valid as a
stack. -/
def validate : Expression → Except RuleError Unit
  | value text =>
    if text.isEmpty then .error (.absent "expression")
    else if text.toList.contains '"' then
      .error (.badValue "expression" text "values may not contain double quotes")
    else .ok ()
  | distinguishedNames s => s.validate
  | objectIdentifiers s => s.validate
  | attributeTypes s => s.validate
  | filterOperations s => s.validate

/-- The text without the quotes around it; where each value is quoted, these quotes are in it. -/
def body : Expression → String
  | value text => text
  | distinguishedNames s => s.render
  | objectIdentifiers s => s.render
  | attributeTypes s => s.render
  | filterOperations s => s.render

def render (e : Expression) : String :=
  match e.quoting with
  | .whole => quoted e.body
  | .each => e.body

end Expression

/-- A type of values of which a list can be the right side of a condition. -/
class Listable (α : Type) extends Element α where
  toExpression : Stack α → Expression

instance : Listable DistinguishedName := ⟨.distinguishedNames⟩

instance : Listable ObjectIdentifier := ⟨.objectIdentifiers⟩

instance : Listable AttributeType := ⟨.attributeTypes⟩

instance : Listable FilterOperation := ⟨.filterOperations⟩

end DirectoryAccess
