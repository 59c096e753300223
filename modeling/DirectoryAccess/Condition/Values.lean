import DirectoryAccess.Client.Address
import DirectoryAccess.Client.Authentication
import DirectoryAccess.Client.HostName
import DirectoryAccess.Client.Strength
import DirectoryAccess.Client.TimeOfDay
import DirectoryAccess.Client.Weekdays
import DirectoryAccess.Directory.SearchScope
import DirectoryAccess.Grammar.Value
import DirectoryAccess.Grammar.Whole

/-!
# Values in texts

The text between the quotes of a condition is read as the kind of value that the keyword is compared
with, and is kept in the form in which that value is written.
-/
namespace DirectoryAccess

/-! ### Lists -/

namespace Stack

/-- The list with one more value, as an outcome of reading. -/
def pushRead {α : Type} [Element α] (s : Stack α) (a : α) : Except ReadError (Stack α) :=
  (s.push? (.leaf a)).mapError .ofRuleError

def pushNameRead (k : Keyword) (s : Stack DistinguishedName) (part : String) :
    Except ReadError (Stack DistinguishedName) := do
  let word := Text.trimmed part
  if (Text.after? DistinguishedName.scheme.toList word.toList).isNone then
    throw { cause := .noScheme word DistinguishedName.scheme }
  s.pushRead (← (DistinguishedName.ofText? k word).mapError .ofRuleError)

def pushIdentifierRead (k : Keyword) (s : Stack ObjectIdentifier) (part : String) :
    Except ReadError (Stack ObjectIdentifier) := do
  s.pushRead (← (ObjectIdentifier.ofText? k part).mapError .ofRuleError)

def pushAttributeRead (s : Stack AttributeType) (part : String) :
    Except ReadError (Stack AttributeType) := do
  let a := AttributeType.ofText part
  if a.isVoid then throw { cause := .misspelt AttributeType.noun (Text.trimmed part) }
  s.pushRead a

/-- The names in a text that separates them by two bars. -/
def readNames (k : Keyword) (text : String) : Except ReadError (Stack DistinguishedName) :=
  (Text.splitDouble '|' text).foldlM (pushNameRead k) (distinguishedNames k)

/-- The identifiers in a text that separates them by two bars. -/
def readIdentifiers (k : Keyword) (text : String) : Except ReadError (Stack ObjectIdentifier) :=
  (Text.splitDouble '|' text).foldlM (pushIdentifierRead k) (objectIdentifiers k)

/-- The attribute types in a text that separates them by two bars. -/
def readAttributes (text : String) : Except ReadError (Stack AttributeType) :=
  (Text.splitDouble '|' text).foldlM pushAttributeRead attributeTypes

end Stack

/-! ### Filter operations -/

namespace FilterOperation

/-- The operation, if each of its filters is valid and there is one at least. -/
def checked (o : FilterOperation) : Except ReadError FilterOperation := do
  if let some bad := o.filters.elements.find? (!·.validate.isOk) then
    throw { cause := .misspelt AttributeFilter.noun bad.render }
  o.validate.mapError .ofRuleError
  return o

/-- The operation that is written. Terms that are not valid are left out before the check. -/
def ofTree (t : Grammar.OperationTree) : Except ReadError FilterOperation :=
  (ofFilters t.operation (t.terms.map (fun (name, filter) => .ofTexts name filter))).checked

/-- The operation in a text, blanks at its end dropped. -/
def read (text : String) : Except ReadError FilterOperation := do
  ofTree (← Grammar.wholeFilterOperation.readText (Text.trimEnd text.toList))

end FilterOperation

namespace Stack

def pushOperationRead (s : Stack FilterOperation) (t : Grammar.OperationTree) :
    Except ReadError (Stack FilterOperation) := do
  s.pushRead (← FilterOperation.ofTree t)

/-- The operations in a text, blanks at its end dropped. Where the first two are separated by a
semicolon, so are they all when they are written. -/
def readOperations (text : String) : Except ReadError (Stack FilterOperation) := do
  let (trees, first) ← Grammar.wholeFilterOperations.readText (Text.trimEnd text.toList)
  let delimiter := if first = some ';' then Delimiter.semicolon else .comma
  trees.foldlM pushOperationRead (filterOperations.setDelimiter delimiter)

end Stack

/-! ### Matching attributes -/

/-- The match in a text, blanks at its ends dropped. -/
def AttributeMatch.read (k : Keyword) (text : String) : Except ReadError AttributeMatch := do
  let (name, value) ← Grammar.attributeMatch.readText (Text.trim text.toList)
  let m : AttributeMatch := ⟨k, .ofText name, .ofText value⟩
  m.validate.mapError .ofRuleError
  return m

namespace Inheritance

/-- The inheritance in a text, faults not yet laid to it. -/
def readBare (k : Keyword) (text : String) : Except ReadError Inheritance := do
  if text.isEmpty then throw { cause := .emptyText }
  let (levels, name, value) ← Grammar.inheritance.readText text.toList
  if !AttributeType.isIdentifier name then throw { cause := .notIdentifier name }
  (ofLevels? ⟨k, .ofText name, .ofText value⟩ levels).mapError .ofRuleError

/-- The inheritance in a text, for the keyword. -/
def read (k : Keyword) (text : String) : Except ReadError Inheritance :=
  (readBare k text).mapError (.within noun)

end Inheritance

def Filter.read (text : String) : Except ReadError Filter :=
  (ofText? text).mapError .ofRuleError

/-! ### The value of a keyword -/

namespace Expression

/-- A list in one pair of quotes that has a single value is that value; every other list stays a
list. -/
def ofList {α : Type} [Listable α] (list : Stack α) (q : Quoting) : Expression :=
  match q, list.elements with
  | .whole, [.leaf a] => .value (Element.render a)
  | _, _ => Listable.toExpression (list.setQuoting q)

def onlyValue (k : Keyword) : List String → Except ReadError String
  | [text] => .ok text
  | _ => .error { cause := .severalValues k }

/-- The value of a keyword that is compared with matching attributes: at levels, or without. -/
def readMatch (k : Keyword) (text : String) : Except ReadError String :=
  if (Text.after? "parent[".toList text.toList).isSome then
    (Inheritance.read k text).map Inheritance.render
  else (AttributeMatch.read k text).map AttributeMatch.render

def readScalar (k : Keyword) (text : String) : Except ReadError String :=
  match k.valueKind with
  | .scope => (SearchScope.read text).map SearchScope.name
  | .filter => (Filter.read text).map Filter.render
  | .address => (AddressList.read text).map AddressList.render
  | .hostName => (HostName.read text).map HostName.render
  | .authentication => (Authentication.read text).map Authentication.name
  | .userAttribute => readMatch k text
  | .weekdays => (Weekdays.read text).map Weekdays.render
  | .strength => (Strength.read text).map Strength.render
  | .time => (TimeOfDay.read text).map TimeOfDay.render
  | _ => .ok text

/-- The expression of the keyword in the texts between its quotes. Several quoted texts are one
list; only names, identifiers and attribute types may be given so. -/
def read (k : Keyword) (values : List String) (q : Quoting) : Except ReadError Expression :=
  let joined := " || ".intercalate values
  match k.valueKind with
  | .distinguishedNames => do return ofList (← Stack.readNames k joined) q
  | .objectIdentifiers => do return ofList (← Stack.readIdentifiers k joined) q
  | .attributeTypes => do return ofList (← Stack.readAttributes joined) q
  | .filterOperations => do
    return ofList (← Stack.readOperations (← onlyValue k values)) .whole
  | _ => do return .value (← readScalar k (← onlyValue k values))

end Expression

end DirectoryAccess
