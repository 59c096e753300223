import DirectoryAccess.Condition.Operand

/-!
# Matching attributes

A client may be recognised by an attribute of the accessed entry: the attribute names the client in
the way of a bind type, or client and entry share a given value of it.
-/
namespace DirectoryAccess

/-- In which way an attribute names clients. -/
inductive BindType where
  | userDn
  | groupDn
  | roleDn
  | selfDn
  | ldapUri
  deriving DecidableEq

namespace BindType

def all : List BindType := [userDn, groupDn, roleDn, selfDn, ldapUri]

def name : BindType → String
  | userDn => "USERDN"
  | groupDn => "GROUPDN"
  | roleDn => "ROLEDN"
  | selfDn => "SELFDN"
  | ldapUri => "LDAPURI"

/-- The bind type with exactly this name; here the case of letters counts. -/
def ofName? (text : String) : Option BindType :=
  all.find? (fun t => t.name == text)

theorem ofName?_name (t : BindType) : ofName? t.name = some t := by
  cases t <;> decide

theorem name_of_ofName? {text : String} {t : BindType} (h : ofName? text = some t) :
    t.name = text := by
  simpa using List.find?_some h

end BindType

/-- What an attribute is matched with. -/
inductive MatchValue where
  | bindType (type : BindType)
  | literal (text : String)
  deriving DecidableEq

namespace MatchValue

/-- The name of a bind type means that bind type, any other text itself. -/
def ofText (text : String) : MatchValue :=
  match BindType.ofName? text with
  | some t => bindType t
  | none => literal text

def render : MatchValue → String
  | bindType t => t.name
  | literal text => text

theorem render_ofText (text : String) : (ofText text).render = text := by
  rw [ofText]
  split
  · next h => exact BindType.name_of_ofName? h
  · rfl

end MatchValue

/-- An attribute and what it is matched with, for a keyword. -/
structure AttributeMatch where
  keyword : Keyword
  attributeType : AttributeType
  value : MatchValue
  deriving DecidableEq

namespace AttributeMatch

def noun : String := "attribute bind type or value"

def voidMarker : String := "<invalid_attribute_bind_type_or_value>"

def userAttr (name : String) (value : MatchValue) : AttributeMatch :=
  { keyword := .bind .userAttr, attributeType := .ofText name, value }

def groupAttr (name : String) (value : MatchValue) : AttributeMatch :=
  { keyword := .bind .groupAttr, attributeType := .ofText name, value }

/-- The keyword takes matches, there is an attribute, and a literal value can be quoted. -/
def validate (m : AttributeMatch) : Except RuleError Unit := do
  if m.keyword.valueKind ≠ .userAttribute then
    throw (.misplacedKeyword m.keyword ("an " ++ noun))
  m.attributeType.validate
  match m.value with
  | .bindType _ => return
  | .literal text =>
    if text.isEmpty || text.toList.contains '"' then
      throw (.badValue noun text "value must be non-empty and unquoted")

def render (m : AttributeMatch) : String :=
  match m.validate with
  | .ok _ => m.attributeType.render ++ "#" ++ m.value.render
  | .error _ => voidMarker

def toOperand (m : AttributeMatch) : Operand :=
  .single m.keyword (m.validate.toOption.map (fun _ => m.render))

end AttributeMatch

end DirectoryAccess
