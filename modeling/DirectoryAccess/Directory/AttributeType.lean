import DirectoryAccess.Stack.Operation

/-!
# Attribute types

The name of an attribute, perhaps with options after semicolons, or a star for every attribute.
-/
namespace DirectoryAccess

/-- The name of an attribute; no name at all where the text was refused. -/
structure AttributeType where
  name : Option String := none
  deriving DecidableEq

namespace AttributeType

def noun : String := "attribute type"

def voidMarker : String := "<invalid_attribute_type>"

/-- A character that may stand inside a name: an ASCII letter or digit, a hyphen or a semicolon. -/
def isNameChar (c : Char) : Bool :=
  c.isAlphanum || c == '-' || c == ';'

/-- The text begins with a character of the given class, ends with a letter or digit, and holds
characters of names only. -/
def isNameFrom (first : Char → Bool) (cs : List Char) : Bool :=
  cs.head?.any first && cs.getLast?.any Char.isAlphanum && cs.all isNameChar

/-- A name of one attribute, or the star. -/
def isName (cs : List Char) : Bool :=
  cs == ['*'] || isNameFrom Char.isAlpha cs

/-- A name of one attribute that begins with a small letter. -/
def isIdentifier (text : String) : Bool :=
  isNameFrom Char.isLower text.toList

/-- The attribute type in a text, blanks at its ends dropped; void where the text is no name. -/
def ofText (text : String) : AttributeType :=
  let name := Text.trim text.toList
  if isName name then ⟨some (String.ofList name)⟩ else ⟨none⟩

def every : AttributeType := ⟨some "*"⟩

def isVoid (a : AttributeType) : Bool :=
  a.name.isNone

def render (a : AttributeType) : String :=
  a.name.getD voidMarker

def validate (a : AttributeType) : Except RuleError Unit :=
  if a.isVoid then .error (.absent noun) else .ok ()

instance : Element AttributeType where
  noun := noun
  render := render
  validate := validate

end AttributeType

namespace Stack

def attributeTypes (layout : Layout := {}) : Stack AttributeType where
  settings := {
    kind := .list
    category := .values (.target .targetAttr)
    minimum := 1
    delimiter := .doubleBar
    padded := layout.paddedStacks }

def pushAttribute (s : Stack AttributeType) (text : String) : Stack AttributeType :=
  s.push (.leaf (.ofText text))

end Stack

end DirectoryAccess
