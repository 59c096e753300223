import DirectoryAccess.Stack.Operation
import DirectoryAccess.Text.Pieces
import DirectoryAccess.Text.Start

/-!
# Distinguished names

The name of an entry, or one of four aliases, as the value of a keyword that is compared with
names. It is written as a URL; the URL's start may be left out when a name is given as text.

A name that is refused leaves a void value, which is written as a fixed marker and makes every
condition built from it void.
-/
namespace DirectoryAccess

/-- A name for a keyword; no name at all where the text was refused. -/
structure DistinguishedName where
  keyword : Keyword
  name : Option String
  deriving DecidableEq

namespace DistinguishedName

def noun : String := "distinguished name"

/-- The start of the written form. -/
def scheme : String := "ldap:///"

def voidMarker : String := "<invalid_distinguished_name>"

/-- Names that stand for a class of clients. -/
def aliases : List String := ["anyone", "all", "self", "parent"]

/-- The bare name in a text given for the keyword: blanks at the ends are dropped, then at most one
scheme. A name has an equals sign or is an alias, and holds nothing that would end a value. -/
def bareName? (k : Keyword) (text : String) : Except RuleError String :=
  let name := String.ofList (Text.dropStart scheme.toList (Text.trim text.toList))
  let refuse reason := Except.error (RuleError.badValue noun text reason)
  if k.valueKind ≠ .distinguishedNames then
    .error (.misplacedKeyword k "a distinguished name")
  else if name.isEmpty then refuse "empty value"
  else if name.toList.contains '"' || Text.hasDouble '|' name.toList then
    refuse "contains a reserved sequence"
  else if !name.toList.contains '=' && !aliases.any (fun a => Text.sameWord a name) then
    refuse "expected attribute=value components or a well-known alias"
  else .ok name

def ofText? (k : Keyword) (text : String) : Except RuleError DistinguishedName := do
  return { keyword := k, name := some (← bareName? k text) }

/-- The name in a text, void where the text is refused. -/
def ofText (k : Keyword) (text : String) : DistinguishedName :=
  { keyword := k, name := (bareName? k text).toOption }

def target (text : String) : DistinguishedName := ofText (.target .target) text

def targetTo (text : String) : DistinguishedName := ofText (.target .targetTo) text

def targetFrom (text : String) : DistinguishedName := ofText (.target .targetFrom) text

def userDn (text : String) : DistinguishedName := ofText (.bind .userDn) text

def roleDn (text : String) : DistinguishedName := ofText (.bind .roleDn) text

def groupDn (text : String) : DistinguishedName := ofText (.bind .groupDn) text

/-- Every client, anonymous ones included. -/
def anyone : DistinguishedName := userDn "anyone"

/-- Every client that has authenticated. -/
def allUsers : DistinguishedName := userDn "all"

def isVoid (d : DistinguishedName) : Bool :=
  d.name.isNone

def render (d : DistinguishedName) : String :=
  match d.name with
  | some name => scheme ++ name
  | none => voidMarker

def validate (d : DistinguishedName) : Except RuleError Unit :=
  if d.isVoid then .error (.absent noun) else .ok ()

/-- A name is searched for with or without its scheme. -/
def answersTo (d : DistinguishedName) (text : String) : Bool :=
  let bare := String.ofList (Text.dropStart scheme.toList text.toList)
  d.name.any (fun name => Text.sameWord name bare)

instance : Element DistinguishedName where
  noun := noun
  render := render
  validate := validate
  keyword d := some d.keyword
  answersTo := answersTo

end DistinguishedName

namespace Stack

def distinguishedNames (k : Keyword) (layout : Layout := {}) : Stack DistinguishedName where
  settings := {
    kind := .list
    category := .values k
    minimum := 1
    delimiter := .doubleBar
    padded := layout.paddedStacks }

def pushName (s : Stack DistinguishedName) (text : String) : Stack DistinguishedName :=
  match s.keyword with
  | some k => s.push (.leaf (.ofText k text))
  | none => s

end Stack

end DirectoryAccess
