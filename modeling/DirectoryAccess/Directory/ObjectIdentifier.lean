import DirectoryAccess.Stack.Operation
import DirectoryAccess.Text.Pieces

/-!
# Object identifiers

Numbers joined by dots, as the value of a keyword that names a control or an extended operation.
-/
namespace DirectoryAccess

/-- An identifier for a keyword; none at all where the text was refused. -/
structure ObjectIdentifier where
  keyword : Keyword
  dotted : Option String
  deriving DecidableEq

namespace ObjectIdentifier

def noun : String := "object identifier"

def voidMarker : String := "<invalid_object_identifier>"

/-- Why an arc is no number in shortest decimal form, if it is none. -/
def arcFault? (arc : List Char) : Option String :=
  if arc.isEmpty || !arc.all Char.isDigit then
    some s!"arc '{String.ofList arc}' is not a number"
  else if 1 < arc.length && arc.head? == some '0' then
    some s!"arc '{String.ofList arc}' has a leading zero"
  else none

/-- The identifier in a text given for the keyword: at least two arcs, each a number without
leading zeros, the first of them below three. -/
def dotted? (k : Keyword) (text : String) : Except RuleError String :=
  let body := Text.trim text.toList
  let arcs := Text.piecesAt '.' body
  let refuse reason := Except.error (RuleError.badValue noun text reason)
  if k.valueKind ≠ .objectIdentifiers then
    .error (.misplacedKeyword k "an object identifier")
  else if arcs.length < 2 then refuse "at least two arcs required"
  else
    match arcs.findSome? arcFault? with
    | some reason => refuse reason
    | none =>
      if [['0'], ['1'], ['2']].any (fun root => arcs.head? == some root) then
        .ok (String.ofList body)
      else refuse "root arc must be 0, 1 or 2"

def ofText? (k : Keyword) (text : String) : Except RuleError ObjectIdentifier := do
  return { keyword := k, dotted := some (← dotted? k text) }

/-- The identifier in a text, void where the text is refused. -/
def ofText (k : Keyword) (text : String) : ObjectIdentifier :=
  { keyword := k, dotted := (dotted? k text).toOption }

def control (text : String) : ObjectIdentifier := ofText (.target .targetControl) text

def extendedOperation (text : String) : ObjectIdentifier := ofText (.target .extOp) text

def isVoid (o : ObjectIdentifier) : Bool :=
  o.dotted.isNone

def render (o : ObjectIdentifier) : String :=
  o.dotted.getD voidMarker

def validate (o : ObjectIdentifier) : Except RuleError Unit :=
  if o.isVoid then .error (.absent noun) else .ok ()

instance : Element ObjectIdentifier where
  noun := noun
  render := render
  validate := validate
  keyword o := some o.keyword

end ObjectIdentifier

namespace Stack

def objectIdentifiers (k : Keyword) (layout : Layout := {}) : Stack ObjectIdentifier where
  settings := {
    kind := .list
    category := .values k
    minimum := 1
    delimiter := .doubleBar
    padded := layout.paddedStacks }

def pushIdentifier (s : Stack ObjectIdentifier) (text : String) : Stack ObjectIdentifier :=
  match s.keyword with
  | some k => s.push (.leaf (.ofText k text))
  | none => s

end Stack

end DirectoryAccess
