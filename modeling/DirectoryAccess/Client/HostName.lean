import DirectoryAccess.Condition.Operand
import DirectoryAccess.ReadError

/-!
# Host names

The name of the host from which a client connects. A star may stand for the first label.
-/
namespace DirectoryAccess

/-- The name of a host; none at all where the text was refused. -/
structure HostName where
  name : Option String := none
  deriving DecidableEq

namespace HostName

def noun : String := "fqdn"

def voidMarker : String := "<invalid_fqdn>"

def maxBytes : Nat := 253

def maxLabelBytes : Nat := 63

/-- A part between dots: ASCII letters, digits and inner hyphens. -/
def isLabel (label : List Char) : Bool :=
  !label.isEmpty && Text.byteLength label ≤ maxLabelBytes &&
    label.head? != some '-' && label.getLast? != some '-' &&
    label.all (fun c => c.isAlphanum || c == '-')

/-- The first part between dots that is no label. A star in front is passed over. -/
def badLabel? (labels : List (List Char)) : Option (List Char) :=
  match labels with
  | ['*'] :: rest => rest.find? (fun l => !isLabel l)
  | _ => labels.find? (fun l => !isLabel l)

/-- The host name in a text, blanks at its ends dropped. -/
def name? (text : String) : Except RuleError String :=
  let body := Text.trim text.toList
  let refuse reason := Except.error (RuleError.badValue noun text reason)
  if body.isEmpty || maxBytes < Text.byteLength body then refuse "length must be 1 through 253"
  else
    match badLabel? (Text.piecesAt '.' body) with
    | some label => refuse s!"invalid label '{String.ofList label}'"
    | none => .ok (String.ofList body)

/-- The host name in a text, void where the text is refused. -/
def ofText (text : String) : HostName :=
  ⟨(name? text).toOption⟩

def read (text : String) : Except ReadError HostName :=
  match name? text with
  | .ok name => .ok ⟨some name⟩
  | .error e => .error (.ofRuleError e)

def isVoid (h : HostName) : Bool :=
  h.name.isNone

def validate (h : HostName) : Except RuleError Unit :=
  if h.isVoid then .error (.absent noun) else .ok ()

def render (h : HostName) : String :=
  h.name.getD voidMarker

def toOperand (h : HostName) : Operand :=
  .single (.bind .dns) h.name

end HostName

end DirectoryAccess
