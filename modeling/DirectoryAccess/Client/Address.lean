import DirectoryAccess.Condition.Operand
import DirectoryAccess.ReadError

/-!
# Network addresses

The addresses from which a client may connect. Stars and mask lengths are allowed; only the
characters of an address are checked, not its arrangement.
-/
namespace DirectoryAccess

/-- A list of addresses, each there once. -/
structure AddressList where
  addresses : List String := []
  deriving DecidableEq

namespace AddressList

def noun : String := "ip address"

def voidMarker : String := "<invalid_ip_address>"

def isHexDigit (c : Char) : Bool :=
  c.isDigit || ('a' ≤ c && c ≤ 'f') || ('A' ≤ c && c ≤ 'F')

def isAddressChar (c : Char) : Bool :=
  isHexDigit c || c == '.' || c == ':' || c == '*' || c == '/'

/-- The address in a text, blanks at its ends dropped. -/
def address? (text : String) : Except RuleError String :=
  let body := Text.trim text.toList
  let refuse reason := Except.error (RuleError.badValue noun text reason)
  if body.isEmpty then refuse "empty value"
  else if !body.all isAddressChar then refuse "unexpected character"
  else if body ≠ ['*'] ∧ '.' ∉ body ∧ ':' ∉ body then refuse "expected an IPv4 or IPv6 address"
  else .ok (String.ofList body)

/-- The list with the address in the text added, or why it is refused. -/
def push? (l : AddressList) (text : String) : Except RuleError AddressList := do
  let address ← address? text
  if l.addresses.any (fun a => Text.sameWord a address) then throw (.duplicateValue address)
  return { l with addresses := l.addresses ++ [address] }

/-- The list with the address added; a refused address leaves it as it was. -/
def push (l : AddressList) (text : String) : AddressList :=
  match l.push? text with
  | .ok m => m
  | .error _ => l

def isVoid (l : AddressList) : Bool :=
  l.addresses.isEmpty

def validate (l : AddressList) : Except RuleError Unit :=
  if l.isVoid then .error (.absent noun) else .ok ()

def render (l : AddressList) : String :=
  if l.isVoid then voidMarker else ",".intercalate l.addresses

def read (text : String) : Except ReadError AddressList :=
  match (Text.split ',' text).foldlM push? {} with
  | .ok l => .ok l
  | .error e => .error (.ofRuleError e)

def toOperand (l : AddressList) : Operand :=
  .single (.bind .ip) (if l.isVoid then none else some l.render)

end AddressList

end DirectoryAccess
