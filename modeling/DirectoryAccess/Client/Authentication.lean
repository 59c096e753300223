import DirectoryAccess.Condition.Operand
import DirectoryAccess.ReadError

/-!
# Authentication methods
-/
namespace DirectoryAccess

/-- How a client has authenticated. -/
inductive Authentication where
  | none
  | simple
  | ssl
  | sasl
  | saslExternal
  | saslDigestMd5
  | saslGssapi
  deriving DecidableEq

namespace Authentication

def all : List Authentication :=
  [.none, simple, ssl, sasl, saslExternal, saslDigestMd5, saslGssapi]

def name : Authentication → String
  | .none => "NONE"
  | simple => "SIMPLE"
  | ssl => "SSL"
  | sasl => "SASL"
  | saslExternal => "SASL EXTERNAL"
  | saslDigestMd5 => "SASL DIGEST-MD5"
  | saslGssapi => "SASL GSSAPI"

/-- The method with the given name, blanks around it and the case of its letters aside. A client
that has not authenticated may also be called anonymous. -/
def ofName? (text : String) : Option Authentication :=
  let word := Text.trimmed text
  if Text.sameWord word "anonymous" then some .none else Text.findNamed name all word

def read (text : String) : Except ReadError Authentication :=
  match ofName? text with
  | some method => .ok method
  | .none => .error { cause := .unknown "authentication method" text }

def toOperand (a : Authentication) : Operand :=
  .single (.bind .authMethod) (some a.name)

theorem ofName?_name (a : Authentication) : ofName? a.name = some a := by
  cases a <;> decide

end Authentication

end DirectoryAccess
