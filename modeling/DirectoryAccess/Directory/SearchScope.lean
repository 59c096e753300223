import DirectoryAccess.Condition.Operand
import DirectoryAccess.ReadError

/-!
# Search scopes
-/
namespace DirectoryAccess

/-- How far below an entry a rule reaches. -/
inductive SearchScope where
  | base
  | oneLevel
  | subtree
  | subordinate
  deriving DecidableEq

namespace SearchScope

def all : List SearchScope := [base, oneLevel, subtree, subordinate]

def name : SearchScope → String
  | base => "base"
  | oneLevel => "onelevel"
  | subtree => "subtree"
  | subordinate => "subordinate"

/-- The scope with the given name, blanks around it and the case of its letters aside; two scopes
have a short name as well. -/
def ofName? (text : String) : Option SearchScope :=
  let word := Text.trimmed text
  if Text.sameWord word "one" then some oneLevel
  else if Text.sameWord word "sub" then some subtree
  else Text.findNamed name all word

def read (text : String) : Except ReadError SearchScope :=
  match ofName? text with
  | some scope => .ok scope
  | none => .error { cause := .unknown "search scope" text }

def toOperand (s : SearchScope) : Operand :=
  .single (.target .targetScope) (some s.name)

theorem ofName?_name (s : SearchScope) : ofName? s.name = some s := by
  cases s <;> decide

end SearchScope

end DirectoryAccess
