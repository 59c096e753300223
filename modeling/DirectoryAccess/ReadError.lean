import DirectoryAccess.Grammar.Fault
import DirectoryAccess.RuleError

/-!
# Why a text is not read

A text is refused where it cannot be read, and where what it says is against the rules.
-/
namespace DirectoryAccess

/-- The cause for which a text is not read. -/
inductive ReadCause where
  /-- The text does not follow the grammar. -/
  | malformed (input : List Char) (fault : Grammar.Fault)
  /-- The text is read, but its value is refused. -/
  | refused (cause : RuleError)
  /-- The word is none of those known for the thing named. -/
  | unknown (what word : String)
  /-- The word does not spell the thing named. -/
  | misspelt (what word : String)
  | notTime (word : String)
  | severalValues (keyword : Keyword)
  | noScheme (word scheme : String)
  | notIdentifier (word : String)
  | emptyText
  deriving DecidableEq

namespace ReadCause

def message : ReadCause → String
  | malformed input fault => fault.report input
  | refused cause => cause.message
  | unknown what word => s!"unknown {what} '{word}'"
  | misspelt what word => s!"invalid {what} '{word}'"
  | notTime word => s!"invalid time of day '{word}': expected HHMM"
  | severalValues k => s!"keyword '{k.name}' takes a single value"
  | noScheme word scheme => s!"distinguished name '{word}' lacks the {scheme} prefix"
  | notIdentifier word => s!"attribute type '{word}' is not an identifier"
  | emptyText => "empty value"

end ReadCause

/-- A cause, with the construct that was to be read where that is known. -/
structure ReadError where
  cause : ReadCause
  construct : Option String := none
  deriving DecidableEq

namespace ReadError

/-- The same error, laid to the given construct unless it already belongs to one. -/
def within (construct : String) (e : ReadError) : ReadError :=
  { e with construct := e.construct.or (some construct) }

def message (e : ReadError) : String :=
  match e.construct with
  | some construct => s!"malformed {construct}: {e.cause.message}"
  | none => s!"parse error: {e.cause.message}"

/-- The error of a text whose value is refused. -/
def ofRuleError (e : RuleError) : ReadError :=
  { cause := .refused e }

end ReadError

/-- Why a text does not give a rule. -/
inductive Refusal where
  | unread (cause : ReadError)
  | unlawful (cause : RuleError)
  deriving DecidableEq

namespace Refusal

def message : Refusal → String
  | unread cause => cause.message
  | unlawful cause => cause.message

end Refusal

end DirectoryAccess
