import DirectoryAccess.Keyword

/-!
# Why a rule is refused

Each constructor is one cause; `RuleError.message` is the only place that words them.
-/
namespace DirectoryAccess

/-- The cause for which a value, a condition or an element of a stack is refused. -/
inductive RuleError where
  | operatorNotPermitted (keyword : Keyword) (operator : Comparison)
  /-- The thing named is absent or void. -/
  | absent (what : String)
  | tooFew (what : String) (minimum found : Nat)
  | duplicateKeyword (keyword : Keyword)
  | duplicateValue (value : String)
  /-- The keyword does not belong in the place named. -/
  | misplacedKeyword (keyword : Keyword) (place : String)
  | full (capacity : Nat)
  /-- A stack may not stand inside the stack named. -/
  | nestingNotAllowed (place : String)
  | noElement (index : Nat)
  /-- The text is no value of the kind named. -/
  | badValue (what value reason : String)
  deriving DecidableEq

namespace RuleError

def message : RuleError → String
  | operatorNotPermitted k op =>
    s!"comparison operator '{op.symbol}' is not permitted for keyword '{k.name}'"
  | absent what => s!"{what} instance is nil or zero"
  | tooFew what minimum found =>
    s!"{what} requires at least {minimum} element(s), found {found}"
  | duplicateKeyword k => s!"keyword '{k.name}' is already present"
  | duplicateValue value => s!"value '{value}' is already present"
  | misplacedKeyword k place => s!"keyword '{k.name}' cannot be used in {place}"
  | full capacity => s!"capacity of {capacity} element(s) exceeded"
  | nestingNotAllowed place => s!"nested stacks are not permitted in {place}"
  | noElement index => s!"index {index} is out of range"
  | badValue what value reason => s!"invalid {what} '{value}': {reason}"

end RuleError

end DirectoryAccess
