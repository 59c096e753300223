import DirectoryAccess.Text.Blank
import DirectoryAccess.Text.LetterCase

/-!
# Comparison operators

The six operators that a condition may place between its keyword and its expression. Which of them
a keyword permits is said in `Keyword.permitted`.
-/
namespace DirectoryAccess

/-- A comparison operator; the order of the constructors is the order of their ordinals. -/
inductive Comparison where
  | equal
  | unequal
  | less
  | lessOrEqual
  | greater
  | greaterOrEqual
  deriving DecidableEq, Ord

namespace Comparison

def all : List Comparison :=
  [equal, unequal, less, lessOrEqual, greater, greaterOrEqual]

/-- The sign that stands in the text of a rule. -/
def symbol : Comparison → String
  | equal => "="
  | unequal => "!="
  | less => "<"
  | lessOrEqual => "<="
  | greater => ">"
  | greaterOrEqual => ">="

def shortName : Comparison → String
  | equal => "Eq"
  | unequal => "Ne"
  | less => "Lt"
  | lessOrEqual => "Le"
  | greater => "Gt"
  | greaterOrEqual => "Ge"

def longName : Comparison → String
  | equal => "Equal To"
  | unequal => "Not Equal To"
  | less => "Less Than"
  | lessOrEqual => "Less Than Or Equal"
  | greater => "Greater Than"
  | greaterOrEqual => "Greater Than Or Equal"

def ordinal : Comparison → Nat
  | equal => 1
  | unequal => 2
  | less => 3
  | lessOrEqual => 4
  | greater => 5
  | greaterOrEqual => 6

def ofOrdinal? (n : Nat) : Option Comparison :=
  all.find? (fun op => op.ordinal == n)

/-- The operator named by its symbol, its short name or its long name, blanks around it and the
case of its letters aside. -/
def ofName? (text : String) : Option Comparison :=
  let word := Text.trimmed text
  all.find? (fun op =>
    op.symbol == word || Text.sameWord op.shortName word || Text.sameWord op.longName word)

/-- The operator orders its operands; the two others only tell them apart. -/
def isOrdering : Comparison → Bool
  | equal | unequal => false
  | _ => true

theorem mem_all (op : Comparison) : op ∈ all := by
  cases op <;> decide

theorem ofOrdinal?_ordinal (op : Comparison) : ofOrdinal? op.ordinal = some op := by
  cases op <;> decide

end Comparison

end DirectoryAccess
