import DirectoryAccess.Instruction.Permission
import DirectoryAccess.Stack.Basic

/-!
# What is written

The trees that the grammar reads. They keep the text of values as it stands, the grouping by
parentheses, and whether rules are padded; whether a value suits its keyword is not asked yet.
-/
namespace DirectoryAccess.Grammar

/-- A comparison as it is written. -/
structure ConditionTree where
  keyword : Keyword
  operator : Comparison
  values : List String
  quoting : Quoting
  /-- There are blanks behind the keyword. -/
  padded : Bool
  /-- A single pair of quotes may hold a whole list; several pairs quote each value. -/
  quoting_eq : quoting = .ofCount values.length
  deriving DecidableEq

/-- The comparison as it is read, with each of its values in a pair of quotes. -/
def ConditionTree.of (keyword : Keyword) (operator : Comparison) (values : List String)
    (padded : Bool) : ConditionTree :=
  { keyword, operator, values, quoting := .ofCount values.length, padded, quoting_eq := rfl }

@[simp]
theorem ConditionTree.values_of (k : Keyword) (op : Comparison) (vs : List String) (padded : Bool) :
    (of k op vs padded).values = vs :=
  rfl

theorem ConditionTree.eq_of (t : ConditionTree) :
    t = .of t.keyword t.operator t.values t.padded := by
  obtain ⟨k, op, vs, q, padded, rfl⟩ := t
  rfl

/-- A bind rule as it is written. -/
inductive RuleTree where
  | condition (tree : ConditionTree)
  /-- Parentheses, and whether there are blanks behind the opening one. -/
  | group (padded : Bool) (inner : RuleTree)
  | and (items : List RuleTree)
  | or (items : List RuleTree)
  | not (inner : RuleTree)

/-- A clause as it is written. -/
structure ClauseTree where
  permission : Permission
  rule : RuleTree

/-- An instruction as it is written. -/
structure InstructionTree where
  targets : List ConditionTree
  name : String
  clauses : List ClauseTree

end DirectoryAccess.Grammar
