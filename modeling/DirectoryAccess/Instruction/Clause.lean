import DirectoryAccess.Condition.Basic
import DirectoryAccess.Instruction.Permission

/-!
# Clauses

A clause is a permission together with the bind rule under which it holds.
-/
namespace DirectoryAccess

structure Clause where
  permission : Permission
  rule : BindRule
  deriving DecidableEq

namespace Clause

def noun : String := "permission bind rule"

def voidMarker : String := "<invalid_pbrule>"

/-- The rule is about clients: a single condition does not have a target keyword, and a stack is one
of bind rules. -/
def checkRule : BindRule → Except RuleError Unit
  | .leaf c =>
    match c.keyword with
    | some k => if k.isTarget then .error (.misplacedKeyword k "a bind rule") else .ok ()
    | none => .ok ()
  | .stack s _ =>
    if s.category = .bindRules then .ok ()
    else .error (.nestingNotAllowed s!"a bind rule (found {s.category.name})")

def validate (c : Clause) : Except RuleError Unit := do
  c.permission.validate
  c.rule.validate
  checkRule c.rule

/-- The permission with the rule, or why they are refused. -/
def new? (p : Permission) (rule : BindRule) : Except RuleError Clause := do
  validate ⟨p, rule⟩
  return ⟨p, rule⟩

def render (c : Clause) : String :=
  match c.validate with
  | .ok _ => c.permission.render ++ " " ++ c.rule.render ++ ";"
  | .error _ => voidMarker

instance : Element Clause where
  noun := noun
  render := render
  validate := validate

end Clause

namespace Stack

/-- An empty collection of clauses; no two clauses may be written alike. -/
def clauses : Stack Clause where
  settings := {
    kind := .list
    category := .clauses
    minimum := 1
    delimiter := .space
    uniqueness := .byText }

/-- The collection of the one clause, empty where the clause is refused. -/
def ofClause (c : Clause) : Stack Clause :=
  clauses.push (.leaf c)

end Stack

end DirectoryAccess
