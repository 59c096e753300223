import DirectoryAccess.Condition.Expression

/-!
# Conditions

A comparison of a keyword with an expression. Conditions with a target keyword are written in
parentheses unless something else is asked for, those with a bind keyword are not.
-/
namespace DirectoryAccess

/-- A comparison. A void condition has none of the three parts. -/
structure Condition where
  keyword : Option Keyword := none
  operator : Option Comparison := none
  expression : Option Expression := none
  parenthesized : Bool := false
  padded : Bool := false
  deriving DecidableEq

namespace Condition

def noun : String := "condition"

def void : Condition := {}

/-- The comparison of the three parts, whether or not it is valid. -/
def new (k : Keyword) (op : Comparison) (e : Expression) (layout : Layout := {}) : Condition where
  keyword := some k
  operator := some op
  expression := some e
  parenthesized := k.isTarget
  padded := layout.paddedRules

/-- The three parts are there, the keyword permits the operator, and the expression is valid. -/
def validate (c : Condition) : Except RuleError Unit :=
  match c.keyword, c.operator with
  | none, _ => .error (.absent "condition keyword")
  | _, none => .error (.absent "condition operator")
  | some k, some op =>
    if !k.permits op then .error (.operatorNotPermitted k op)
    else
      match c.expression with
      | none => .error (.absent "condition expression")
      | some e => if e.isEmpty then .error (.absent "condition expression") else e.validate

/-- The comparison of the three parts, or why it is not valid. -/
def new? (k : Keyword) (op : Comparison) (e : Expression) : Except RuleError Condition := do
  (new k op e).validate
  return new k op e

def setQuoting (q : Quoting) (c : Condition) : Condition :=
  { c with expression := c.expression.map (·.setQuoting q) }

/-- An operator that the keyword does not permit is not taken over. -/
def setOperator (op : Comparison) (c : Condition) : Condition :=
  if c.keyword.any (·.permits op) then { c with operator := some op } else c

def isVoid (c : Condition) : Bool :=
  c.keyword.isNone && c.operator.isNone && c.expression.isNone

/-- The written form; without keyword or operator nothing is written, and an expression that is
missing is written as the empty value. -/
def render (c : Condition) : String :=
  match c.keyword, c.operator with
  | some k, some op =>
    let expression := (c.expression.map Expression.render).getD (quoted "")
    let gap := if c.padded then " " else ""
    enclosed c.parenthesized c.padded (k.name ++ gap ++ op.symbol ++ gap ++ expression)
  | _, _ => ""

instance : Element Condition where
  noun := noun
  render := render
  validate := validate
  keyword := keyword

end Condition

/-- One condition, or a stack of conditions with a truth value. -/
abbrev BindRule := Node Condition

namespace Stack

/-- An empty collection of target rules, which has room for each target keyword once. -/
def targetRules (layout : Layout := {}) : Stack Condition where
  settings := {
    kind := .list
    category := .targetRules
    capacity := some TargetKeyword.all.length
    delimiter := .space
    uniqueness := .byKeyword
    padded := layout.paddedStacks }

/-- An empty stack of bind rules of the given kind. -/
def bindRules (kind : StackKind) (layout : Layout := {}) : Stack Condition where
  settings := { kind, category := .bindRules, padded := layout.paddedStacks }

end Stack

end DirectoryAccess
