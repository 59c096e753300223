import DirectoryAccess.Condition.Values
import DirectoryAccess.Grammar.Rule

/-!
# Conditions and bind rules in texts

A condition or a bind rule is read in two steps: the grammar gives a tree of what is written, and
the tree is then made into a rule, whose values are checked against their keywords. Parentheses and
padding are kept as they are written.
-/
namespace DirectoryAccess

namespace Grammar.ConditionTree

def toCondition (t : ConditionTree) (parenthesized : Bool) : Except Refusal Condition := do
  let e ← (Expression.read t.keyword t.values t.quoting).mapError .unread
  let c ← (Condition.new? t.keyword t.operator e).mapError .unlawful
  return { c with parenthesized, padded := t.padded }

end Grammar.ConditionTree

def Condition.read (text : String) : Except Refusal Condition := do
  let (tree, parenthesized) ←
    (Grammar.wholeCondition.readText text.toList).mapError
      (fun e => .unread (e.within Condition.noun))
  tree.toCondition parenthesized

namespace Stack

/-- The stack with one more element, as an outcome of making a rule. -/
def pushLawful {α : Type} [Element α] (s : Stack α) (x : Node α) : Except Refusal (Stack α) :=
  (s.push? x).mapError .unlawful

def pushTargetTree (s : Stack Condition) (t : Grammar.ConditionTree) :
    Except Refusal (Stack Condition) := do
  s.pushLawful (.leaf (← t.toCondition true))

def ofTargetTrees (layout : Layout) (trees : List Grammar.ConditionTree) :
    Except Refusal (Stack Condition) :=
  trees.foldlM pushTargetTree (targetRules layout)

def readTargetRules (text : String) (layout : Layout := {}) :
    Except Refusal (Stack Condition) := do
  let trees ← (Grammar.wholeTargetRules.readText text.toList).mapError
    (fun e => .unread (e.within "target rules"))
  ofTargetTrees layout trees

end Stack

namespace BindRule

/-- A rule in parentheses of its own: a conjunction of the rule alone. -/
def wrapped (layout : Layout) (padded : Bool) (x : BindRule) : Except Refusal BindRule := do
  let group := ((Stack.bindRules .and layout).setParenthesized true).setPadded padded
  return (← group.pushLawful x).toNode

/-- A rule with parentheses around it. They become those of the rule itself where it has none yet
and can be written so; one flag stands for the padding of a condition inside its parentheses and
around its operator, and a negation has its parentheses behind its word. -/
def grouped (layout : Layout) (padded : Bool) : BindRule → Except Refusal BindRule
  | .leaf c =>
    if c.parenthesized || c.padded != padded then wrapped layout padded (.leaf c)
    else .ok (.leaf { c with parenthesized := true })
  | .stack s es =>
    if s.parenthesized || s.kind == .not then wrapped layout padded (.stack s es)
    else .ok (.stack { s with parenthesized := true, padded } es)

end BindRule

namespace Grammar.RuleTree

mutual

/-- The bind rule that is written. A negation takes the parentheses around what it negates for its
own. -/
def toBindRule (layout : Layout) : RuleTree → Except Refusal BindRule
  | condition t => do return .leaf (← t.toCondition false)
  | and items => do return (← addAll layout (Stack.bindRules .and layout) items).toNode
  | or items => do return (← addAll layout (Stack.bindRules .or layout) items).toNode
  | not (group padded inner) => do
    let empty := ((Stack.bindRules .not layout).setParenthesized true).setPadded padded
    return (← empty.pushLawful (← inner.toBindRule layout)).toNode
  | not inner => do
    return (← (Stack.bindRules .not layout).pushLawful (← inner.toBindRule layout)).toNode
  | group padded inner => do BindRule.grouped layout padded (← inner.toBindRule layout)

/-- The stack with the rules that are written added one after the other. -/
def addAll (layout : Layout) (s : Stack Condition) :
    List RuleTree → Except Refusal (Stack Condition)
  | [] => .ok s
  | t :: ts => do addAll layout (← s.pushLawful (← t.toBindRule layout)) ts

end

end Grammar.RuleTree

def BindRule.read (text : String) (layout : Layout := {}) : Except Refusal BindRule := do
  let tree ← (Grammar.wholeRule.readText text.toList).mapError
    (fun e => .unread (e.within "bind rule"))
  tree.toBindRule layout

end DirectoryAccess
