import DirectoryAccess.Condition.Basic

/-!
# Values as operands

A typed value fixes the keyword that it is compared with and the expression that it is written as.
Its conditions are built from these two; where the value is not valid, or where its keyword does not
permit the operator, the condition is void.
-/
namespace DirectoryAccess

/-- The part that a value plays in a condition. -/
structure Operand where
  /-- The keyword, where the value fixes one. -/
  keyword : Option Keyword
  /-- The expression, where the value is valid. -/
  expression : Option Expression
  deriving DecidableEq

namespace Operand

/-- An operand with one value, if that value is there. -/
def single (k : Keyword) (text : Option String) : Operand :=
  { keyword := some k, expression := text.map .value }

def permitted (o : Operand) : List Comparison :=
  match o.keyword with
  | some k => k.permitted
  | none => []

/-- The condition that compares with the value by the operator. -/
def condition (o : Operand) (op : Comparison) (layout : Layout := {}) : Condition :=
  match o.keyword, o.expression with
  | some k, some e => if k.permits op then .new k op e layout else .void
  | _, _ => .void

def conditions (o : Operand) (layout : Layout := {}) : List (Comparison × Condition) :=
  o.permitted.map (fun op => (op, o.condition op layout))

end Operand

/-- A list is compared with the keyword of its values. -/
def Stack.toOperand {α : Type} [Listable α] (s : Stack α) : Operand where
  keyword := s.keyword
  expression := s.validate.toOption.map (fun _ => Listable.toExpression s)

def DistinguishedName.toOperand (d : DistinguishedName) : Operand :=
  .single d.keyword (d.name.map (fun _ => d.render))

def ObjectIdentifier.toOperand (o : ObjectIdentifier) : Operand :=
  .single o.keyword o.dotted

def AttributeType.toOperand (a : AttributeType) : Operand :=
  .single (.target .targetAttr) a.name

def Filter.toOperand (f : Filter) : Operand :=
  .single (.target .targetFilter) f.text

def FilterOperation.toOperand (o : FilterOperation) : Operand :=
  .single FilterOperation.theKeyword (o.validate.toOption.map (fun _ => o.render))

end DirectoryAccess
