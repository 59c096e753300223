import DirectoryAccess.Proofs.Rules.Grouping
import DirectoryAccess.Proofs.Stack.Nesting

/-!
# Rules over comparisons with single values

A comparison with a single value holds any text as its value, whether or not the keyword has a use
for it. Rules over such comparisons are written as the trees of their members, in which the same
comparisons stand in the same order.
-/
namespace DirectoryAccess

open Grammar

/-! ### Comparisons with single values -/

/-- What a comparison with a single value says. -/
structure Assertion where
  keyword : Keyword
  operator : Comparison
  value : String

def Condition.assertion? : Condition → Option Assertion
  | ⟨some k, some op, some (.value v), _, _⟩ => some ⟨k, op, v⟩
  | _ => none

def Grammar.ConditionTree.assertion? : ConditionTree → Option Assertion
  | ⟨k, op, [v], _, _, _⟩ => some ⟨k, op, v⟩
  | _ => none

namespace Condition

/-- A comparison with a single value, with or without parentheses and padding. -/
inductive Scalar : Condition → Prop
  | intro (k : Keyword) (op : Comparison) (v : String) (parenthesized padded : Bool) :
    Scalar ⟨some k, some op, some (.value v), parenthesized, padded⟩

theorem scalar_new (k : Keyword) (op : Comparison) (v : String) (layout : Layout) :
    (new k op (.value v) layout).Scalar :=
  .intro k op v k.isTarget layout.paddedRules

theorem Scalar.with_flags {c : Condition} (h : c.Scalar) (parenthesized padded : Bool) :
    Scalar { c with parenthesized, padded } := by
  obtain ⟨k, op, v, _, _⟩ := h
  exact .intro k op v parenthesized padded

/-- The tree of a comparison with a single value says the same, and the comparison is written as the
tree is. -/
theorem Scalar.exists_tree {c : Condition} (h : c.Scalar) (valid : c.validate = .ok ()) :
    ∃ (a : Assertion) (t : ConditionTree), c.assertion? = some a ∧ t.assertion? = some a ∧
      c.tree = .condition t ∧ t.Quotable ∧ c.render = enclosed c.parenthesized c.padded t.text ∧
      t.padded = c.padded := by
  obtain ⟨k, op, v, parenthesized, padded⟩ := h
  obtain ⟨_, _, sound⟩ := validate_eq_ok_iff.mp valid
  obtain ⟨_, unquoted⟩ := Expression.validate_value_eq_ok_iff.mp sound
  refine ⟨⟨k, op, v⟩, .of k op [v] padded, rfl, rfl, rfl, ⟨by simp, by simpa using unquoted⟩, ?_,
    rfl⟩
  show enclosed _ _ _ = enclosed _ _ _
  unfold ConditionTree.text
  rw [ConditionTree.values_of, List.map_singleton, String.intercalate_singleton]
  rfl

end Condition

/-! ### The order of conditions -/

namespace Grammar

theorem Connective.conditions_series (c : Connective) (ts : List RuleTree) :
    (c.series ts).conditions = ts.flatMap RuleTree.conditions := by
  match ts with
  | [] => exact c.conditions_join []
  | [t] => simp [Connective.series]
  | t :: u :: ts => exact c.conditions_join (t :: u :: ts)

theorem RuleTree.conditions_ofDisjuncts (D : Disjuncts RuleTree) :
    (ofDisjuncts D).conditions = D.flatten.flatMap conditions := by
  unfold ofDisjuncts
  rw [Connective.conditions_series, List.flatMap_map, ← List.flatMap_id, List.flatMap_assoc]
  simp only [Connective.conditions_series, id]

end Grammar

namespace Sense

/-- Parentheses leave the conditions as they are. -/
theorem conditions_enclose (p q : Bool) (D : Disjuncts Grammar.RuleTree) :
    (Sense.trees.enclose p q D).flatten.flatMap RuleTree.conditions =
      D.flatten.flatMap RuleTree.conditions := by
  cases p with
  | false => rfl
  | true => simp [enclose, trees, RuleTree.conditions, RuleTree.conditions_ofDisjuncts]

/-- So does a negation in front. -/
theorem conditions_mapFirst (D : Disjuncts Grammar.RuleTree) :
    (D.mapFirst .not).flatten.flatMap RuleTree.conditions =
      D.flatten.flatMap RuleTree.conditions := by
  match D with
  | [] => rfl
  | [] :: D => rfl
  | (t :: c) :: D => simp [Disjuncts.mapFirst, RuleTree.conditions]

theorem conditions_stack (s : Settings) (parts : List (Disjuncts Grammar.RuleTree)) :
    (Sense.trees.stack s parts).flatten.flatMap RuleTree.conditions =
      parts.flatten.flatten.flatMap RuleTree.conditions := by
  unfold stack
  cases s.kind with
  | and => rw [conditions_enclose, Disjuncts.flatten_meetAll]
  | not => exact (conditions_mapFirst _).trans (conditions_enclose _ _ _)
  | list => exact conditions_enclose _ _ _
  | or => exact conditions_enclose _ _ _

end Sense

namespace BindRule

mutual

/-- The conditions of the members of a rule are those of the rule, in the same order. -/
theorem conditions_disjuncts : (x : BindRule) →
    (disjuncts .trees x).flatten.flatMap RuleTree.conditions =
      x.values.flatMap (fun c => c.tree.conditions)
  | .leaf c => by
    rw [disjuncts, Sense.conditions_enclose]
    simp [Sense.trees, Node.values]
  | .stack s es => by
    rw [disjuncts, Sense.conditions_stack, conditions_disjunctsAll es, Node.values]

theorem conditions_disjunctsAll : (xs : List BindRule) →
    (disjunctsAll .trees xs).flatten.flatten.flatMap RuleTree.conditions =
      (Node.valuesOf xs).flatMap (fun c => c.tree.conditions)
  | [] => rfl
  | x :: xs => by
    rw [disjunctsAll, List.flatten_cons, List.flatten_append, List.flatMap_append,
      conditions_disjuncts x, conditions_disjunctsAll xs, Node.valuesOf, List.flatMap_append]

end

/-! ### Rules over comparisons with single values -/

/-- Comparisons with single values, and conjunctions, disjunctions and negations of such rules, with
no more elements than there is room for. -/
inductive Scalar : BindRule → Prop
  | leaf {c : Condition} (h : c.Scalar) : Scalar (.leaf c)
  | stack {kind : StackKind} {parenthesized padded : Bool} {es : List BindRule}
    (boolean : kind ≠ .list)
    (room : ∀ n ∈ (settings kind parenthesized padded).capacity, es.length ≤ n)
    (all : ∀ x ∈ es, Scalar x) : Scalar (.stack (settings kind parenthesized padded) es)

/-- Whatever the values are, a valid rule is written as the tree of its members. -/
theorem Scalar.writes {x : BindRule} (h : x.Scalar) :
    x.validate = .ok () → (disjuncts .trees x).Writes ConditionTree.Quotable x.render := by
  induction h with
  | @leaf c h =>
    intro valid
    obtain ⟨_, t, _, _, tree, quotable, rendered, _⟩ := h.exists_tree valid
    rw [disjuncts]
    show (Sense.trees.enclose _ _ [[c.tree]]).Writes _ c.render
    rw [tree, rendered]
    exact writes_condition quotable c.parenthesized c.padded
  | @stack kind p q es boolean room _ ih =>
    intro valid
    obtain ⟨full, each⟩ := (validate_stack_iff boolean).mp valid
    have single : kind = .not → es.length ≤ 1 := by
      rintro rfl
      exact room 1 rfl
    exact writes_stack boolean full single fun x hx => ih x hx (each x hx)

/-- Every condition in a valid rule says the same as its tree. -/
theorem Scalar.assertions {x : BindRule} (h : x.Scalar) :
    x.validate = .ok () →
      (x.values.flatMap (fun c => c.tree.conditions)).map ConditionTree.assertion? =
        x.values.map Condition.assertion? := by
  induction h with
  | @leaf c h =>
    intro valid
    obtain ⟨a, t, said, same, tree, _⟩ := h.exists_tree valid
    simp [Node.values, tree, RuleTree.conditions, said, same]
  | @stack kind p q es boolean _ _ ih =>
    intro valid
    obtain ⟨_, each⟩ := (validate_stack_iff boolean).mp valid
    rw [Node.values_stack, List.flatMap_assoc, List.map_flatMap, List.map_flatMap]
    exact List.flatMap_congr fun x hx => ih x hx (each x hx)

end BindRule

end DirectoryAccess
