import DirectoryAccess.Proofs.Condition.LaidOut
import DirectoryAccess.Proofs.Rules.Scalar

/-!
# Bind rules that follow a layout

A rule of conditions that follow a layout, in stacks that follow it too, is written as the trees of
its members.
-/
namespace DirectoryAccess

open Grammar

namespace BindRule

/-- Conditions that follow the layout, and conjunctions, disjunctions and negations that are filled
with such rules by pushes, with parentheses or without. -/
inductive LaidOut (layout : Layout) : BindRule → Prop
  | leaf {c : Condition} (h : c.LaidOut layout) : LaidOut layout (.leaf c)
  | stack {kind : StackKind} (boolean : kind ≠ .list) (parenthesized : Bool) {xs : List BindRule}
    (all : ∀ x ∈ xs, LaidOut layout x) :
    LaidOut layout
      (((Stack.bindRules kind layout).setParenthesized parenthesized).pushAll xs).toNode

variable {layout : Layout} {r : BindRule}

/-- Induction over the rules that have been let in: what a stack refused is not part of it. -/
theorem LaidOut.fits_induction {P : BindRule → Prop}
    (leaf : ∀ c, c.LaidOut layout → Fits (.leaf c) → P (.leaf c))
    (stack : ∀ kind p es, kind ≠ .list → es ≠ [] → (kind = .not → es.length ≤ 1) →
      (∀ x ∈ es, P x) → P (.stack (settings kind p layout.paddedStacks) es))
    (h : r.LaidOut layout) : r.Fits → P r := by
  induction h with
  | leaf h => exact leaf _ h
  | @stack kind boolean p xs _ ih =>
    intro fits
    have keeps := Stack.keeps_pushAll ((Stack.bindRules kind layout).setParenthesized p) xs
    cases made : ((Stack.bindRules kind layout).setParenthesized p).pushAll xs with
    | mk s es =>
      rw [made] at keeps fits
      obtain rfl : s = settings kind p layout.paddedStacks := keeps.settings
      have admitted := keeps.lawful Settings.admits_nil
      obtain ⟨room, fit⟩ := (admits_iff boolean).mp admitted
      have full := ((validate_stack_iff boolean).mp fits.valid).1
      refine stack kind p es boolean full room fun x hx => ?_
      exact ih x ((keeps.known x hx).resolve_left (by simp [Stack.bindRules, Stack.setParenthesized,
        Stack.modifySettings])) (fit x hx)

theorem LaidOut.exists_tree (h : r.LaidOut layout) (fits : r.Fits) :
    ∀ c ∈ r.values, ∃ t, c.Spelt layout t := by
  refine fits_induction (P := fun r => ∀ c ∈ r.values, ∃ t, c.Spelt layout t) ?_ ?_ h fits
  · intro c laidOut fits c' hc
    obtain rfl := List.mem_singleton.mp hc
    exact laidOut.exists_tree fits.valid
  · intro kind p es _ _ _ each c hc
    rw [Node.values_stack] at hc
    obtain ⟨x, hx, hc⟩ := List.mem_flatMap.mp hc
    exact each x hx c hc

/-- Where the trees of the conditions have a property, the rule is written as its members with that
property. -/
theorem LaidOut.writes {Q : ConditionTree → Prop} (h : r.LaidOut layout) (fits : r.Fits)
    (property : ∀ c ∈ r.values, ∀ t, c.Spelt layout t → t.keyword.isBind = true → Q t) :
    (disjuncts .trees r).Writes Q r.render := by
  revert property
  refine fits_induction (P := fun r =>
    (∀ c ∈ r.values, ∀ t, c.Spelt layout t → t.keyword.isBind = true → Q t) →
      (disjuncts .trees r).Writes Q r.render) ?_ ?_ h fits
  · intro c laidOut fits property
    obtain ⟨t, spelt⟩ := laidOut.exists_tree fits.valid
    have binds : t.keyword.isBind = true := fits.place t.keyword spelt.keyword
    rw [disjuncts]
    show (Sense.trees.enclose _ _ [[c.tree]]).Writes _ c.render
    rw [spelt.tree, spelt.written]
    exact writes_condition (property c (by simp [Node.values]) t spelt binds) _ _
  · intro kind p es boolean full room each property
    refine writes_stack boolean full room fun x hx => each x hx fun c hc => property c ?_
    rw [Node.values_stack]
    exact List.mem_flatMap.mpr ⟨x, hx, hc⟩

theorem LaidOut.writes_quotable (h : r.LaidOut layout) (fits : r.Fits) :
    (disjuncts .trees r).Writes ConditionTree.Quotable r.render :=
  h.writes fits fun _ _ _ spelt _ => spelt.quotable

theorem LaidOut.writes_settled (h : r.LaidOut layout) (fits : r.Fits)
    (spaced : layout.paddedStacks = true ∨ ∀ c ∈ r.values, c.hasBars = false) :
    (disjuncts .trees r).Writes (fun t => t.Settled ∧ RuleTree.Binds t) r.render := by
  refine h.writes fits fun c hc t spelt binds => ?_
  obtain ⟨settled, makes⟩ := spelt.settled (spaced.imp_right fun none' => none' c hc)
  obtain ⟨d, made⟩ := makes false
  exact ⟨settled, d, made, binds⟩

theorem mem_conditions {c : Condition} {t : ConditionTree} (hc : c ∈ r.values)
    (tree : c.tree = .condition t) :
    t ∈ (RuleTree.ofDisjuncts (disjuncts .trees r)).conditions := by
  rw [RuleTree.conditions_ofDisjuncts, conditions_disjuncts]
  refine List.mem_flatMap.mpr ⟨c, hc, ?_⟩
  rw [tree]
  exact List.mem_singleton_self t

end BindRule

end DirectoryAccess
