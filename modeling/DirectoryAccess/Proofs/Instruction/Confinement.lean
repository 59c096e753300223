import DirectoryAccess.Proofs.Assembly
import DirectoryAccess.Proofs.Rules.Scalar

/-!
# Values and names stay inside their quotes

Whatever the values in an instruction are, and whatever its name is: if the instruction is valid,
the grammar reads it from its written form with the same comparisons in the same places. A value may
look like any part of an instruction, since only a double quote ends it, and a valid one has none.
-/
namespace DirectoryAccess

open Grammar Reader

/-- An instruction that compares with single values only. Its target rules are in parentheses. -/
structure Instruction.Scalar (i : Instruction) : Prop where
  targets : ∃ (layout : Layout) (cs : List Condition),
    i.targets = ⟨(Stack.targetRules layout).settings, cs.map .leaf⟩ ∧
      ∀ c ∈ cs, c.Scalar ∧ c.parenthesized = true
  clauses : ∃ (padded : Bool) (ps : List Clause),
    i.clauses = ⟨{ Stack.clauses.settings with padded }, ps.map .leaf⟩ ∧
      ∀ p ∈ ps, BindRule.Scalar p.rule

/-- What a clause says: the permission, and the comparisons of its rule from left to right. -/
def Clause.content (c : Clause) : Permission × List (Option Assertion) :=
  (c.permission, (Node.values c.rule).map Condition.assertion?)

def Grammar.ClauseTree.content (t : ClauseTree) : Permission × List (Option Assertion) :=
  (t.permission, t.rule.conditions.map ConditionTree.assertion?)

/-! ### Target rules -/

/-- Valid target rules are written as trees that say the same. -/
theorem exists_target_trees {cs : List Condition}
    (scalar : ∀ c ∈ cs, c.Scalar ∧ c.parenthesized = true)
    (valid : ∀ c ∈ cs, c.validate = .ok ()) :
    ∃ ts : List ConditionTree, (∀ t ∈ ts, t.Quotable) ∧
      ts.map ConditionTree.targetText = cs.map Condition.render ∧
      ts.map ConditionTree.assertion? = cs.map Condition.assertion? := by
  have each : ∀ c ∈ cs, ∃ t : ConditionTree,
      t.Quotable ∧ c.render = t.targetText ∧ c.assertion? = t.assertion? := by
    intro c hc
    obtain ⟨shape, parenthesized⟩ := scalar c hc
    obtain ⟨a, t, said, same, _, quotable, rendered, padded⟩ := shape.exists_tree (valid c hc)
    refine ⟨t, quotable, ?_, said.trans same.symm⟩
    rw [rendered, parenthesized, ← padded]
    rfl
  obtain ⟨ts, trees⟩ := exists_forall₂ each
  refine ⟨ts, forall_of_forall₂ trees fun _ _ _ h => h.1, ?_, ?_⟩
  · exact (map_eq_of_forall₂ trees fun _ _ _ h => h.2.1).symm
  · exact (map_eq_of_forall₂ trees fun _ _ _ h => h.2.2).symm

theorem toList_render_targets {layout : Layout} {cs : List Condition} {ts : List ConditionTree}
    (same : ts.map ConditionTree.targetText = cs.map Condition.render) :
    (Stack.render ⟨(Stack.targetRules layout).settings, cs.map .leaf⟩).toList =
      (targetGap layout).toList.intercalate (ts.map (fun t => t.targetText.toList)) := by
  rw [Stack.render_targetRules, ← same, String.toList_intercalate, List.map_map]
  rfl

/-! ### Clauses -/

namespace Clause

/-- The clause with its rule as its text groups it. -/
def tree (c : Clause) : ClauseTree :=
  ⟨c.permission, .ofDisjuncts (BindRule.disjuncts .trees c.rule)⟩

variable {c : Clause}

theorem formed_tree_of_writes {Q : ConditionTree → Prop}
    (writes : (BindRule.disjuncts .trees c.rule).Writes Q (Node.render c.rule))
    (valid : c.validate = .ok ()) : c.tree.Formed Q :=
  ⟨(validate_eq_ok_iff.mp valid).1, RuleTree.formed_ofDisjuncts writes.full writes.members⟩

theorem text_tree_of_writes {Q : ConditionTree → Prop}
    (writes : (BindRule.disjuncts .trees c.rule).Writes Q (Node.render c.rule))
    (valid : c.validate = .ok ()) : c.tree.text = c.render := by
  rw [render_of_validate valid, tree, ClauseTree.text, RuleTree.text_ofDisjuncts, writes.same]

theorem formed_tree (scalar : BindRule.Scalar c.rule) (valid : c.validate = .ok ()) :
    c.tree.Formed ConditionTree.Quotable :=
  formed_tree_of_writes (scalar.writes (validate_eq_ok_iff.mp valid).2.1) valid

theorem text_tree (scalar : BindRule.Scalar c.rule) (valid : c.validate = .ok ()) :
    c.tree.text = c.render :=
  text_tree_of_writes (scalar.writes (validate_eq_ok_iff.mp valid).2.1) valid

theorem content_tree (scalar : BindRule.Scalar c.rule) (valid : c.validate = .ok ()) :
    c.tree.content = c.content := by
  obtain ⟨_, rule, _⟩ := validate_eq_ok_iff.mp valid
  unfold ClauseTree.content content tree
  rw [RuleTree.conditions_ofDisjuncts, BindRule.conditions_disjuncts, scalar.assertions rule]

end Clause

/-- What stands between clauses, which may be nothing. -/
theorem isGap_written_space (padded : Bool) : IsGap (Delimiter.written padded .space).toList := by
  cases padded <;> decide

theorem toList_render_clauses {padded : Bool} {ps : List Clause} {ts : List ClauseTree}
    (same : ts.map ClauseTree.text = ps.map Clause.render) :
    (Stack.render ⟨{ Stack.clauses.settings with padded }, ps.map .leaf⟩).toList =
      (Delimiter.written padded .space).toList.intercalate (ts.map (fun t => t.text.toList)) := by
  have rendered : Stack.render ⟨{ Stack.clauses.settings with padded }, ps.map .leaf⟩ =
      (Delimiter.written padded .space).intercalate (ps.map Clause.render) :=
    render_whole rfl rfl rfl ps
  rw [rendered, ← same, String.toList_intercalate, List.map_map]
  rfl

/-! ### Instructions -/

/-- A valid instruction over single values is read from its written form with the same name, the
same target rules, and the same clauses, whatever the values and the name are. -/
theorem Instruction.readAll_render_of_scalar {i : Instruction} (scalar : i.Scalar)
    (valid : i.validate = .ok ()) :
    ∃ t : InstructionTree, wholeInstruction.readAll i.render.toList = .ok t ∧ t.name = i.name ∧
      t.targets.map ConditionTree.assertion? = i.targets.leaves.map Condition.assertion? ∧
      t.clauses.map ClauseTree.content = i.clauses.leaves.map Clause.content := by
  obtain ⟨layout, cs, targets, scalarTargets⟩ := scalar.targets
  obtain ⟨padded, ps, clauses, scalarClauses⟩ := scalar.clauses
  obtain ⟨name, _, validTargets, validClauses⟩ := validate_eq_ok_iff.mp valid
  rw [targets] at validTargets
  rw [clauses] at validClauses
  have eachTarget : ∀ c ∈ cs, c.validate = .ok () := by
    intro c hc
    exact ((Stack.validate_eq_ok_iff _).mp validTargets).2 _ (List.mem_map_of_mem hc)
  obtain ⟨full, eachClause⟩ := validate_clauses.mp validClauses
  obtain ⟨ts, quotable, texts, assertions⟩ := exists_target_trees scalarTargets eachTarget
  have formed : ∀ t ∈ ps.map Clause.tree, t.Formed ConditionTree.Quotable :=
    List.forall_mem_map.mpr fun p hp => Clause.formed_tree (scalarClauses p hp) (eachClause p hp)
  have clauseTexts : (ps.map Clause.tree).map ClauseTree.text = ps.map Clause.render := by
    rw [List.map_map]
    exact List.map_congr_left fun p hp => Clause.text_tree (scalarClauses p hp) (eachClause p hp)
  have written : WritesInstruction ⟨ts, i.name, ps.map Clause.tree⟩ i.render.toList := by
    have parts := InstructionTree.writes_parts (t := ⟨ts, i.name, ps.map Clause.tree⟩)
      (writes_targets (isGap_targetGap layout) quotable) (unquoted_of_checkName name)
      (by simpa using full) (writes_clauses (isGap_written_space padded) formed)
    rw [render_of_validate valid, targets, clauses]
    simpa only [String.toList_append, List.append_assoc, toList_render_targets texts,
      toList_render_clauses clauseTexts] using parts
  refine ⟨_, wholeInstruction_readAll_iff.mpr ⟨_, [], by simp, written, isGap_nil⟩, rfl, ?_, ?_⟩
  · rw [targets, Stack.leaves_of_leaves]
    exact assertions
  · rw [clauses, Stack.leaves_of_leaves, List.map_map]
    exact List.map_congr_left fun p hp =>
      Clause.content_tree (scalarClauses p hp) (eachClause p hp)

/-- A target rule, a rule and a name with texts that look like the ends of them and the beginnings
of others. -/
def Instruction.lookalike : Instruction where
  name := "); deny(all) ("
  targets := ⟨(Stack.targetRules {}).settings,
    [{ Condition.new (.target .targetAttr) .equal (.value "cn) (version 3.0; acl") with
      padded := true }].map .leaf⟩
  clauses := ⟨Stack.clauses.settings, [Clause.mk (.ofRights .allow [.read])
    (.stack (BindRule.settings .and true false)
      [.leaf (.new (.bind .userDn) .unequal (.value "a || b AND\nNOT (")),
        .stack (BindRule.settings .not false true)
          [.leaf { Condition.new (.bind .dns) .equal (.value ";)") with
            parenthesized := true }]])].map .leaf⟩

theorem Instruction.readAll_render_of_lookalike :
    ∃ t : InstructionTree, wholeInstruction.readAll lookalike.render.toList = .ok t ∧
      t.name = lookalike.name ∧
      t.targets.map ConditionTree.assertion? = lookalike.targets.leaves.map Condition.assertion? ∧
      t.clauses.map ClauseTree.content = lookalike.clauses.leaves.map Clause.content := by
  have new : ∀ {k op v}, (Condition.new k op (.value v)).Scalar :=
    fun {k op v} => Condition.scalar_new k op v {}
  have scalar : lookalike.Scalar := by
    refine ⟨⟨{}, _, rfl, ?_⟩, ⟨true, _, rfl, ?_⟩⟩
    · intro c hc
      obtain rfl := List.mem_singleton.mp hc
      exact ⟨new.with_flags _ true, rfl⟩
    · intro p hp
      obtain rfl := List.mem_singleton.mp hp
      refine .stack (by decide) (by decide) ?_
      simp only [List.forall_mem_cons]
      refine ⟨.leaf new, ?_, by simp⟩
      refine .stack (by decide) (by decide) ?_
      exact List.forall_mem_singleton.mpr (.leaf (new.with_flags true _))
  exact readAll_render_of_scalar scalar (by decide +kernel)

end DirectoryAccess
