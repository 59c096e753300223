import DirectoryAccess.Proofs.Instruction.Lowering
import DirectoryAccess.Proofs.Rules.Meaning

/-!
# Assembled instructions are read from what they are written as

An instruction can be put together from conditions that were read. The rules in it need not be of
the shape in which rules are read, but what is read from its written form is written the same.
-/
namespace DirectoryAccess

open Grammar

/-- A condition that was read, in parentheses and with either padding. -/
inductive Condition.ReadTarget : Condition → Prop
  | intro {text : String} {c : Condition} {padded : Bool} (read : Condition.read text = .ok c) :
    ReadTarget { c with parenthesized := true, padded }

/-- An instruction that is put together from target rules that were read, and from permissions with
composed rules. The target rules are spaced as the layout says. -/
structure Instruction.Assembled (layout : Layout) (i : Instruction) : Prop where
  targets : ∃ cs : List Condition, i.targets = ⟨(Stack.targetRules layout).settings, cs.map .leaf⟩ ∧
    i.targets.Lawful ∧ ∀ c ∈ cs, c.ReadTarget
  clauses : ∃ cs : List Clause, i.clauses = ⟨Stack.clauses.settings, cs.map .leaf⟩ ∧
    i.clauses.Lawful ∧ ∀ c ∈ cs, BindRule.Composed c.rule

theorem Condition.ReadTarget.exists_tree {c : Condition} (h : c.ReadTarget) :
    ∃ t : ConditionTree, t.Settled ∧ t.toCondition true = .ok c := by
  obtain @⟨text, d, padded, read⟩ := h
  have settled : Condition.Settled { d with parenthesized := true, padded } := by
    obtain ⟨canonical, permitted, full, valid⟩ := Condition.settled_of_read read
    exact .intro canonical permitted full valid
  exact settled.exists_tree

theorem Condition.readTarget_of_settled {c : Condition} (settled : c.Settled)
    (parenthesized : c.parenthesized = true) : c.ReadTarget := by
  have same : { c with parenthesized := true, padded := c.padded } = c := by
    rw [← parenthesized]
  exact same ▸ @ReadTarget.intro c.render c c.padded settled.read_render

/-! ### The parts of an instruction -/

namespace Instruction

theorem validate_eq_ok_iff {i : Instruction} :
    i.validate = .ok () ↔ checkName i.name = .ok () ∧ checkTargets i.targets = .ok () ∧
      i.targets.validate = .ok () ∧ i.clauses.validate = .ok () := by
  constructor
  · intro h
    obtain ⟨_, name, h₁⟩ := bind_eq_ok.mp h
    obtain ⟨_, place, h₂⟩ := bind_eq_ok.mp h₁
    obtain ⟨_, targets, clauses⟩ := bind_eq_ok.mp h₂
    exact ⟨name, place, targets, clauses⟩
  · rintro ⟨name, place, targets, clauses⟩
    refine bind_eq_ok.mpr ⟨(), name, bind_eq_ok.mpr ⟨(), place, ?_⟩⟩
    exact bind_eq_ok.mpr ⟨(), targets, clauses⟩

theorem unquoted_of_checkName {name : String} (h : checkName name = .ok ()) :
    '"' ∉ name.toList := by
  intro mem
  unfold checkName at h
  rw [List.contains_iff_mem.mpr mem] at h
  cases blank : (Text.trimmed name).isEmpty with
  | true =>
    rw [blank] at h
    cases h
  | false =>
    rw [blank] at h
    cases h

end Instruction

theorem validate_clauses {cs : List Clause} :
    Stack.validate ⟨Stack.clauses.settings, cs.map .leaf⟩ = .ok () ↔
      cs ≠ [] ∧ ∀ c ∈ cs, c.validate = .ok () := by
  rw [Stack.validate_eq_ok_iff]
  have size : Stack.size (⟨Stack.clauses.settings, cs.map .leaf⟩ : Stack Clause) = cs.length :=
    List.length_map _
  have minimum : Stack.clauses.settings.minimum = 1 := rfl
  rw [size, minimum, Nat.one_le_iff_ne_zero, Ne, List.length_eq_zero_iff]
  refine and_congr_right fun _ => ?_
  constructor
  · intro h c hc
    exact h _ (List.mem_map.mpr ⟨c, hc, rfl⟩)
  · intro h x hx
    obtain ⟨c, hc, rfl⟩ := List.mem_map.mp hx
    exact h c hc

/-- A valid clause whose rule is written as settled members is written as a settled tree of which a
clause is made. -/
theorem Clause.exists_tree_of_writes {c : Clause}
    (writes : (BindRule.disjuncts .trees c.rule).Writes
      (fun t => t.Settled ∧ RuleTree.Binds t) (Node.render c.rule))
    (valid : c.validate = .ok ()) (layout : Layout) :
    ∃ (t : ClauseTree) (d : Clause), t.Formed ConditionTree.Settled ∧
      t.toClause layout = .ok d ∧ d.render = c.render := by
  obtain ⟨permission, _⟩ := validate_iff_fits.mp valid
  obtain ⟨r, made, fits, formed, text⟩ := BindRule.exists_rule_of_writes writes layout
  have valid' : Clause.validate ⟨c.permission, r⟩ = .ok () :=
    validate_iff_fits.mpr ⟨permission, fits⟩
  refine ⟨⟨c.permission, .ofDisjuncts (BindRule.disjuncts .trees c.rule)⟩, ⟨c.permission, r⟩,
    ⟨permission, formed⟩, ClauseTree.toClause_eq_ok_iff.mpr ⟨r, made, rfl, valid'⟩, ?_⟩
  rw [render_of_validate valid, render_of_validate valid', formed.render r made, text]

theorem Clause.exists_tree {c : Clause} (composed : BindRule.Composed c.rule)
    (valid : c.validate = .ok ()) (layout : Layout) :
    ∃ (t : ClauseTree) (d : Clause), t.Formed ConditionTree.Settled ∧
      t.toClause layout = .ok d ∧ d.render = c.render :=
  exists_tree_of_writes (composed.writes (validate_iff_fits.mp valid).2) valid layout

/-- Where clauses are made of trees, and are written as other clauses are, they can stand beside
each other as those can. -/
theorem Stack.exists_clauses_of_trees {layout : Layout} {cs : List Clause}
    (lawful : Stack.Lawful ⟨Stack.clauses.settings, cs.map .leaf⟩)
    (valid : Stack.validate ⟨Stack.clauses.settings, cs.map .leaf⟩ = .ok ())
    (trees : ∀ c ∈ cs, ∃ (t : ClauseTree) (d : Clause), t.Formed ConditionTree.Settled ∧
      t.toClause layout = .ok d ∧ d.render = c.render) :
    ∃ (ts : List ClauseTree) (s : Stack Clause), (∀ t ∈ ts, t.Formed ConditionTree.Settled) ∧
      ts ≠ [] ∧ Stack.ofClauseTrees layout ts = .ok s ∧
      s.render = Stack.render ⟨Stack.clauses.settings, cs.map .leaf⟩ := by
  obtain ⟨full, each⟩ := validate_clauses.mp valid
  obtain ⟨ts, ds, formed, made, same⟩ := exists_made_of_same trees
  have valid' : ∀ d ∈ ds, d.validate = .ok () := by
    refine forall_of_forall₂ made fun t _ d made => ?_
    obtain ⟨_, _, _, valid⟩ := ClauseTree.toClause_eq_ok_iff.mp made
    exact valid
  have full' : ds ≠ [] := by
    rintro rfl
    exact full (List.map_eq_nil_iff.mp same.symm)
  -- Clauses differ in writing, and the new ones are written as the old ones are.
  have lawful' : Stack.Lawful ⟨Stack.clauses.settings, ds.map .leaf⟩ :=
    Settings.admits_of_same_render rfl
      (fun d hd => (Settings.suits_leaf_iff rfl).mpr (valid' d hd)) same.symm lawful
  refine ⟨ts, ⟨Stack.clauses.settings, ds.map .leaf⟩, formed, ?_,
    Stack.ofClauseTrees_eq_ok_iff.mpr
      ⟨ds, made, rfl, lawful', validate_clauses.mpr ⟨full', valid'⟩⟩, ?_⟩
  · rintro rfl
    cases made
    exact full' rfl
  · rw [Stack.render_clauses, Stack.render_clauses, same]

namespace Instruction.Assembled

variable {layout : Layout} {i : Instruction}

theorem exists_targets (assembled : i.Assembled layout) :
    ∃ ts : List ConditionTree, (∀ t ∈ ts, t.Settled) ∧
      Stack.ofTargetTrees layout ts = .ok i.targets := by
  obtain ⟨cs, same, lawful, read⟩ := assembled.targets
  obtain ⟨ts, trees⟩ := exists_forall₂ fun c hc => (read c hc).exists_tree
  have made := (trees.imp fun _ _ h => h.2).flip
  exact ⟨ts, forall_of_forall₂ trees fun _ _ _ h => h.1,
    Stack.ofTargetTrees_eq_ok_iff.mpr ⟨cs, made, same, lawful⟩⟩

theorem exists_clauses (assembled : i.Assembled layout) (valid : i.clauses.validate = .ok ()) :
    ∃ (ts : List ClauseTree) (s : Stack Clause), (∀ t ∈ ts, t.Formed ConditionTree.Settled) ∧
      ts ≠ [] ∧ Stack.ofClauseTrees layout ts = .ok s ∧ s.render = i.clauses.render := by
  obtain ⟨cs, clauses, lawful, composed⟩ := assembled.clauses
  rw [clauses] at valid lawful ⊢
  obtain ⟨_, each⟩ := validate_clauses.mp valid
  exact Stack.exists_clauses_of_trees lawful valid fun c hc =>
    Clause.exists_tree (composed c hc) (each c hc) layout

/-- An assembled instruction is written as one that is made of a settled tree. -/
theorem exists_tree (assembled : i.Assembled layout) (valid : i.validate = .ok ()) :
    ∃ (t : InstructionTree) (j : Instruction), t.Formed ConditionTree.Settled ∧
      t.toInstruction layout = .ok j ∧ j.name = i.name ∧ j.render = i.render := by
  obtain ⟨name, place, targetsValid, clausesValid⟩ := validate_eq_ok_iff.mp valid
  obtain ⟨ts, settled, targets⟩ := assembled.exists_targets
  obtain ⟨us, s, formed, full, clauses, same⟩ := assembled.exists_clauses clausesValid
  obtain ⟨_, _, _, _, clausesValid'⟩ := Stack.ofClauseTrees_eq_ok_iff.mp clauses
  have whole : Instruction.validate ⟨i.name, i.targets, s⟩ = .ok () :=
    validate_eq_ok_iff.mpr ⟨name, place, targetsValid, clausesValid'⟩
  refine ⟨⟨ts, i.name, us⟩, ⟨i.name, i.targets, s⟩,
    ⟨settled, unquoted_of_checkName name, full, formed⟩,
    InstructionTree.toInstruction_eq_ok_iff.mpr ⟨targets, clauses, rfl, whole⟩, rfl, ?_⟩
  rw [render_of_validate whole, render_of_validate valid, same]

end Instruction.Assembled

theorem Instruction.assembled_of_tree {Q : ConditionTree → Prop} {layout : Layout}
    {t : InstructionTree} {i : Instruction} (formed : t.Formed Q)
    (h : t.toInstruction layout = .ok i) : i.Assembled layout := by
  obtain ⟨targets, clauses, _, _⟩ := InstructionTree.toInstruction_eq_ok_iff.mp h
  obtain ⟨ds, targetTrees, sameTargets, targetsLawful⟩ := Stack.ofTargetTrees_eq_ok_iff.mp targets
  obtain ⟨cs, clauseTrees, sameClauses, clausesLawful, _⟩ :=
    Stack.ofClauseTrees_eq_ok_iff.mp clauses
  refine ⟨⟨ds, sameTargets, targetsLawful, ?_⟩, ⟨cs, sameClauses, clausesLawful, ?_⟩⟩
  · intro d hd
    obtain ⟨t, _, made⟩ := exists_of_forall₂ targetTrees hd
    obtain ⟨_, _, _, _, _, same⟩ := ConditionTree.toCondition_eq_ok_iff.mp made
    refine Condition.readTarget_of_settled (ConditionTree.settled_of_toCondition made) ?_
    rw [same]
  · intro c hc
    obtain ⟨t, ht, made⟩ := exists_of_forall₂ clauseTrees hc
    obtain ⟨r, lowered, rfl, _⟩ := ClauseTree.toClause_eq_ok_iff.mp made
    exact ((formed.clauses t ht).rule.composed r lowered).1

/-! ### Whole instructions -/

/-- A valid instruction that was put together is read from its written form, and what is read has
its name and is written the same. -/
theorem Instruction.assembled_read_render {layout : Layout} {i : Instruction}
    (assembled : i.Assembled layout) (valid : i.validate = .ok ()) :
    ∃ j, Instruction.read i.render layout = .ok j ∧ j.name = i.name ∧ j.render = i.render := by
  obtain ⟨t, j, formed, made, name, same⟩ := assembled.exists_tree valid
  refine ⟨j, ?_, name, same⟩
  rw [← same, formed.render made]
  exact read_text formed made

def Condition.oneLevel : Condition where
  keyword := some (.target .targetScope)
  operator := some .equal
  expression := some (.value "onelevel")
  parenthesized := true

theorem Condition.readTarget_oneLevel : Condition.oneLevel.ReadTarget := by
  have read : Condition.read "targetscope=\"one\"" =
      .ok { Condition.oneLevel with parenthesized := false } := by
    decide +kernel
  exact @ReadTarget.intro _ _ false read

/-- The right to read below an entry, under a rule. -/
def Instruction.readBelow (rule : BindRule) : Instruction where
  name := "read below"
  targets := ⟨(Stack.targetRules {}).settings, [Condition.oneLevel].map .leaf⟩
  clauses := ⟨Stack.clauses.settings, [Clause.mk (.ofRights .allow [.read]) rule].map .leaf⟩

theorem Instruction.assembled_readBelow {rule : BindRule} (composed : rule.Composed)
    (fits : rule.Fits) :
    (readBelow rule).Assembled {} ∧ (readBelow rule).validate = .ok () := by
  have clause : Clause.validate ⟨.ofRights .allow [.read], rule⟩ = .ok () :=
    Clause.validate_iff_fits.mpr ⟨rfl, fits⟩
  have targets : Stack.Lawful
      ⟨(Stack.targetRules {}).settings, [Condition.oneLevel].map .leaf⟩ := by
    refine ⟨?_, ?_, List.pairwise_singleton _ _⟩
    · intro n hn
      obtain rfl := Option.some.inj hn
      decide
    · intro x hx
      obtain rfl := List.mem_singleton.mp hx
      exact ⟨rfl, by decide, by decide⟩
  have clauses : Stack.Lawful
      ⟨Stack.clauses.settings, [Clause.mk (.ofRights .allow [.read]) rule].map .leaf⟩ := by
    refine (Settings.admits_leaves_of_byText rfl).mpr ⟨?_, ?_, List.pairwise_singleton _ _⟩
    · intro n hn
      cases hn
    · intro c hc
      obtain rfl := List.mem_singleton.mp hc
      exact (Settings.suits_leaf_iff rfl).mpr clause
  have name : checkName "read below" = .ok () := by decide
  have targetsValid : Stack.validate
      ⟨(Stack.targetRules {}).settings, [Condition.oneLevel].map .leaf⟩ = .ok () := by
    decide
  have clausesValid : Stack.validate
      ⟨Stack.clauses.settings, [Clause.mk (.ofRights .allow [.read]) rule].map .leaf⟩ = .ok () :=
    validate_clauses.mpr ⟨by simp, by simpa using clause⟩
  exact ⟨⟨⟨[.oneLevel], rfl, targets, by simpa using Condition.readTarget_oneLevel⟩,
    ⟨_, rfl, clauses, by simpa using composed⟩⟩,
    validate_eq_ok_iff.mpr ⟨name, if_pos rfl, targetsValid, clausesValid⟩⟩

/-- The rule of this instruction is not of the shape in which it is read. -/
theorem Instruction.readBelow_read_render :
    (readBelow (BindRule.oneAndEither false)).Assembled {} ∧
      ∃ j, Instruction.read (readBelow (BindRule.oneAndEither false)).render = .ok j ∧
        j.name = "read below" ∧ j.render = (readBelow (BindRule.oneAndEither false)).render := by
  obtain ⟨composed, fits⟩ := BindRule.composed_oneAndEither false
  obtain ⟨assembled, valid⟩ := assembled_readBelow composed fits
  exact ⟨assembled, assembled_read_render assembled valid⟩

end DirectoryAccess
