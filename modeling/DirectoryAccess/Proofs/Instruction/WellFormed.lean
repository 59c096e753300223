import DirectoryAccess.Proofs.Instruction.Lowering
import DirectoryAccess.Proofs.Stack.Nesting
import DirectoryAccess.Proofs.Stack.Orderly

/-!
# What is read is well-formed

Whatever text is read as an instruction, the instruction is valid and every part of it stands where
it belongs, at every depth. Some of this the grammar sees to, some of it the making of rules, and
some of it what stacks admit.
-/
namespace DirectoryAccess

open Grammar

namespace BindRule

/-! ### What stands within a rule -/

/-- What stands within a composed rule that fits is such a rule itself. -/
theorem Composed.within {x y : BindRule} (within : y.Within x) :
    x.Composed → x.Fits → y.Composed ∧ y.Fits := by
  induction within with
  | self => exact fun composed fits => ⟨composed, fits⟩
  | @inside s es z mem within ih =>
    intro composed _
    cases composed with
    | stack boolean admitted all =>
      exact ih (all z mem) (((admits_iff boolean).mp admitted).2 z mem)

/-- A stack of several elements, or of one: a negation has always one, and any other stack only
where it stands for parentheses. -/
def Grouped (s : Settings) (count : Nat) : Prop :=
  (s.kind = .not ∧ count = 1) ∨
    ((s.kind = .and ∨ s.kind = .or) ∧ (2 ≤ count ∨ count = 1 ∧ s.parenthesized = true))

/-- Every stack within the rule is such a stack. -/
def GroupedWithin (x : BindRule) : Prop :=
  ∀ s es, (Node.stack s es).Within x → Grouped s es.length

theorem groupedWithin_leaf (c : Condition) : GroupedWithin (.leaf c) :=
  Node.forall_within_leaf

theorem groupedWithin_stack_iff {s : Settings} {es : List BindRule} :
    GroupedWithin (.stack s es) ↔ Grouped s es.length ∧ ∀ x ∈ es, GroupedWithin x :=
  Node.forall_within_stack_iff

theorem Encloses.groupedWithin {padded : Bool} {x r : BindRule} (h : Encloses padded x r)
    (grouped : GroupedWithin x) : GroupedWithin r := by
  cases h with
  | condition => exact groupedWithin_leaf _
  | @stack s es _ word =>
    obtain ⟨own, all⟩ := groupedWithin_stack_iff.mp grouped
    refine groupedWithin_stack_iff.mpr ⟨?_, all⟩
    rcases own with ⟨negation, _⟩ | ⟨kind, count⟩
    · exact absurd negation word
    · rcases count with several | ⟨single, _⟩
      · exact .inr ⟨kind, .inl several⟩
      · exact .inr ⟨kind, .inr ⟨single, rfl⟩⟩
  | wrapped =>
    refine groupedWithin_stack_iff.mpr ⟨.inr ⟨.inl rfl, .inr ⟨rfl, rfl⟩⟩, ?_⟩
    simpa using grouped

theorem groupedWithin_negation {p q : Bool} {x : BindRule} (grouped : GroupedWithin x) :
    GroupedWithin (.stack (settings .not p q) [x]) :=
  groupedWithin_stack_iff.mpr ⟨.inl ⟨rfl, rfl⟩, by simpa using grouped⟩

end BindRule

theorem Grammar.RuleTree.Formed.groupedWithin {Q : ConditionTree → Prop} {layout : Layout}
    {t : RuleTree} (formed : t.Formed Q) :
    ∀ r, t.toBindRule layout = .ok r → BindRule.GroupedWithin r := by
  induction formed using RuleTree.Formed.lowering_induction with
  | condition t _ =>
    intro r made
    obtain ⟨c, _, rfl⟩ := RuleTree.toBindRule_condition.mp made
    exact BindRule.groupedWithin_leaf c
  | group padded t _ ih =>
    intro r made
    obtain ⟨x, inner, grouped⟩ := RuleTree.toBindRule_group.mp made
    exact (BindRule.encloses_of_grouped grouped).groupedWithin (ih x inner)
  | chain c ts several _ _ ih =>
    intro r made
    obtain ⟨xs, each, _, rfl⟩ := RuleTree.toBindRule_join.mp made
    have all := forall_of_forall₂ each fun t ht x hx => ih t ht x hx
    refine BindRule.groupedWithin_stack_iff.mpr ⟨.inr ⟨?_, .inl ?_⟩, all⟩
    · cases c
      · exact .inl rfl
      · exact .inr rfl
    · rw [← each.length_eq]
      exact several
  | negatedGroup padded t _ ih =>
    intro r made
    obtain ⟨x, inner, _, rfl⟩ := RuleTree.toBindRule_negatedGroup.mp made
    exact BindRule.groupedWithin_negation (ih x inner)
  | not t other _ _ ih =>
    intro r made
    obtain ⟨x, inner, _, rfl⟩ := (RuleTree.toBindRule_not other).mp made
    exact BindRule.groupedWithin_negation (ih x inner)

/-! ### Well-formed instructions -/

/-- The condition has a keyword and an operator that the keyword permits. -/
def Condition.Permitted (c : Condition) : Prop :=
  ∃ k op, c.keyword = some k ∧ c.operator = some op ∧ k.permits op = true

/-- The condition is a target rule of the instruction, or stands in one of its bind rules. -/
def Instruction.Mentions (i : Instruction) (c : Condition) : Prop :=
  (∃ x ∈ i.targets.elements, (Node.leaf c).Within x) ∨
    ∃ p : Clause, .leaf p ∈ i.clauses.elements ∧ (Node.leaf c).Within p.rule

structure Instruction.WellFormed (i : Instruction) : Prop where
  valid : i.validate = .ok ()
  /-- Target rules are conditions in parentheses, each about something else. -/
  targets : ∀ x ∈ i.targets.elements, ∃ (c : Condition) (k : TargetKeyword),
    x = .leaf c ∧ c.parenthesized = true ∧ c.keyword = some (.target k)
  distinct : i.targets.elements.Pairwise (fun y x => y.keyword ≠ x.keyword)
  clauses : ∀ x ∈ i.clauses.elements, ∃ p : Clause, x = .leaf p
  /-- The conditions of bind rules are about clients. -/
  clients : ∀ p : Clause, .leaf p ∈ i.clauses.elements →
    ∀ c, (Node.leaf c).Within p.rule → ∃ k : BindKeyword, c.keyword = some (.bind k)
  operators : ∀ c, i.Mentions c → c.Permitted
  grouped : ∀ p : Clause, .leaf p ∈ i.clauses.elements → BindRule.GroupedWithin p.rule
  apart : i.clauses.elements.Pairwise (fun y x => Text.sameWord y.render x.render = false)

theorem Condition.Settled.permitted {c : Condition} (h : c.Settled) : c.Permitted := by
  obtain @⟨k, op, _, _, _, _, permitted, _, _⟩ := h
  exact ⟨k, op, rfl, rfl, permitted⟩

/-! ### The parts of what is read -/

/-- A condition in a rule that fits is about clients, and its operator is permitted. -/
theorem BindRule.Composed.condition_within {x : BindRule} (composed : x.Composed) (fits : x.Fits)
    {c : Condition} (within : (Node.leaf c).Within x) :
    (∃ k : BindKeyword, c.keyword = some (.bind k)) ∧ c.Permitted := by
  obtain ⟨composed', fits'⟩ := composed.within within fits
  have permitted := (BindRule.composed_leaf_iff.mp composed').permitted
  obtain ⟨k, op, keyword, operator, permits⟩ := permitted
  have bind : k.isBind = true := fits'.place k keyword
  cases k with
  | target k => cases bind
  | bind k => exact ⟨⟨k, keyword⟩, _, op, keyword, operator, permits⟩

namespace Stack

variable {layout : Layout}

/-- Target rules are told apart by their keywords, and each of them has one. -/
theorem targets_of_trees {ts : List ConditionTree} {s : Stack Condition}
    (made : ofTargetTrees layout ts = .ok s) :
    (∀ x ∈ s.elements, ∃ (c : Condition) (k : TargetKeyword), x = .leaf c ∧
      c.parenthesized = true ∧ c.keyword = some (.target k) ∧ c.Permitted) ∧
      s.elements.Pairwise (fun y x => y.keyword ≠ x.keyword) := by
  obtain ⟨cs, each, rfl, lawful⟩ := ofTargetTrees_eq_ok_iff.mp made
  have orderly := lawful.orderly
  have settled : ∀ c ∈ cs, c.Settled ∧ c.parenthesized = true := by
    refine forall_of_forall₂ each fun t _ c made => ?_
    refine ⟨ConditionTree.settled_of_toCondition made, ?_⟩
    obtain ⟨_, _, _, _, _, rfl⟩ := ConditionTree.toCondition_eq_ok_iff.mp made
    rfl
  have targets : ∀ x ∈ cs.map Node.leaf, ∃ (c : Condition) (k : TargetKeyword), x = .leaf c ∧
      c.parenthesized = true ∧ c.keyword = some (.target k) ∧ c.Permitted := by
    intro x mem
    obtain ⟨c, hc, rfl⟩ := List.mem_map.mp mem
    obtain ⟨settled, parenthesized⟩ := settled c hc
    obtain ⟨k, op, keyword, operator, permits⟩ := settled.permitted
    cases k with
    | target k => exact ⟨c, k, rfl, parenthesized, keyword, _, op, keyword, operator, permits⟩
    | bind k => exact absurd keyword (orderly.targets rfl (.leaf c) mem k)
  refine ⟨targets, (orderly.keywords rfl).imp_of_mem ?_⟩
  intro y x hy _ apart same
  obtain ⟨c, k, rfl, _, keyword, _⟩ := targets y hy
  exact apart _ keyword (same.symm.trans keyword)

theorem clauses_of_trees {ts : List ClauseTree} {s : Stack Clause}
    (formed : ∀ t ∈ ts, t.Formed (fun _ => True)) (made : ofClauseTrees layout ts = .ok s) :
    (∀ x ∈ s.elements, ∃ p : Clause, x = .leaf p ∧ BindRule.Composed p.rule ∧
      BindRule.Fits p.rule ∧ BindRule.GroupedWithin p.rule) ∧
      s.elements.Pairwise (fun y x => Text.sameWord y.render x.render = false) := by
  obtain ⟨ps, each, rfl, lawful, _⟩ := ofClauseTrees_eq_ok_iff.mp made
  refine ⟨?_, lawful.orderly.texts rfl⟩
  intro x mem
  obtain ⟨p, hp, rfl⟩ := List.mem_map.mp mem
  have rules : ∀ p ∈ ps, BindRule.Composed p.rule ∧ BindRule.Fits p.rule ∧
      BindRule.GroupedWithin p.rule := by
    refine forall_of_forall₂ each fun t ht p made => ?_
    obtain ⟨r, lowered, rfl, valid⟩ := ClauseTree.toClause_eq_ok_iff.mp made
    have rule := (formed t ht).rule
    exact ⟨(rule.composed r lowered).1, (Clause.validate_iff_fits.mp valid).2,
      rule.groupedWithin r lowered⟩
  exact ⟨p, rfl, rules p hp⟩

end Stack

/-- Whatever text is read as an instruction, the instruction is well-formed. -/
theorem Instruction.wellFormed_of_read {text : String} {layout : Layout} {i : Instruction}
    (read : Instruction.read text layout = .ok i) : i.WellFormed := by
  obtain ⟨t, formed, made⟩ := exists_tree_of_read read
  obtain ⟨targets, clauses, _, valid⟩ := InstructionTree.toInstruction_eq_ok_iff.mp made
  obtain ⟨targets, distinct⟩ := Stack.targets_of_trees targets
  obtain ⟨clauses, apart⟩ := Stack.clauses_of_trees formed.clauses clauses
  have rules : ∀ p : Clause, .leaf p ∈ i.clauses.elements → BindRule.Composed p.rule ∧
      BindRule.Fits p.rule ∧ BindRule.GroupedWithin p.rule := by
    intro p mem
    obtain ⟨q, same, rule⟩ := clauses _ mem
    obtain rfl := Node.leaf.inj same
    exact rule
  refine ⟨valid, ?_, distinct, ?_, ?_, ?_, ?_, apart⟩
  · intro x mem
    obtain ⟨c, k, same, parenthesized, keyword, _⟩ := targets x mem
    exact ⟨c, k, same, parenthesized, keyword⟩
  · intro x mem
    obtain ⟨p, same, _⟩ := clauses x mem
    exact ⟨p, same⟩
  · intro p mem c within
    obtain ⟨composed, fits, _⟩ := rules p mem
    exact (composed.condition_within fits within).1
  · rintro c (⟨x, mem, within⟩ | ⟨p, mem, within⟩)
    · obtain ⟨d, _, rfl, _, _, permitted⟩ := targets x mem
      obtain rfl := Node.leaf.inj (Node.within_leaf_iff.mp within)
      exact permitted
    · obtain ⟨composed, fits, _⟩ := rules p mem
      exact (composed.condition_within fits within).2
  · intro p mem
    exact (rules p mem).2.2

/-- Two target rules, a negation of a negation, and parentheses around one condition. -/
def groupedInstruction : String :=
  "(targetattr=\"cn\")(target_to = \"ldap:///o=x\") (version 3.0; acl \"x\"; allow(read) not " ++
    "(not ip=\"10.0.0.1\") and (ssf > \"1\"); deny(all) ((dns=\"a.b\" or dns=\"c.d\"));)"

theorem Instruction.wellFormed_of_read_grouped :
    ∃ i, Instruction.read groupedInstruction = .ok i ∧ i.WellFormed := by
  have accepted : (Instruction.read groupedInstruction).toBool = true := by
    decide +kernel
  cases read : Instruction.read groupedInstruction with
  | error e =>
    rw [read] at accepted
    cases accepted
  | ok i => exact ⟨i, rfl, Instruction.wellFormed_of_read read⟩

end DirectoryAccess
