import DirectoryAccess.Proofs.Instruction.Confinement
import DirectoryAccess.Proofs.Rules.LaidOut
import DirectoryAccess.Proofs.Stack.Orderly

/-!
# Instructions that follow a layout

An instruction that is built with a layout is read with the same layout from what it is written as.
What is read is written the same, unless the layout is one without blanks around bars, and there are
bars somewhere: a list that is read has blanks around its bars, whatever the layout.
-/
namespace DirectoryAccess

open Grammar

namespace Instruction

/-- The target rules and the clauses are filled by pushes, with conditions and rules that follow the
layout. -/
structure LaidOut (layout : Layout) (i : Instruction) : Prop where
  targets : ∃ xs : List (Node Condition), i.targets = (Stack.targetRules layout).pushAll xs ∧
    ∀ c, .leaf c ∈ xs → c.LaidOut layout
  clauses : ∃ xs : List (Node Clause), i.clauses = Stack.clauses.pushAll xs ∧
    ∀ c, .leaf c ∈ xs → BindRule.LaidOut layout c.rule

/-- The target rules, and the conditions in the rules of the clauses. -/
def conditions (i : Instruction) : List Condition :=
  i.targets.leaves ++ i.clauses.leaves.flatMap (fun c => Node.values c.rule)

end Instruction

/-! ### Target rules -/

section Targets

variable {layout : Layout} {cs : List Condition}

theorem exists_spelt_targets (laidOut : ∀ c ∈ cs, c.LaidOut layout)
    (lawful : Stack.Lawful ⟨(Stack.targetRules layout).settings, cs.map .leaf⟩) :
    ∀ c ∈ cs, ∃ t, c.Spelt layout t ∧ t.keyword.isTarget = true ∧ c.render = t.targetText := by
  intro c hc
  have mem : Node.leaf c ∈ cs.map Node.leaf := List.mem_map_of_mem hc
  obtain ⟨t, spelt⟩ := (laidOut c hc).exists_tree (lawful.orderly.valid _ mem)
  have target : t.keyword.isTarget = true := by
    cases keyword : t.keyword with
    | target k => rfl
    | bind k => exact absurd (keyword ▸ spelt.keyword) (lawful.orderly.targets rfl _ mem k)
  refine ⟨t, spelt, target, ?_⟩
  rw [spelt.written, spelt.parentheses, target, ← spelt.padded]
  rfl

/-- Where no bars of target rules are tight, target rules are made of settled trees that are written
the same. -/
theorem exists_targets_of_trees (laidOut : ∀ c ∈ cs, c.LaidOut layout)
    (lawful : Stack.Lawful ⟨(Stack.targetRules layout).settings, cs.map .leaf⟩)
    (spaced : layout.paddedStacks = true ∨ ∀ c ∈ cs, c.hasBars = false) :
    ∃ (ts : List ConditionTree) (ds : List Condition), (∀ t ∈ ts, t.Settled) ∧
      Stack.ofTargetTrees layout ts = .ok ⟨(Stack.targetRules layout).settings, ds.map .leaf⟩ ∧
      ds.map Condition.render = cs.map Condition.render ∧ ∀ d ∈ ds, d.validate = .ok () := by
  have each : ∀ c ∈ cs, ∃ (t : ConditionTree) (d : Condition),
      (t.Settled ∧ t.keyword.isTarget = true) ∧ t.toCondition true = .ok d ∧
        (d.render, d.keyword) = (c.render, c.keyword) := by
    intro c hc
    obtain ⟨t, spelt, target, written⟩ := exists_spelt_targets laidOut lawful c hc
    obtain ⟨settled, makes⟩ := spelt.settled (spaced.imp_right fun none' => none' c hc)
    obtain ⟨d, made⟩ := makes true
    obtain ⟨_, _, _, _, _, rfl⟩ := ConditionTree.toCondition_eq_ok_iff.mp made
    exact ⟨t, _, ⟨settled, target⟩, made,
      Prod.ext ((settled.render made).trans written.symm) spelt.keyword.symm⟩
  obtain ⟨ts, ds, settled, made, same⟩ := exists_made_of_same each
  have renders : ds.map Condition.render = cs.map Condition.render := by
    simpa [Function.comp_def] using congrArg (List.map Prod.fst) same
  have keywords : ds.map Condition.keyword = cs.map Condition.keyword := by
    simpa [Function.comp_def] using congrArg (List.map Prod.snd) same
  have valid : ∀ d ∈ ds, d.validate = .ok () := forall_of_forall₂ made fun t _ d made =>
    (ConditionTree.settled_of_toCondition made).validate
  -- whether a condition is let in depends on the condition alone and on the keywords before it
  have suits : ∀ d ∈ ds, (Stack.targetRules layout).settings.Suits (.leaf d) := by
    refine forall_of_forall₂ made fun t ht d made => ?_
    refine ⟨rfl, (ConditionTree.settled_of_toCondition made).validate, ?_⟩
    obtain ⟨_, _, _, _, _, rfl⟩ := ConditionTree.toCondition_eq_ok_iff.mp made
    refine Settings.checkPlace_eq_ok_iff.mpr fun k hk => ?_
    obtain rfl : t.keyword = k := Option.some.inj hk
    exact if_pos (settled t ht).2
  have lawful' := Settings.admits_of_same_keyword rfl suits keywords lawful
  exact ⟨ts, ds, fun t ht => (settled t ht).1,
    Stack.ofTargetTrees_eq_ok_iff.mpr ⟨ds, made, rfl, lawful'⟩, renders, valid⟩

end Targets

namespace Instruction

variable {layout : Layout} {i : Instruction}

theorem LaidOut.exists_parts (h : i.LaidOut layout) :
    ∃ (cs : List Condition) (ps : List Clause),
      i.targets = ⟨(Stack.targetRules layout).settings, cs.map .leaf⟩ ∧ i.targets.Lawful ∧
      (∀ c ∈ cs, c.LaidOut layout) ∧ i.clauses = ⟨Stack.clauses.settings, ps.map .leaf⟩ ∧
      i.clauses.Lawful ∧ ∀ p ∈ ps, BindRule.LaidOut layout p.rule := by
  obtain ⟨⟨xs, targets, targetsOut⟩, ⟨ys, clauses, clausesOut⟩⟩ := h
  obtain ⟨cs, pushed, lawful, known⟩ :=
    Stack.exists_leaves_of_pushAll (s := (Stack.targetRules layout).settings) rfl xs
  obtain ⟨ps, pushed', lawful', known'⟩ :=
    Stack.exists_leaves_of_pushAll (s := Stack.clauses.settings) rfl ys
  have targets' := targets.trans pushed
  have clauses' := clauses.trans pushed'
  exact ⟨cs, ps, targets', targets' ▸ lawful, fun c hc => targetsOut c (known c hc), clauses',
    clauses' ▸ lawful', fun p hp => clausesOut p (known' p hp)⟩

/-- A valid instruction that follows a layout is written as a tree, in which all of its conditions
are found. -/
theorem LaidOut.exists_quotable_tree (h : i.LaidOut layout) (valid : i.validate = .ok ()) :
    ∃ t : InstructionTree, t.Formed ConditionTree.Quotable ∧ t.text layout = i.render ∧
      ∀ c ∈ i.conditions, ∃ u, c.Spelt layout u ∧
        (t.Formed ConditionTree.Settled → u.Settled) := by
  obtain ⟨cs, ps, targets, lawful, targetsOut, clauses, _, clausesOut⟩ := h.exists_parts
  obtain ⟨name, _, _, clausesValid⟩ := validate_eq_ok_iff.mp valid
  rw [targets] at lawful
  rw [clauses] at clausesValid
  obtain ⟨full, each⟩ := validate_clauses.mp clausesValid
  obtain ⟨ts, trees⟩ := exists_forall₂ (exists_spelt_targets targetsOut lawful)
  have fits : ∀ p ∈ ps, BindRule.Fits p.rule := fun p hp =>
    (Clause.validate_iff_fits.mp (each p hp)).2
  have writes : ∀ p ∈ ps, (BindRule.disjuncts .trees p.rule).Writes ConditionTree.Quotable
      (Node.render p.rule) := fun p hp => (clausesOut p hp).writes_quotable (fits p hp)
  refine ⟨⟨ts, i.name, ps.map Clause.tree⟩, ⟨?_, unquoted_of_checkName name, ?_, ?_⟩, ?_, ?_⟩
  · exact forall_of_forall₂ trees fun _ _ _ spelt => spelt.1.quotable
  · simpa using full
  · exact List.forall_mem_map.mpr fun p hp =>
      Clause.formed_tree_of_writes (writes p hp) (each p hp)
  · have targetTexts : cs.map Condition.render = ts.map ConditionTree.targetText :=
      map_eq_of_forall₂ trees fun _ _ _ spelt => spelt.2.2
    have clauseTexts : (ps.map Clause.tree).map ClauseTree.text = ps.map Clause.render := by
      rw [List.map_map]
      exact List.map_congr_left fun p hp => Clause.text_tree_of_writes (writes p hp) (each p hp)
    rw [render_of_validate valid, targets, clauses, Stack.render_targetRules, Stack.render_clauses,
      targetTexts, ← clauseTexts]
    rfl
  · intro c hc
    unfold conditions at hc
    rw [targets, clauses, Stack.leaves_of_leaves, Stack.leaves_of_leaves] at hc
    rcases List.mem_append.mp hc with hc | hc
    · obtain ⟨u, hu, spelt⟩ := exists_of_forall₂ trees.flip hc
      exact ⟨u, spelt.1, fun settled => settled.targets u hu⟩
    · obtain ⟨p, hp, hc⟩ := List.mem_flatMap.mp hc
      obtain ⟨u, spelt⟩ := (clausesOut p hp).exists_tree (fits p hp) c hc
      refine ⟨u, spelt, fun settled => ?_⟩
      have formed := (settled.clauses p.tree (List.mem_map_of_mem hp)).rule
      exact formed.of_mem_conditions u (BindRule.mem_conditions hc spelt.tree)

theorem LaidOut.exists_settled_tree (h : i.LaidOut layout) (valid : i.validate = .ok ())
    (spaced : layout.paddedStacks = true ∨ ∀ c ∈ i.conditions, c.hasBars = false) :
    ∃ (t : InstructionTree) (j : Instruction), t.Formed ConditionTree.Settled ∧
      t.toInstruction layout = .ok j ∧ j.render = i.render := by
  obtain ⟨cs, ps, targets, lawful, targetsOut, clauses, lawful', clausesOut⟩ := h.exists_parts
  obtain ⟨name, _, _, clausesValid⟩ := validate_eq_ok_iff.mp valid
  rw [targets] at lawful
  rw [clauses] at clausesValid lawful'
  have spaced' : layout.paddedStacks = true ∨ (∀ c ∈ cs, c.hasBars = false) ∧
      ∀ p ∈ ps, ∀ c ∈ Node.values p.rule, c.hasBars = false := by
    refine spaced.imp_right fun none' => ?_
    unfold conditions at none'
    rw [targets, clauses, Stack.leaves_of_leaves, Stack.leaves_of_leaves] at none'
    refine ⟨fun c hc => none' c (List.mem_append_left _ hc), fun p hp c hc => ?_⟩
    exact none' c (List.mem_append_right _ (List.mem_flatMap.mpr ⟨p, hp, hc⟩))
  obtain ⟨_, each⟩ := validate_clauses.mp clausesValid
  obtain ⟨ts, ds, settled, made, renders, valid'⟩ :=
    exists_targets_of_trees targetsOut lawful (spaced'.imp_right And.left)
  obtain ⟨us, s, formed, full, made', renders'⟩ :=
    Stack.exists_clauses_of_trees lawful' clausesValid fun p hp =>
      Clause.exists_tree_of_writes ((clausesOut p hp).writes_settled
        (Clause.validate_iff_fits.mp (each p hp)).2 (spaced'.imp_right fun none' => none'.2 p hp))
        (each p hp) layout
  obtain ⟨_, _, _, _, clausesValid'⟩ := Stack.ofClauseTrees_eq_ok_iff.mp made'
  have targetsValid : Stack.validate
      ⟨(Stack.targetRules layout).settings, ds.map .leaf⟩ = .ok () :=
    (Stack.validate_eq_ok_iff _).mpr ⟨Nat.zero_le _, List.forall_mem_map.mpr valid'⟩
  have whole : Instruction.validate
      ⟨i.name, ⟨(Stack.targetRules layout).settings, ds.map .leaf⟩, s⟩ = .ok () :=
    validate_eq_ok_iff.mpr ⟨name, if_pos rfl, targetsValid, clausesValid'⟩
  refine ⟨⟨ts, i.name, us⟩, ⟨i.name, ⟨(Stack.targetRules layout).settings, ds.map .leaf⟩, s⟩,
    ⟨settled, unquoted_of_checkName name, full, formed⟩,
    InstructionTree.toInstruction_eq_ok_iff.mpr ⟨made, made', rfl, whole⟩, ?_⟩
  rw [render_of_validate whole, render_of_validate valid, targets, clauses, renders',
    Stack.render_targetRules, Stack.render_targetRules, renders]

/-- A valid instruction that is built with a layout is read with this layout from what it is written
as, and written the same again, just when no bars in it are tight. -/
theorem LaidOut.rereads_iff (h : i.LaidOut layout) (valid : i.validate = .ok ()) :
    (∃ j, Instruction.read i.render layout = .ok j ∧ j.render = i.render) ↔
      layout.paddedStacks = true ∨ ∀ c ∈ i.conditions, c.hasBars = false := by
  constructor
  · rintro ⟨j, read, same⟩
    -- a tree whose text is kept is settled, which the tree of a condition with tight bars is not
    obtain ⟨t, quotable, text, conditions⟩ := h.exists_quotable_tree valid
    rw [← text] at read same
    have settled := settled_of_same_text quotable ((read_text_iff quotable).mp read) same
    rw [or_iff_not_imp_left, Bool.not_eq_true]
    intro tight c hc
    obtain ⟨u, spelt, holds⟩ := conditions c hc
    rw [Bool.eq_false_iff]
    intro bars
    exact spelt.lost tight bars (holds settled)
  · intro spaced
    obtain ⟨t, j, settled, made, same⟩ := h.exists_settled_tree valid spaced
    refine ⟨j, ?_, same⟩
    rw [← same, settled.render made]
    exact read_text settled made

/-- The right to read some attributes, unless the connection has a strength of one bit, built with
the layout. -/
def readAttributes (layout : Layout) (names : List String) : Instruction where
  name := "read attributes"
  targets := (Stack.targetRules layout).pushAll [.leaf
    (((Stack.attributeTypes layout).pushAll
      (names.map (fun text => .leaf (.ofText text)))).toOperand.condition .equal layout)]
  clauses := Stack.clauses.pushAll [.leaf ⟨.ofRights .allow [.read],
    (((Stack.bindRules .not layout).setParenthesized true).pushAll
      [.leaf ((Strength.toOperand ⟨1, by decide⟩).condition .equal layout)]).toNode⟩]

theorem laidOut_readAttributes (layout : Layout) (names : List String) :
    (readAttributes layout names).LaidOut layout := by
  refine ⟨⟨_, rfl, ?_⟩, ⟨_, rfl, ?_⟩⟩
  · intro c hc
    obtain rfl : c = _ := by simpa using hc
    refine ⟨_, .equal, .attributes ?_, rfl⟩
    intro a ha
    obtain ⟨text, _, same⟩ := List.mem_map.mp ha
    exact ⟨text, (Node.leaf.inj same).symm⟩
  · intro c hc
    obtain rfl : c = _ := by simpa using hc
    refine .stack (by decide) true ?_
    simpa using BindRule.LaidOut.leaf ⟨_, .equal, .strength ⟨1, by decide⟩, rfl⟩

theorem readAttributes_rereads :
    (∃ j, Instruction.read (readAttributes {} ["cn", "sn"]).render = .ok j ∧
      j.render = (readAttributes {} ["cn", "sn"]).render) ∧
    ∃ j, Instruction.read (readAttributes ⟨false, false⟩ ["cn"]).render ⟨false, false⟩ = .ok j ∧
      j.render = (readAttributes ⟨false, false⟩ ["cn"]).render :=
  ⟨((laidOut_readAttributes {} ["cn", "sn"]).rereads_iff (by decide +kernel)).mpr (.inl rfl),
    ((laidOut_readAttributes ⟨false, false⟩ ["cn"]).rereads_iff (by decide +kernel)).mpr
      (.inr (by decide +kernel))⟩

/-- With tight bars, what is read is written with blanks around them. -/
theorem readAttributes_not_reread :
    (readAttributes ⟨false, false⟩ ["cn", "sn"]).LaidOut ⟨false, false⟩ ∧
      (readAttributes ⟨false, false⟩ ["cn", "sn"]).validate = .ok () ∧
      ¬ ∃ j, Instruction.read (readAttributes ⟨false, false⟩ ["cn", "sn"]).render
          ⟨false, false⟩ = .ok j ∧
        j.render = (readAttributes ⟨false, false⟩ ["cn", "sn"]).render := by
  refine ⟨laidOut_readAttributes _ _, by decide +kernel, ?_⟩
  rintro ⟨j, read, same⟩
  have differs : (Instruction.read (readAttributes ⟨false, false⟩ ["cn", "sn"]).render
      ⟨false, false⟩).toOption.all (fun j =>
        j.render != (readAttributes ⟨false, false⟩ ["cn", "sn"]).render) = true := by
    decide +kernel
  rw [read] at differs
  simp [Except.toOption, same] at differs

end Instruction

end DirectoryAccess
