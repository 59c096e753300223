import DirectoryAccess.Proofs.Instruction.Trees
import DirectoryAccess.Proofs.Rules.Lowering

/-!
# From trees to instructions

Target rules, clauses and instructions are written as their settled trees are, and are read from
what they are written as.
-/
namespace DirectoryAccess

open Grammar

/-! ### Target rules -/

namespace Stack

theorem ofTargetTrees_eq_ok_iff {layout : Layout} {ts : List ConditionTree} {s : Stack Condition} :
    ofTargetTrees layout ts = .ok s ↔
      ∃ cs, List.Forall₂ (fun t c => ConditionTree.toCondition t true = .ok c) ts cs ∧
        s = ⟨(targetRules layout).settings, cs.map .leaf⟩ ∧ s.Lawful := by
  unfold ofTargetTrees pushTargetTree pushLawful
  exact fill_eq_ok_iff

theorem render_targetRules (layout : Layout) (cs : List Condition) :
    Stack.render ⟨(targetRules layout).settings, cs.map .leaf⟩ =
      (targetGap layout).intercalate (cs.map Condition.render) :=
  render_whole rfl rfl rfl cs

theorem render_of_targetTrees {layout : Layout} {ts : List ConditionTree} {s : Stack Condition}
    (settled : ∀ t ∈ ts, t.Settled) (h : ofTargetTrees layout ts = .ok s) :
    s.render = targetsText layout ts := by
  obtain ⟨cs, each, rfl, _⟩ := ofTargetTrees_eq_ok_iff.mp h
  have same : ts.map ConditionTree.targetText = cs.map Condition.render :=
    map_eq_of_forall₂ each fun t ht c made => ((settled t ht).render made).symm
  rw [render_targetRules, ← same]
  rfl

theorem settled_of_targetTrees {layout : Layout} {ts : List ConditionTree} {s : Stack Condition}
    (h : ofTargetTrees layout ts = .ok s) :
    (∀ t ∈ ts.map ConditionTree.settle, t.Settled) ∧
      ofTargetTrees layout (ts.map ConditionTree.settle) = .ok s := by
  obtain ⟨cs, each, same, lawful⟩ := ofTargetTrees_eq_ok_iff.mp h
  obtain ⟨settled, again⟩ := forall₂_map_of_forall₂ each fun t _ c made =>
    ⟨ConditionTree.settled_settle made, ConditionTree.toCondition_settle made⟩
  exact ⟨settled, ofTargetTrees_eq_ok_iff.mpr ⟨cs, again, same, lawful⟩⟩

theorem readTargetRules_render {text : String} {layout : Layout} {s : Stack Condition}
    (h : readTargetRules text layout = .ok s) : readTargetRules s.render layout = .ok s := by
  obtain ⟨ts, _, made⟩ := bind_eq_ok.mp h
  obtain ⟨settled, again⟩ := settled_of_targetTrees made
  have parsed : wholeTargetRules.readAll s.render.toList = .ok (ts.map ConditionTree.settle) := by
    rw [render_of_targetTrees settled again]
    have quotable : ∀ t ∈ ts.map ConditionTree.settle, t.Quotable :=
      fun t ht => (settled t ht).quotable
    exact wholeTargetRules_readAll_iff.mpr ⟨[], _, rfl, isGap_nil, writes_targetsText quotable⟩
  unfold readTargetRules
  exact bind_eq_ok.mpr ⟨_, mapError_eq_ok.mpr (readText_eq_ok.mpr parsed), again⟩

end Stack

/-! ### Clauses -/

namespace Clause

theorem validate_eq_ok_iff {p : Permission} {r : BindRule} :
    validate ⟨p, r⟩ = .ok () ↔
      p.validate = .ok () ∧ r.validate = .ok () ∧ checkRule r = .ok () := by
  constructor
  · intro h
    obtain ⟨_, permission, h₁⟩ := bind_eq_ok.mp h
    obtain ⟨_, rule, place⟩ := bind_eq_ok.mp h₁
    exact ⟨permission, rule, place⟩
  · rintro ⟨permission, rule, place⟩
    exact bind_eq_ok.mpr ⟨(), permission, bind_eq_ok.mpr ⟨(), rule, place⟩⟩

theorem checkRule_eq_ok_iff {r : BindRule} : checkRule r = .ok () ↔ r.Placed := by
  cases r with
  | leaf c =>
    unfold checkRule BindRule.Placed
    dsimp only
    cases c.keyword with
    | none => simp
    | some k => cases h : k.isTarget <;> simp [k.isBind_eq_not_isTarget, h]
  | stack s es =>
    show (if s.category = .bindRules then .ok () else _ : Except RuleError Unit) = .ok () ↔
      s.category = .bindRules
    by_cases h : s.category = .bindRules <;> simp [h]

/-- A clause asks of its rule what a stack of bind rules asks. -/
theorem validate_iff_fits {p : Permission} {r : BindRule} :
    validate ⟨p, r⟩ = .ok () ↔ p.validate = .ok () ∧ r.Fits := by
  rw [validate_eq_ok_iff, checkRule_eq_ok_iff]
  constructor
  · rintro ⟨permission, valid, place⟩
    exact ⟨permission, valid, place⟩
  · rintro ⟨permission, valid, place⟩
    exact ⟨permission, valid, place⟩

theorem render_of_validate {c : Clause} (h : c.validate = .ok ()) :
    c.render = c.permission.render ++ " " ++ Node.render c.rule ++ ";" := by
  unfold render
  rw [h]

end Clause

namespace Grammar.ClauseTree

/-- The clause with the values of its conditions as they are kept once they are read. -/
def settle (t : ClauseTree) : ClauseTree :=
  { t with rule := t.rule.settle }

theorem toClause_eq_ok_iff {layout : Layout} {t : ClauseTree} {c : Clause} :
    t.toClause layout = .ok c ↔
      ∃ r, t.rule.toBindRule layout = .ok r ∧ c = ⟨t.permission, r⟩ ∧ c.validate = .ok () := by
  unfold toClause Clause.new?
  rw [bind_eq_ok]
  constructor
  · rintro ⟨r, made, h⟩
    obtain ⟨_, valid, same⟩ := bind_eq_ok.mp (mapError_eq_ok.mp h)
    obtain rfl := pure_eq_ok.mp same
    exact ⟨r, made, rfl, valid⟩
  · rintro ⟨r, made, rfl, valid⟩
    exact ⟨r, made, mapError_eq_ok.mpr (bind_eq_ok.mpr ⟨(), valid, rfl⟩)⟩

theorem Formed.render {layout : Layout} {t : ClauseTree} {c : Clause}
    (formed : t.Formed ConditionTree.Settled) (h : t.toClause layout = .ok c) :
    c.render = t.text := by
  obtain ⟨r, made, rfl, valid⟩ := toClause_eq_ok_iff.mp h
  rw [Clause.render_of_validate valid]
  dsimp only
  rw [formed.rule.render r made]
  rfl

theorem Formed.settled {layout : Layout} {Q : ConditionTree → Prop} {t : ClauseTree} {c : Clause}
    (formed : t.Formed Q) (h : t.toClause layout = .ok c) :
    t.settle.Formed ConditionTree.Settled ∧ t.settle.toClause layout = .ok c := by
  obtain ⟨r, made, same, valid⟩ := toClause_eq_ok_iff.mp h
  obtain ⟨rule, again⟩ := formed.rule.settled r made
  exact ⟨⟨formed.permission, rule⟩, toClause_eq_ok_iff.mpr ⟨r, again, same, valid⟩⟩

end Grammar.ClauseTree

namespace Stack

theorem ofClauseTrees_eq_ok_iff {layout : Layout} {ts : List ClauseTree} {s : Stack Clause} :
    ofClauseTrees layout ts = .ok s ↔
      ∃ cs, List.Forall₂ (fun t c => ClauseTree.toClause layout t = .ok c) ts cs ∧
        s = ⟨clauses.settings, cs.map .leaf⟩ ∧ s.Lawful ∧ s.validate = .ok () := by
  have filled : ts.foldlM (pushClauseTree layout) clauses = .ok s ↔
      ∃ cs, List.Forall₂ (fun t c => ClauseTree.toClause layout t = .ok c) ts cs ∧
        s = ⟨clauses.settings, cs.map .leaf⟩ ∧ s.Lawful := fill_eq_ok_iff
  unfold ofClauseTrees
  rw [bind_eq_ok]
  constructor
  · rintro ⟨u, pushed, h⟩
    obtain ⟨_, valid, same⟩ := bind_eq_ok.mp h
    obtain rfl := pure_eq_ok.mp same
    obtain ⟨cs, each, rfl, lawful⟩ := filled.mp pushed
    exact ⟨cs, each, rfl, lawful, mapError_eq_ok.mp valid⟩
  · rintro ⟨cs, each, same, lawful, valid⟩
    exact ⟨s, filled.mpr ⟨cs, each, same, lawful⟩,
      bind_eq_ok.mpr ⟨(), mapError_eq_ok.mpr valid, rfl⟩⟩

theorem render_clauses (cs : List Clause) :
    Stack.render ⟨clauses.settings, cs.map .leaf⟩ = " ".intercalate (cs.map Clause.render) :=
  render_whole rfl rfl rfl cs

theorem render_of_clauseTrees {layout : Layout} {ts : List ClauseTree} {s : Stack Clause}
    (formed : ∀ t ∈ ts, t.Formed ConditionTree.Settled) (h : ofClauseTrees layout ts = .ok s) :
    s.render = clausesText ts := by
  obtain ⟨cs, each, rfl, _, _⟩ := ofClauseTrees_eq_ok_iff.mp h
  have same : ts.map ClauseTree.text = cs.map Clause.render :=
    map_eq_of_forall₂ each fun t ht c made => ((formed t ht).render made).symm
  rw [render_clauses, ← same]
  rfl

theorem settled_of_clauseTrees {layout : Layout} {Q : ConditionTree → Prop} {ts : List ClauseTree}
    {s : Stack Clause} (formed : ∀ t ∈ ts, t.Formed Q) (h : ofClauseTrees layout ts = .ok s) :
    (∀ t ∈ ts.map ClauseTree.settle, t.Formed ConditionTree.Settled) ∧
      ofClauseTrees layout (ts.map ClauseTree.settle) = .ok s := by
  obtain ⟨cs, each, same, lawful, valid⟩ := ofClauseTrees_eq_ok_iff.mp h
  obtain ⟨settled, again⟩ :=
    forall₂_map_of_forall₂ each fun t ht c made => (formed t ht).settled made
  exact ⟨settled, ofClauseTrees_eq_ok_iff.mpr ⟨cs, again, same, lawful, valid⟩⟩

theorem readClauses_render {text : String} {s : Stack Clause} (h : readClauses text = .ok s) :
    readClauses s.render = .ok s := by
  obtain ⟨ts, parsed, made⟩ := bind_eq_ok.mp h
  obtain ⟨_, _, _, full, written, _⟩ :=
    wholeClauses_readAll_iff.mp (readText_eq_ok.mp (mapError_eq_ok.mp parsed))
  obtain ⟨formed, again⟩ := settled_of_clauseTrees (formed_of_repeated_clauses written) made
  have parsed' : wholeClauses.readAll s.render.toList = .ok (ts.map ClauseTree.settle) := by
    rw [render_of_clauseTrees formed again]
    have quotable : ∀ t ∈ ts.map ClauseTree.settle, t.Formed ConditionTree.Quotable :=
      fun t ht => (formed t ht).mono fun _ => ConditionTree.Settled.quotable
    exact wholeClauses_readAll_iff.mpr
      ⟨_, [], by simp, by simpa using full, writes_clausesText quotable, isGap_nil⟩
  unfold readClauses
  exact bind_eq_ok.mpr ⟨_, mapError_eq_ok.mpr (readText_eq_ok.mpr parsed'), again⟩

end Stack

/-! ### Instructions -/

theorem Instruction.render_of_validate {i : Instruction} (h : i.validate = .ok ()) :
    i.render = i.targets.render ++ "(version 3.0; acl " ++ quoted i.name ++ "; " ++
      i.clauses.render ++ ")" := by
  unfold render
  rw [h]

namespace Grammar.InstructionTree

/-- The instruction with the values of its conditions as they are kept once they are read. -/
def settle (t : InstructionTree) : InstructionTree where
  targets := t.targets.map ConditionTree.settle
  name := t.name
  clauses := t.clauses.map ClauseTree.settle

theorem toInstruction_eq_ok_iff {layout : Layout} {t : InstructionTree} {i : Instruction} :
    t.toInstruction layout = .ok i ↔
      Stack.ofTargetTrees layout t.targets = .ok i.targets ∧
        Stack.ofClauseTrees layout t.clauses = .ok i.clauses ∧ i.name = t.name ∧
        i.validate = .ok () := by
  unfold toInstruction
  rw [bind_eq_ok]
  constructor
  · rintro ⟨targets, made, h⟩
    obtain ⟨clauses, made', h₁⟩ := bind_eq_ok.mp h
    obtain ⟨_, valid, same⟩ := bind_eq_ok.mp h₁
    obtain rfl := pure_eq_ok.mp same
    exact ⟨made, made', rfl, mapError_eq_ok.mp valid⟩
  · rintro ⟨made, made', name, valid⟩
    have same : (⟨t.name, i.targets, i.clauses⟩ : Instruction) = i := by rw [← name]
    refine ⟨i.targets, made, bind_eq_ok.mpr ⟨i.clauses, made', bind_eq_ok.mpr ⟨(), ?_, ?_⟩⟩⟩
    · rw [same, mapError_eq_ok]
      exact valid
    · rw [same]
      rfl

theorem Formed.render {layout : Layout} {t : InstructionTree} {i : Instruction}
    (formed : t.Formed ConditionTree.Settled) (h : t.toInstruction layout = .ok i) :
    i.render = t.text layout := by
  obtain ⟨targets, clauses, name, valid⟩ := toInstruction_eq_ok_iff.mp h
  rw [Instruction.render_of_validate valid, Stack.render_of_targetTrees formed.targets targets,
    Stack.render_of_clauseTrees formed.clauses clauses, name]
  rfl

theorem Formed.settled {layout : Layout} {Q : ConditionTree → Prop} {t : InstructionTree}
    {i : Instruction} (formed : t.Formed Q) (h : t.toInstruction layout = .ok i) :
    t.settle.Formed ConditionTree.Settled ∧ t.settle.toInstruction layout = .ok i := by
  obtain ⟨targets, clauses, name, valid⟩ := toInstruction_eq_ok_iff.mp h
  obtain ⟨settledTargets, targets'⟩ := Stack.settled_of_targetTrees targets
  obtain ⟨settledClauses, clauses'⟩ := Stack.settled_of_clauseTrees formed.clauses clauses
  refine ⟨⟨settledTargets, formed.name, ?_, settledClauses⟩,
    toInstruction_eq_ok_iff.mpr ⟨targets', clauses', name, valid⟩⟩
  simpa [settle] using formed.full

end Grammar.InstructionTree

namespace Instruction

/-- What is read from the text of a tree is what is made of the tree. -/
theorem read_text_iff {t : InstructionTree} (quotable : t.Formed ConditionTree.Quotable)
    {layout : Layout} {i : Instruction} :
    Instruction.read (t.text layout) layout = .ok i ↔ t.toInstruction layout = .ok i := by
  have parsed : wholeInstruction.readText (t.text layout).toList = .ok t :=
    readText_eq_ok.mpr (quotable.readAll_text layout)
  unfold Instruction.read
  rw [bind_eq_ok]
  constructor
  · rintro ⟨u, read, made⟩
    have same := mapError_eq_ok.mp read
    rw [parsed] at same
    exact Except.ok.inj same ▸ made
  · intro made
    exact ⟨t, mapError_eq_ok.mpr parsed, made⟩

/-- An instruction that is made of a settled tree is read from the text of the tree. -/
theorem read_text {t : InstructionTree} (formed : t.Formed ConditionTree.Settled)
    {layout : Layout} {i : Instruction} (made : t.toInstruction layout = .ok i) :
    Instruction.read (t.text layout) layout = .ok i :=
  (read_text_iff (formed.mono fun _ => ConditionTree.Settled.quotable)).mpr made

/-- What is read from the text of a tree has that text only if the tree is settled. -/
theorem settled_of_same_text {t : InstructionTree} (quotable : t.Formed ConditionTree.Quotable)
    {layout : Layout} {i : Instruction} (made : t.toInstruction layout = .ok i)
    (same : i.render = t.text layout) : t.Formed ConditionTree.Settled := by
  obtain ⟨settled, again⟩ := quotable.settled made
  rw [settled.render again] at same
  have quotable' := settled.mono fun _ => ConditionTree.Settled.quotable
  exact quotable'.text_injective quotable same ▸ settled

theorem exists_tree_of_read {text : String} {layout : Layout} {i : Instruction}
    (h : Instruction.read text layout = .ok i) :
    ∃ t : InstructionTree, t.Formed (fun _ => True) ∧ t.toInstruction layout = .ok i := by
  obtain ⟨t, parsed, made⟩ := bind_eq_ok.mp h
  obtain ⟨_, _, _, written, _⟩ :=
    wholeInstruction_readAll_iff.mp (readText_eq_ok.mp (mapError_eq_ok.mp parsed))
  exact ⟨t, written.formed, made⟩

theorem read_render {text : String} {layout : Layout} {i : Instruction}
    (h : Instruction.read text layout = .ok i) : Instruction.read i.render layout = .ok i := by
  obtain ⟨t, formed, made⟩ := exists_tree_of_read h
  obtain ⟨settled, again⟩ := formed.settled made
  rw [settled.render again]
  exact read_text settled again

end Instruction

/-! ### Lists of instructions -/

namespace Stack

theorem foldlM_pushInstructionTree {ts : List InstructionTree} {s : Stack Instruction} :
    ts.foldlM pushInstructionTree instructions = .ok s ↔
      ∃ is, List.Forall₂ (fun t i => InstructionTree.toInstruction {} t = .ok i) ts is ∧
        s = ⟨instructions.settings, is.map .leaf⟩ ∧ s.Lawful :=
  fill_eq_ok_iff

theorem render_instructions (is : List Instruction) :
    Stack.render ⟨instructions.settings, is.map .leaf⟩ =
      "\n".intercalate (is.map Instruction.render) :=
  render_whole rfl rfl rfl is

theorem render_of_instructionTrees {ts : List InstructionTree} {s : Stack Instruction}
    (formed : ∀ t ∈ ts, t.Formed ConditionTree.Settled)
    (made : ts.foldlM pushInstructionTree instructions = .ok s) :
    s.render = instructionsText ts := by
  obtain ⟨is, each, rfl, _⟩ := foldlM_pushInstructionTree.mp made
  have same : ts.map (InstructionTree.text {}) = is.map Instruction.render :=
    map_eq_of_forall₂ each fun t ht i made => ((formed t ht).render made).symm
  rw [render_instructions, ← same]
  rfl

/-- Instructions that are made of settled trees are read from the texts of the trees. -/
theorem readInstructions_text {ts : List InstructionTree}
    (formed : ∀ t ∈ ts, t.Formed ConditionTree.Settled) {s : Stack Instruction}
    (made : ts.foldlM pushInstructionTree instructions = .ok s) :
    readInstructions (instructionsText ts) = .ok s := by
  have quotable : ∀ t ∈ ts, t.Formed ConditionTree.Quotable :=
    fun t ht => (formed t ht).mono fun _ => ConditionTree.Settled.quotable
  have parsed : wholeInstructions.readAll (instructionsText ts).toList = .ok ts :=
    wholeInstructions_readAll_iff.mpr ⟨_, [], by simp, writes_instructionsText quotable, isGap_nil⟩
  unfold readInstructions
  exact bind_eq_ok.mpr ⟨ts, mapError_eq_ok.mpr (readText_eq_ok.mpr parsed), made⟩

theorem exists_trees_of_readInstructions {text : String} {s : Stack Instruction}
    (h : readInstructions text = .ok s) :
    ∃ ts : List InstructionTree, (∀ t ∈ ts, t.Formed (fun _ => True)) ∧
      ts.foldlM pushInstructionTree instructions = .ok s := by
  obtain ⟨ts, parsed, made⟩ := bind_eq_ok.mp h
  obtain ⟨_, _, _, written, _⟩ :=
    wholeInstructions_readAll_iff.mp (readText_eq_ok.mp (mapError_eq_ok.mp parsed))
  exact ⟨ts, formed_of_repeated_instructions written, made⟩

theorem readInstructions_render {text : String} {s : Stack Instruction}
    (h : readInstructions text = .ok s) : readInstructions s.render = .ok s := by
  obtain ⟨ts, formed, made⟩ := exists_trees_of_readInstructions h
  obtain ⟨is, each, same, lawful⟩ := foldlM_pushInstructionTree.mp made
  obtain ⟨settled, again⟩ :=
    forall₂_map_of_forall₂ each fun t ht i made => (formed t ht).settled made
  have made' := foldlM_pushInstructionTree.mpr ⟨is, again, same, lawful⟩
  rw [render_of_instructionTrees settled made']
  exact readInstructions_text settled made'

end Stack

end DirectoryAccess
