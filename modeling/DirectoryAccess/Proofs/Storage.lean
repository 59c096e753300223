import DirectoryAccess.Proofs.Assembly
import DirectoryAccess.Stored

/-!
# What is stored and restored

A rule is stored when it is valid. It is restored as a rule that is written the same just when some
rule that can be read is written as it is: for permissions this is always so, for conditions it
depends on the reader of the values, which is stricter than the check of a condition.
-/
namespace DirectoryAccess

open Grammar

/-- The rule is stored, and its text is restored as a rule that is written the same. -/
def Restorable {α : Type} [Storable α] (a : α) : Prop :=
  ∃ (s : String) (b : α), store a = .ok s ∧ restore (.text s) = .ok b ∧ Storable.render b = s

theorem restorable_iff_read {α : Type} [Storable α] (a : α)
    (checked : Storable.check a = .ok ()) :
    Restorable a ↔ ∃ b : α, Storable.read (Storable.render a) = .ok b ∧
      Storable.render b = Storable.render a := by
  have stored : store a = .ok (Storable.render a) := bind_eq_ok.mpr ⟨(), checked, rfl⟩
  constructor
  · rintro ⟨s, b, stored', restored, same⟩
    rw [stored] at stored'
    obtain rfl := Except.ok.inj stored'
    exact ⟨b, restored, same⟩
  · rintro ⟨b, read, same⟩
    exact ⟨Storable.render a, b, stored, read, same⟩

theorem Permission.restorable {p : Permission} (valid : p.validate = .ok ()) : Restorable p :=
  (restorable_iff_read p valid).mpr
    ⟨p, mapError_eq_ok.mpr (Permission.read_render valid), rfl⟩

/-! ### Conditions -/

namespace Condition

theorem restorable_iff_settled {c : Condition} (valid : c.validate = .ok ()) :
    Restorable c ↔ ∃ d : Condition, d.Settled ∧ d.render = c.render := by
  rw [restorable_iff_read c valid]
  constructor
  · rintro ⟨d, read, same⟩
    exact ⟨d, settled_of_read (mapError_eq_ok.mp read), same⟩
  · rintro ⟨d, settled, same⟩
    refine ⟨d, mapError_eq_ok.mpr ?_, same⟩
    show Condition.read c.render = .ok d
    rw [← same]
    exact settled.read_render

theorem render_enclosed {k : Keyword} {op : Comparison} {e : Expression} {p q : Bool}
    {vs : List String} (written : e.render = " || ".intercalate (vs.map quoted)) :
    Condition.render ⟨some k, some op, some e, p, q⟩ =
      enclosed p q (ConditionTree.text (.of k op vs q)) := by
  unfold render ConditionTree.text ConditionTree.of
  simp only [Option.map_some, Option.getD_some, written]

theorem enclosed_injective {p q : Bool} {s t : String} (h : enclosed p q s = enclosed p q t) :
    s = t := by
  refine String.toList_injective ?_
  have lists := congrArg String.toList h
  cases p with
  | false => exact lists
  | true => cases q <;> simpa [enclosed] using lists

/-- The expressions of two conditions that differ in nothing else are written the same if the
conditions are. -/
theorem render_inj {k : Keyword} {op : Comparison} {e e' : Expression} {p q : Bool} :
    Condition.render ⟨some k, some op, some e, p, q⟩ =
      Condition.render ⟨some k, some op, some e', p, q⟩ ↔ e.render = e'.render := by
  constructor
  · intro h
    have inner := enclosed_injective h
    refine String.toList_injective ?_
    have lists := congrArg String.toList inner
    simpa using lists
  · intro h
    unfold render
    simp only [Option.map_some, Option.getD_some, h]

/-- Where the right side is written as quoted texts, the reader of the values of the keyword
decides: it has to take the texts, and to keep them as they are written. -/
theorem restorable_iff_reread {k : Keyword} {op : Comparison} {e : Expression} {p q : Bool}
    {vs : List String} (valid : Condition.validate ⟨some k, some op, some e, p, q⟩ = .ok ())
    (full : vs ≠ []) (unquoted : ∀ v ∈ vs, '"' ∉ v.toList)
    (written : e.render = " || ".intercalate (vs.map quoted)) :
    Restorable (⟨some k, some op, some e, p, q⟩ : Condition) ↔
      ∃ e', Expression.read k vs (.ofCount vs.length) = .ok e' ∧ e'.isEmpty = false ∧
        e'.validate = .ok () ∧ e'.render = e.render := by
  have read : ∀ d, Condition.read (Condition.render ⟨some k, some op, some e, p, q⟩) = .ok d ↔
      ConditionTree.toCondition (.of k op vs q) p = .ok d := by
    intro d
    rw [render_enclosed written]
    exact read_enclosed (t := .of k op vs q) (ConditionTree.Quotable.written ⟨full, unquoted⟩)
  rw [restorable_iff_read (⟨some k, some op, some e, p, q⟩ : Condition) valid]
  constructor
  · rintro ⟨d, restored, same⟩
    obtain ⟨e', taken, _, full', valid', rfl⟩ := ConditionTree.toCondition_eq_ok_iff.mp
      ((read d).mp (mapError_eq_ok.mp restored))
    exact ⟨e', taken, full', valid', render_inj.mp same⟩
  · rintro ⟨e', taken, full', valid', same⟩
    obtain ⟨permitted, _, _⟩ := validate_eq_ok_iff.mp valid
    refine ⟨⟨some k, some op, some e', p, q⟩, mapError_eq_ok.mpr ((read _).mpr ?_),
      render_inj.mpr same⟩
    exact ConditionTree.toCondition_eq_ok_iff.mpr ⟨e', taken, permitted, full', valid', rfl⟩

end Condition

/-! ### Instructions -/

theorem Instruction.restorable_iff_assembled {i : Instruction} (valid : i.validate = .ok ()) :
    Restorable i ↔
      ∃ j : Instruction, j.Assembled {} ∧ j.validate = .ok () ∧ j.render = i.render := by
  have check : Storable.check i = i.validate := rfl
  rw [restorable_iff_read i (check.trans valid)]
  constructor
  · rintro ⟨j, read, same⟩
    obtain ⟨t, formed, made⟩ := exists_tree_of_read (mapError_eq_ok.mp read)
    obtain ⟨_, _, _, valid'⟩ := InstructionTree.toInstruction_eq_ok_iff.mp made
    exact ⟨j, assembled_of_tree formed made, valid', same⟩
  · rintro ⟨j, assembled, valid', same⟩
    obtain ⟨t, j', formed, made, _, same'⟩ := assembled.exists_tree valid'
    refine ⟨j', mapError_eq_ok.mpr ?_, same'.trans same⟩
    show Instruction.read i.render = .ok j'
    rw [← same, ← same', formed.render made]
    exact read_text formed made

theorem Stack.exists_instructions {js : List Instruction} (assembled : ∀ j ∈ js, j.Assembled {})
    (lawful : Stack.Lawful ⟨instructions.settings, js.map .leaf⟩) :
    ∃ (ts : List InstructionTree) (r : Stack Instruction),
      (∀ t ∈ ts, t.Formed ConditionTree.Settled) ∧
      ts.foldlM pushInstructionTree instructions = .ok r ∧
      r.render = Stack.render ⟨instructions.settings, js.map .leaf⟩ := by
  have trees : ∀ j ∈ js, ∃ (t : InstructionTree) (i : Instruction), t.Formed ConditionTree.Settled ∧
      t.toInstruction {} = .ok i ∧ i.render = j.render := by
    intro j hj
    have suits := lawful.proper (.leaf j) (List.mem_map.mpr ⟨j, hj, rfl⟩)
    have valid := (Settings.suits_leaf_iff rfl).mp suits
    obtain ⟨t, i, formed, made, _, same⟩ := (assembled j hj).exists_tree valid
    exact ⟨t, i, formed, made, same⟩
  obtain ⟨ts, is, formed, made, same⟩ := exists_made_of_same trees
  have suits : ∀ i ∈ is, instructions.settings.Suits (.leaf i) := by
    refine forall_of_forall₂ made fun t _ i made => (Settings.suits_leaf_iff rfl).mpr ?_
    obtain ⟨_, _, _, valid⟩ := InstructionTree.toInstruction_eq_ok_iff.mp made
    exact valid
  have lawful' : Stack.Lawful ⟨instructions.settings, is.map .leaf⟩ :=
    Settings.admits_of_same_render rfl suits same.symm lawful
  refine ⟨ts, _, formed, foldlM_pushInstructionTree.mpr ⟨is, made, rfl, lawful'⟩, ?_⟩
  rw [render_instructions, render_instructions, same]

theorem Stack.restorable_iff_assembled {s : Stack Instruction} (valid : s.validate = .ok ()) :
    Restorable s ↔
      ∃ js : List Instruction, (∀ j ∈ js, j.Assembled {}) ∧
        Stack.Lawful ⟨instructions.settings, js.map .leaf⟩ ∧
        Stack.render ⟨instructions.settings, js.map .leaf⟩ = s.render := by
  have check : Storable.check s = s.validate := rfl
  rw [restorable_iff_read s (check.trans valid)]
  constructor
  · rintro ⟨r, read, same⟩
    obtain ⟨ts, formed, made⟩ := exists_trees_of_readInstructions (mapError_eq_ok.mp read)
    obtain ⟨js, each, rfl, lawful⟩ := foldlM_pushInstructionTree.mp made
    refine ⟨js, ?_, lawful, same⟩
    exact forall_of_forall₂ each fun t ht j made => Instruction.assembled_of_tree (formed t ht) made
  · rintro ⟨js, assembled, lawful, same⟩
    obtain ⟨ts, r, formed, made, same'⟩ := exists_instructions assembled lawful
    refine ⟨r, mapError_eq_ok.mpr ?_, same'.trans same⟩
    show readInstructions s.render = .ok r
    rw [← same, ← same', render_of_instructionTrees formed made]
    exact readInstructions_text formed made

/-! ### All that can be stored -/

inductive StoredRule where
  | permission (p : Permission)
  | condition (c : Condition)
  | instruction (i : Instruction)
  | instructions (s : Stack Instruction)

namespace StoredRule

def Valid : StoredRule → Prop
  | permission p => p.validate = .ok ()
  | condition c => c.validate = .ok ()
  | instruction i => i.validate = .ok ()
  | instructions s => s.validate = .ok ()

/-- The rule is restored as one that is written the same. -/
def Restored : StoredRule → Prop
  | permission p => Restorable p
  | condition c => Restorable c
  | instruction i => Restorable i
  | instructions s => Restorable s

/-- The rule is written as one whose conditions are settled. A permission has no conditions. -/
def Settled : StoredRule → Prop
  | permission _ => True
  | condition c => ∃ d : Condition, d.Settled ∧ d.render = c.render
  | instruction i =>
    ∃ j : Instruction, j.Assembled {} ∧ j.validate = .ok () ∧ j.render = i.render
  | instructions s =>
    ∃ js : List Instruction, (∀ j ∈ js, j.Assembled {}) ∧
      Stack.Lawful ⟨Stack.instructions.settings, js.map .leaf⟩ ∧
      Stack.render ⟨Stack.instructions.settings, js.map .leaf⟩ = s.render

end StoredRule

/-- A valid rule is restored just when it is written as one with settled conditions. Of a condition
whose right side is quoted texts, the reader of the values of its keyword decides. -/
theorem restorable_iff (r : StoredRule) (valid : r.Valid) :
    (r.Restored ↔ r.Settled) ∧
      ∀ (k : Keyword) (op : Comparison) (e : Expression) (p q : Bool) (vs : List String),
        r = .condition ⟨some k, some op, some e, p, q⟩ → vs ≠ [] →
        (∀ v ∈ vs, '"' ∉ v.toList) → e.render = " || ".intercalate (vs.map quoted) →
        (r.Restored ↔
          ∃ e', Expression.read k vs (.ofCount vs.length) = .ok e' ∧ e'.isEmpty = false ∧
            e'.validate = .ok () ∧ e'.render = e.render) := by
  constructor
  · cases r with
    | permission p => exact iff_of_true (Permission.restorable valid) trivial
    | condition c => exact Condition.restorable_iff_settled valid
    | instruction i => exact Instruction.restorable_iff_assembled valid
    | instructions s => exact Stack.restorable_iff_assembled valid
  · intro k op e p q vs same full unquoted written
    subst same
    exact Condition.restorable_iff_reread valid full unquoted written

/-- A condition, an instruction under a rule of several conditions, and a list with the
instruction. -/
theorem restorable_strength :
    let c : Condition := .new (.bind .ssf) .equal (.value "128")
    let i : Instruction := .readBelow (BindRule.oneAndEither true)
    let s : Stack Instruction := ⟨Stack.instructions.settings, [i].map .leaf⟩
    (c.validate = .ok () ∧ Restorable c) ∧ (i.validate = .ok () ∧ Restorable i) ∧
      s.validate = .ok () ∧ Restorable s := by
  intro c i s
  obtain ⟨composed, fits⟩ := BindRule.composed_oneAndEither true
  obtain ⟨assembled, valid⟩ := Instruction.assembled_readBelow composed fits
  have lawful : s.Lawful := by
    refine (Settings.admits_leaves_of_byText rfl).mpr ⟨nofun, ?_, List.pairwise_singleton _ _⟩
    intro j hj
    obtain rfl := List.mem_singleton.mp hj
    exact (Settings.suits_leaf_iff rfl).mpr valid
  have validC : c.validate = .ok () := by decide
  have validS : s.validate = .ok () := by
    refine (Stack.validate_eq_ok_iff s).mpr ⟨by decide, fun x hx => ?_⟩
    obtain rfl := List.mem_singleton.mp hx
    exact valid
  refine ⟨⟨validC, ?_⟩, ⟨valid, ?_⟩, validS, ?_⟩
  · obtain ⟨_, values⟩ := restorable_iff (.condition c) validC
    have unquoted : ∀ v ∈ ["128"], '"' ∉ v.toList := by simp
    have written : (Expression.value "128").render = " || ".intercalate (["128"].map quoted) := by
      decide
    refine (values _ _ _ _ _ ["128"] rfl (by simp) unquoted written).mpr ?_
    exact ⟨.value "128", by decide +kernel, by decide, by decide, rfl⟩
  · exact (restorable_iff (.instruction i) valid).1.mpr ⟨i, assembled, valid, rfl⟩
  · exact (restorable_iff (.instructions s) validS).1.mpr
      ⟨[i], by simpa using assembled, lawful, rfl⟩

/-- A strength that is no number is valid, since only its quotes are checked. -/
theorem unreadable_strength_not_restorable :
    (Condition.new (.bind .ssf) .equal (.value "many")).validate = .ok () ∧
      ¬ Restorable (Condition.new (.bind .ssf) .equal (.value "many")) := by
  refine ⟨by decide, ?_⟩
  rintro ⟨s, b, stored, restored, _⟩
  have text : store (Condition.new (.bind .ssf) .equal (.value "many")) =
      .ok "ssf = \"many\"" := by
    decide +kernel
  have refused : (restore (.text "ssf = \"many\"") : Except String Condition).toBool = false := by
    decide +kernel
  rw [text] at stored
  obtain rfl := Except.ok.inj stored
  rw [restored] at refused
  cases refused

end DirectoryAccess
