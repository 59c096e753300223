import DirectoryAccess.Proofs.Assembly
import DirectoryAccess.Proofs.Stack.Duplicates

/-!
# Instructions in texts that are put together

The texts of target rules and of clauses, which can be read alone, are read as the same in the text
of an instruction. Texts of instructions one after the other are read as all their instructions.
-/
namespace DirectoryAccess

open Grammar

/-! ### Target rules and clauses in an instruction -/

namespace Instruction

theorem checkName_eq_ok {name : String} (visible : ∃ c ∈ name.toList, Text.isBlank c = false)
    (unquoted : '"' ∉ name.toList) : checkName name = .ok () := by
  have full : (Text.trimmed name).isEmpty = false := by
    rw [Bool.eq_false_iff, Ne, String.isEmpty_iff]
    intro empty
    refine Text.trim_ne_nil visible ?_
    rw [← Text.toList_trimmed, empty]
    rfl
  have free : name.toList.contains '"' = false := by
    rw [Bool.eq_false_iff, Ne, List.contains_iff_mem]
    exact unquoted
  unfold checkName
  rw [full, free]
  rfl

end Instruction

theorem Stack.validate_targetRules {layout : Layout} {s : Stack Condition}
    (settings : s.settings = (targetRules layout).settings) (lawful : s.Lawful) :
    s.validate = .ok () := by
  refine (validate_eq_ok_iff s).mpr ⟨?_, fun x hx => (lawful.proper x hx).2.1⟩
  rw [settings]
  exact Nat.zero_le _

/-- Target rules and clauses are read inside an instruction as they are read alone. The name may be
any that an instruction can have. -/
theorem Instruction.read_of_parts {t p name : String} {targets : Stack Condition}
    {clauses : Stack Clause} (readTargets : Stack.readTargetRules t = .ok targets)
    (readClauses : Stack.readClauses p = .ok clauses)
    (visible : ∃ c ∈ name.toList, Text.isBlank c = false) (unquoted : '"' ∉ name.toList) :
    Instruction.read (t ++ "(version 3.0; acl \"" ++ name ++ "\"; " ++ p ++ ")") =
      .ok ⟨name, targets, clauses⟩ := by
  obtain ⟨ts, parsedTargets, madeTargets⟩ := bind_eq_ok.mp readTargets
  obtain ⟨ps, parsedClauses, madeClauses⟩ := bind_eq_ok.mp readClauses
  obtain ⟨g, cs, textTargets, before, writtenTargets⟩ :=
    wholeTargetRules_readAll_iff.mp (readText_eq_ok.mp (mapError_eq_ok.mp parsedTargets))
  obtain ⟨ds, h, textClauses, full, writtenClauses, after⟩ :=
    wholeClauses_readAll_iff.mp (readText_eq_ok.mp (mapError_eq_ok.mp parsedClauses))
  -- The gap behind the clauses stands in front of the parenthesis that closes the instruction.
  have written := InstructionTree.writes_spaced_parts (t := ⟨ts, name, ps⟩) before writtenTargets
    unquoted full writtenClauses after
  have parsed : wholeInstruction.readAll
      (t ++ "(version 3.0; acl \"" ++ name ++ "\"; " ++ p ++ ")").toList = .ok ⟨ts, name, ps⟩ := by
    refine wholeInstruction_readAll_iff.mpr ⟨_, [], ?_, written, isGap_nil⟩
    simp [textTargets, textClauses, quoted]
  have valid : Instruction.validate ⟨name, targets, clauses⟩ = .ok () := by
    obtain ⟨_, _, sameTargets, lawful⟩ := Stack.ofTargetTrees_eq_ok_iff.mp madeTargets
    obtain ⟨_, _, _, _, validClauses⟩ := Stack.ofClauseTrees_eq_ok_iff.mp madeClauses
    have settings : targets.settings = (Stack.targetRules {}).settings := by rw [sameTargets]
    refine validate_eq_ok_iff.mpr ⟨checkName_eq_ok visible unquoted, ?_,
      Stack.validate_targetRules settings lawful, validClauses⟩
    exact if_pos (by rw [settings]; rfl)
  have made : InstructionTree.toInstruction {} ⟨ts, name, ps⟩ = .ok ⟨name, targets, clauses⟩ :=
    InstructionTree.toInstruction_eq_ok_iff.mpr ⟨madeTargets, madeClauses, rfl, valid⟩
  unfold Instruction.read
  exact bind_eq_ok.mpr ⟨_, mapError_eq_ok.mpr (readText_eq_ok.mpr parsed), made⟩

/-- A text of target rules with gaps around them, one of clauses, and a name with a parenthesis. -/
theorem Instruction.read_of_spaced_parts :
    ∃ targets clauses,
      Stack.readTargetRules " (targetattr=\"cn\")\n(extop = \"1.2\") " = .ok targets ∧
      Stack.readClauses " allow (read) (ssf=\"1\" );\n" = .ok clauses ∧
      Instruction.read (" (targetattr=\"cn\")\n(extop = \"1.2\") " ++ "(version 3.0; acl \"" ++
        " a(" ++ "\"; " ++ " allow (read) (ssf=\"1\" );\n" ++ ")") =
        .ok ⟨" a(", targets, clauses⟩ := by
  obtain ⟨targets, readTargets, _⟩ := exists_ok_of_any
    (x := Stack.readTargetRules " (targetattr=\"cn\")\n(extop = \"1.2\") ") (p := fun _ => true)
    (by decide +kernel)
  obtain ⟨clauses, readClauses, _⟩ := exists_ok_of_any
    (x := Stack.readClauses " allow (read) (ssf=\"1\" );\n") (p := fun _ => true)
    (by decide +kernel)
  exact ⟨targets, clauses, readTargets, readClauses,
    read_of_parts readTargets readClauses ⟨'a', by decide, by decide⟩ (by decide)⟩

/-! ### Instructions one after the other -/

theorem Grammar.Reader.Repeated.append {α : Type} {item : α → List Char → Prop} {as bs : List α}
    {cs ds : List Char} (first : Repeated item as cs) (second : Repeated item bs ds) :
    Repeated item (as ++ bs) (cs ++ ds) := by
  induction first with
  | nil => exact second
  | cons head _ ih =>
    rw [List.append_assoc]
    exact .cons head ih

/-- The gap behind the first text belongs to the first instruction of the second one. -/
theorem Grammar.readAll_append_instructions {s t : List Char} {as bs : List InstructionTree}
    (first : wholeInstructions.readAll s = .ok as) (second : wholeInstructions.readAll t = .ok bs) :
    wholeInstructions.readAll (s ++ t) = .ok (as ++ bs) := by
  obtain ⟨cs, g, rfl, writtenFirst, gap⟩ := wholeInstructions_readAll_iff.mp first
  obtain ⟨ds, h, rfl, writtenSecond, last⟩ := wholeInstructions_readAll_iff.mp second
  rw [wholeInstructions_readAll_iff]
  cases writtenSecond with
  | nil => exact ⟨cs, g ++ h, by simp, by simpa using writtenFirst, isGap_append gap last⟩
  | @cons b bs d ds head others =>
    have joined := writtenFirst.append (.cons (head.behind gap) others)
    exact ⟨_, h, by simp, joined, last⟩

/-- The text of an instruction with the name. -/
def Instruction.namedText (name : String) : String :=
  "(version 3.0; acl \"" ++ name ++ "\"; allow(read) ssf=\"1\";)"

namespace Stack

theorem foldlM_pushInstructionTree_eq {ts : List InstructionTree} {is : List Instruction}
    (made : List.Forall₂ (fun t i => InstructionTree.toInstruction {} t = .ok i) ts is)
    (s : Stack Instruction) :
    ts.foldlM pushInstructionTree s = (s.pushAll? (is.map .leaf)).mapError .unlawful := by
  induction made generalizing s with
  | nil => rfl
  | @cons t i ts is first _ ih =>
    have step : pushInstructionTree s t = (s.push? (.leaf i)).mapError .unlawful := by
      unfold pushInstructionTree
      rw [first]
      rfl
    rw [List.foldlM_cons, step, List.map_cons, pushAll?]
    cases s.push? (.leaf i) with
    | error e => rfl
    | ok u => exact ih u

/-- The instructions of two texts one after the other: those of the first and then those of the
second, unless one of the first is written as one of the second, the case of letters aside. -/
theorem readInstructions_append {s t : String} {a b : Stack Instruction}
    (first : readInstructions s = .ok a) (second : readInstructions t = .ok b) :
    ((∀ x ∈ a.elements, ∀ y ∈ b.elements, Text.sameWord x.render y.render = false) →
      readInstructions (s ++ t) = .ok ⟨instructions.settings, a.elements ++ b.elements⟩) ∧
    ((∃ x ∈ a.elements, ∃ y ∈ b.elements, Text.sameWord x.render y.render = true) →
      ∃ y ∈ b.elements, (∃ x ∈ a.elements, Text.sameWord x.render y.render = true) ∧
        readInstructions (s ++ t) = .error (.unlawful (.duplicateValue y.render))) := by
  obtain ⟨ts, parsedFirst, madeFirst⟩ := bind_eq_ok.mp first
  obtain ⟨us, parsedSecond, madeSecond⟩ := bind_eq_ok.mp second
  have parsed : wholeInstructions.readText (s ++ t).toList = .ok (ts ++ us) := by
    rw [readText_eq_ok, String.toList_append]
    exact readAll_append_instructions (readText_eq_ok.mp (mapError_eq_ok.mp parsedFirst))
      (readText_eq_ok.mp (mapError_eq_ok.mp parsedSecond))
  obtain ⟨is, _, sameFirst, lawfulFirst⟩ := foldlM_pushInstructionTree.mp madeFirst
  obtain ⟨js, each, sameSecond, lawfulSecond⟩ := foldlM_pushInstructionTree.mp madeSecond
  have settings : a.settings = instructions.settings := by rw [sameFirst]
  have elements : b.elements = js.map .leaf := by rw [sameSecond]
  have admits : a.settings.Admits b.elements := by
    rw [sameSecond] at lawfulSecond ⊢
    rw [settings]
    exact lawfulSecond
  -- The trees of the first text give its stack, and the others are pushed to that.
  have joined : readInstructions (s ++ t) = (a.pushAll? b.elements).mapError .unlawful := by
    unfold readInstructions
    rw [parsed, elements, ← foldlM_pushInstructionTree_eq each]
    show (ts ++ us).foldlM pushInstructionTree instructions = _
    rw [List.foldlM_append, madeFirst]
    rfl
  have byText : a.settings.uniqueness = .byText := by rw [settings]; rfl
  have capacity : a.settings.capacity = none := by rw [settings]; rfl
  constructor
  · intro apart
    rw [joined, pushAll?_of_apart lawfulFirst byText capacity admits apart, settings]
    rfl
  · intro clash
    obtain ⟨y, hy, there, refused⟩ :=
      pushAll?_of_duplicate lawfulFirst byText capacity admits clash
    refine ⟨y, hy, there, ?_⟩
    rw [joined, refused]
    rfl

open Instruction (namedText) in
/-- The second name differs from the first, the third only in the case of its letter. -/
theorem readInstructions_append_named :
    ∃ a b c, readInstructions (namedText "x") = .ok a ∧ readInstructions (namedText "y") = .ok b ∧
      readInstructions (namedText "X") = .ok c ∧
      readInstructions (namedText "x" ++ namedText "y") =
        .ok ⟨instructions.settings, a.elements ++ b.elements⟩ ∧
      ∃ v, readInstructions (namedText "x" ++ namedText "X") =
        .error (.unlawful (.duplicateValue v)) := by
  have each : ∀ name ∈ ["x", "y", "X"], ∃ s, readInstructions (namedText name) = .ok s ∧
      s.elements.map Node.render = [namedText name] := by
    intro name mem
    have check : (readInstructions (namedText name)).toOption.any
        (fun s => s.elements.map Node.render == [namedText name]) = true := by
      revert name
      decide +kernel
    obtain ⟨s, read, written⟩ := exists_ok_of_any check
    exact ⟨s, read, beq_iff_eq.mp written⟩
  obtain ⟨a, readA, writtenA⟩ := each "x" (by simp)
  obtain ⟨b, readB, writtenB⟩ := each "y" (by simp)
  obtain ⟨c, readC, writtenC⟩ := each "X" (by simp)
  have apart : ∀ x ∈ a.elements, ∀ y ∈ b.elements, Text.sameWord x.render y.render = false := by
    intro x hx y hy
    have textX := List.mem_singleton.mp (writtenA ▸ List.mem_map_of_mem (f := Node.render) hx)
    have textY := List.mem_singleton.mp (writtenB ▸ List.mem_map_of_mem (f := Node.render) hy)
    rw [textX, textY]
    decide
  have clash : ∃ x ∈ a.elements, ∃ y ∈ c.elements, Text.sameWord x.render y.render = true := by
    obtain ⟨x, hx, textX⟩ := List.mem_map.mp (writtenA ▸ List.mem_singleton_self (namedText "x"))
    obtain ⟨y, hy, textY⟩ := List.mem_map.mp (writtenC ▸ List.mem_singleton_self (namedText "X"))
    refine ⟨x, hx, y, hy, ?_⟩
    rw [textX, textY]
    decide
  obtain ⟨y, _, _, refused⟩ := (readInstructions_append readA readC).2 clash
  exact ⟨a, b, c, readA, readB, readC, (readInstructions_append readA readB).1 apart, _, refused⟩

end Stack

end DirectoryAccess
