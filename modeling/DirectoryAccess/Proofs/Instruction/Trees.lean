import DirectoryAccess.Proofs.Instruction.Permission
import DirectoryAccess.Proofs.Rules.Spelling

/-!
# Trees of instructions and their texts

The grammar reads the text of a tree as the tree, for target rules, for clauses and for
whole instructions.
-/
namespace DirectoryAccess.Grammar

open Reader

/-! ### Target rules -/

def ConditionTree.targetText (t : ConditionTree) : String :=
  enclosed true t.padded t.text

/-- What stands between target rules. -/
def targetGap (layout : Layout) : String :=
  if layout.paddedStacks then " " else ""

theorem isGap_targetGap (layout : Layout) : IsGap (targetGap layout).toList := by
  unfold targetGap
  cases layout.paddedStacks with
  | true => exact isGap_blank
  | false => exact isGap_nil

def targetsText (layout : Layout) (ts : List ConditionTree) : String :=
  (targetGap layout).intercalate (ts.map ConditionTree.targetText)

theorem writes_targets {sep : List Char} (gap : IsGap sep) {ts : List ConditionTree}
    (quotable : ∀ t ∈ ts, t.Quotable) :
    Repeated WritesTargetGap ts (sep.intercalate (ts.map (fun t => t.targetText.toList))) := by
  have pieces : Repeated WritesTargetGap (ts.map id)
      (sep.intercalate (ts.map (fun t => t.targetText.toList))) := by
    refine repeated_intercalate_behind ?_ ?_
    · intro t ht
      exact ⟨t.targetText.toList, [], by simp, writesTarget_enclosed (quotable t ht).written,
        isGap_nil⟩
    · intro t ht
      exact ⟨t.targetText.toList, _, rfl, writesTarget_enclosed (quotable t ht).written, gap⟩
  rwa [List.map_id] at pieces

theorem writes_targetsText {layout : Layout} {ts : List ConditionTree}
    (quotable : ∀ t ∈ ts, t.Quotable) :
    Repeated WritesTargetGap ts (targetsText layout ts).toList := by
  unfold targetsText
  rw [String.toList_intercalate, List.map_map]
  exact writes_targets (isGap_targetGap layout) quotable

/-! ### Clauses -/

namespace ClauseTree

/-- The permission says what it does with its rights, and the rule has the shape of rules. -/
structure Formed (Q : ConditionTree → Prop) (t : ClauseTree) : Prop where
  permission : t.permission.validate = .ok ()
  rule : t.rule.Formed Q

def text (t : ClauseTree) : String :=
  t.permission.render ++ " " ++ t.rule.text ++ ";"

theorem Formed.mono {Q R : ConditionTree → Prop} {t : ClauseTree} (h : t.Formed Q)
    (imp : ∀ t, Q t → R t) : t.Formed R :=
  ⟨h.permission, h.rule.mono imp⟩

theorem Formed.written {t : ClauseTree} (h : t.Formed ConditionTree.Quotable) :
    WritesClause t t.text.toList := by
  obtain ⟨d, disposition⟩ := Permission.exists_disposition h.permission
  have blank : " ".toList = [' '] := by decide
  have semicolon : ";".toList = [';'] := by decide
  refine ⟨[], t.permission.render.toList, [' '], t.rule.text.toList, [], ?_, isGap_nil,
    Permission.writes_render disposition, isGap_blank, h.rule.written, isGap_nil⟩
  simp [text, blank, semicolon]

end ClauseTree

theorem isGap_append {g h : List Char} (hg : IsGap g) (hh : IsGap h) : IsGap (g ++ h) := by
  intro c hc
  rcases List.mem_append.mp hc with hc | hc
  · exact hg c hc
  · exact hh c hc

theorem WritesClause.behind {t : ClauseTree} {g cs : List Char} (gap : IsGap g)
    (h : WritesClause t cs) : WritesClause t (g ++ cs) := by
  obtain ⟨e, ps, i, rs, f, rfl, before, rest⟩ := h
  exact ⟨g ++ e, ps, i, rs, f, by simp, isGap_append gap before, rest⟩

theorem WritesClause.formed {t : ClauseTree} {cs : List Char} (h : WritesClause t cs) :
    t.Formed (fun _ => True) := by
  obtain ⟨_, _, _, _, _, _, _, permission, _, rule, _⟩ := h
  exact ⟨permission.validate, rule.shaped⟩

def clausesText (ts : List ClauseTree) : String :=
  " ".intercalate (ts.map ClauseTree.text)

theorem writes_clauses {sep : List Char} (gap : IsGap sep) {ts : List ClauseTree}
    (formed : ∀ t ∈ ts, t.Formed ConditionTree.Quotable) :
    Repeated WritesClause ts (sep.intercalate (ts.map (fun t => t.text.toList))) := by
  have pieces : Repeated WritesClause (ts.map id)
      (sep.intercalate (ts.map (fun t => t.text.toList))) := by
    refine repeated_intercalate_before ?_ ?_
    · intro t ht
      exact (formed t ht).written
    · intro t ht
      exact (formed t ht).written.behind gap
  rwa [List.map_id] at pieces

theorem writes_clausesText {ts : List ClauseTree}
    (formed : ∀ t ∈ ts, t.Formed ConditionTree.Quotable) :
    Repeated WritesClause ts (clausesText ts).toList := by
  have blank : " ".toList = [' '] := by decide
  unfold clausesText
  rw [String.toList_intercalate, blank, List.map_map]
  exact writes_clauses isGap_blank formed

/-- A gap may stand in front of clauses, if there are any. -/
theorem repeated_clauses_behind {ts : List ClauseTree} {g cs : List Char} (gap : IsGap g)
    (full : ts ≠ []) (h : Repeated WritesClause ts cs) : Repeated WritesClause ts (g ++ cs) := by
  cases h with
  | nil => exact absurd rfl full
  | cons first others =>
    rw [← List.append_assoc]
    exact .cons (first.behind gap) others

theorem formed_of_repeated_clauses {ts : List ClauseTree} {cs : List Char}
    (h : Repeated WritesClause ts cs) : ∀ t ∈ ts, t.Formed (fun _ => True) := by
  induction h with
  | nil => simp
  | cons first _ ih => exact List.forall_mem_cons.mpr ⟨first.formed, ih⟩

/-! ### Instructions -/

namespace InstructionTree

/-- The parts have the shape of what the grammar gives, and the conditions have the property. -/
structure Formed (Q : ConditionTree → Prop) (t : InstructionTree) : Prop where
  targets : ∀ c ∈ t.targets, Q c
  name : '"' ∉ t.name.toList
  full : t.clauses ≠ []
  clauses : ∀ c ∈ t.clauses, c.Formed Q

def text (layout : Layout) (t : InstructionTree) : String :=
  targetsText layout t.targets ++ "(version 3.0; acl " ++ quoted t.name ++ "; " ++
    clausesText t.clauses ++ ")"

theorem writesHeader : WritesHeader "(version 3.0; acl ".toList :=
  ⟨[], "version".toList, [' '], [], [' '], "acl".toList, [' '], by decide, isGap_nil,
    spells_self "version", isGap_blank, isGap_nil, isGap_blank, spells_self "acl", isGap_blank⟩

theorem Formed.mono {Q R : ConditionTree → Prop} {t : InstructionTree} (h : t.Formed Q)
    (imp : ∀ t, Q t → R t) : t.Formed R :=
  ⟨fun c hc => imp c (h.targets c hc), h.name, h.full, fun c hc => (h.clauses c hc).mono imp⟩

/-- The instruction in a text of its target rules, the header with the name, and the clauses, with
gaps around the whole. -/
theorem writes_spaced_parts {t : InstructionTree} {g ts ds h : List Char} (before : IsGap g)
    (targets : Repeated WritesTargetGap t.targets ts) (name : '"' ∉ t.name.toList)
    (full : t.clauses ≠ []) (clauses : Repeated WritesClause t.clauses ds) (after : IsGap h) :
    WritesInstruction t (g ++ (ts ++ ("(version 3.0; acl ".toList ++ ((quoted t.name).toList ++
      ("; ".toList ++ (ds ++ (h ++ ")".toList))))))) := by
  have semicolon : "; ".toList = [';', ' '] := by decide
  have closing : ")".toList = [')'] := by decide
  refine ⟨g, ts, "(version 3.0; acl ".toList, (quoted t.name).toList, [], [' '] ++ ds, h, ?_,
    before, targets, writesHeader, ConditionTree.writesQuoted name, isGap_nil, full,
    repeated_clauses_behind isGap_blank full clauses, after⟩
  simp [semicolon, closing]

theorem writes_parts {t : InstructionTree} {ts ds : List Char}
    (targets : Repeated WritesTargetGap t.targets ts) (name : '"' ∉ t.name.toList)
    (full : t.clauses ≠ []) (clauses : Repeated WritesClause t.clauses ds) :
    WritesInstruction t (ts ++ ("(version 3.0; acl ".toList ++ ((quoted t.name).toList ++
      ("; ".toList ++ (ds ++ ")".toList))))) := by
  have spaced := writes_spaced_parts isGap_nil targets name full clauses isGap_nil
  simpa only [List.nil_append] using spaced

theorem Formed.written {t : InstructionTree} (h : t.Formed ConditionTree.Quotable)
    {layout : Layout} : WritesInstruction t (t.text layout).toList := by
  have targets : Repeated WritesTargetGap t.targets (targetsText layout t.targets).toList :=
    writes_targetsText h.targets
  have parts := writes_parts targets h.name h.full (writes_clausesText h.clauses)
  simpa only [text, String.toList_append, List.append_assoc] using parts

theorem Formed.readAll_text {t : InstructionTree} (h : t.Formed ConditionTree.Quotable)
    (layout : Layout) : wholeInstruction.readAll (t.text layout).toList = .ok t :=
  wholeInstruction_readAll_iff.mpr ⟨(t.text layout).toList, [], by simp, h.written, isGap_nil⟩

theorem Formed.text_injective {t u : InstructionTree} (h : t.Formed ConditionTree.Quotable)
    (h' : u.Formed ConditionTree.Quotable) {layout : Layout}
    (same : t.text layout = u.text layout) : t = u := by
  have read := h.readAll_text layout
  rw [same, h'.readAll_text] at read
  exact (Except.ok.inj read).symm

end InstructionTree

theorem WritesInstruction.behind {t : InstructionTree} {g cs : List Char} (gap : IsGap g)
    (h : WritesInstruction t cs) : WritesInstruction t (g ++ cs) := by
  obtain ⟨e, ts, hs, ns, i, ds, f, rfl, before, rest⟩ := h
  exact ⟨g ++ e, ts, hs, ns, i, ds, f, by simp, isGap_append gap before, rest⟩

theorem WritesInstruction.formed {t : InstructionTree} {cs : List Char}
    (h : WritesInstruction t cs) : t.Formed (fun _ => True) := by
  obtain ⟨_, _, _, _, _, _, _, _, _, _, _, name, _, full, clauses, _⟩ := h
  exact ⟨fun _ _ => trivial, name.2, full, formed_of_repeated_clauses clauses⟩

/-- The text of instructions, one a line. -/
def instructionsText (ts : List InstructionTree) : String :=
  "\n".intercalate (ts.map (InstructionTree.text {}))

theorem writes_instructionsText {ts : List InstructionTree}
    (formed : ∀ t ∈ ts, t.Formed ConditionTree.Quotable) :
    Repeated WritesInstruction ts (instructionsText ts).toList := by
  have gap : IsGap ['\n'] := by
    intro c hc
    rw [List.mem_singleton.mp hc]
    rfl
  have pieces : Repeated WritesInstruction (ts.map id)
      (['\n'].intercalate (ts.map (fun t => (t.text {}).toList))) := by
    refine repeated_intercalate_before ?_ ?_
    · intro t ht
      exact (formed t ht).written
    · intro t ht
      exact (formed t ht).written.behind gap
  have newline : "\n".toList = ['\n'] := by decide
  rw [List.map_id] at pieces
  unfold instructionsText
  rw [String.toList_intercalate, newline, List.map_map]
  exact pieces

theorem formed_of_repeated_instructions {ts : List InstructionTree} {cs : List Char}
    (h : Repeated WritesInstruction ts cs) : ∀ t ∈ ts, t.Formed (fun _ => True) := by
  induction h with
  | nil => simp
  | cons first _ ih => exact List.forall_mem_cons.mpr ⟨first.formed, ih⟩

end DirectoryAccess.Grammar
