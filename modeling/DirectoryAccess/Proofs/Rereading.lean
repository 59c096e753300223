import DirectoryAccess.Proofs.Instruction.Lowering

/-!
# What is read is read again from what it is written as

Reading settles a rule: the values are brought to the form in which they are kept, everything else
is kept as it is written. What is read is therefore read a second time, from its own written form,
as the same rule.
-/
namespace DirectoryAccess

/-- Whatever a text is accepted as, the written form of the value is accepted as the same value. -/
theorem read_render_of_read (layout : Layout) (text : String) :
    (∀ c, Condition.read text = .ok c → Condition.read c.render = .ok c) ∧
      (∀ s, Stack.readTargetRules text layout = .ok s →
        Stack.readTargetRules s.render layout = .ok s) ∧
      (∀ r, BindRule.read text layout = .ok r → BindRule.read r.render layout = .ok r) ∧
      (∀ s, Stack.readClauses text = .ok s → Stack.readClauses s.render = .ok s) ∧
      (∀ i, Instruction.read text layout = .ok i → Instruction.read i.render layout = .ok i) ∧
      (∀ s, Stack.readInstructions text = .ok s → Stack.readInstructions s.render = .ok s) := by
  refine ⟨?_, ?_, ?_, ?_, ?_, ?_⟩
  · intro c h
    exact (Condition.settled_of_read h).read_render
  · intro s h
    exact Stack.readTargetRules_render h
  · intro r h
    exact BindRule.read_render h
  · intro s h
    exact Stack.readClauses_render h
  · intro i h
    exact Instruction.read_render h
  · intro s h
    exact Stack.readInstructions_render h

/-- Texts with gaps, spellings and numbers that are not those of the written forms. -/
def looseCondition : String :=
  "(  USERDN\t= \"ldap:///self||ldap:///cn=A\" )"

def looseTargets : String :=
  "(TARGETATTR=\"cn||SN\" )( targetscope =\"ONELEVEL\")"

def looseRule : String :=
  "not(IP = \"10.*\")and(dayofweek=\"sun ,MON\" )"

def looseInstruction : String :=
  "(VERSION 3.0;acl\"x\";allow(all,read) ( NOT( ssf=\"007\"OR ssf>\"max\")) ;)"

theorem read_render_of_loose_instruction :
    (∃ c, Condition.read looseCondition = .ok c ∧
      c.render = "( userdn = \"ldap:///self || ldap:///cn=A\" )" ∧
      Condition.read c.render = .ok c) ∧
    (∃ s, Stack.readTargetRules looseTargets = .ok s ∧
      s.render = "(targetattr=\"cn || SN\") ( targetscope = \"onelevel\" )" ∧
      Stack.readTargetRules s.render = .ok s) ∧
    (∃ r, BindRule.read looseRule = .ok r ∧
      r.render = "NOT (ip = \"10.*\") AND (dayofweek=\"Sun,Mon\")" ∧
      BindRule.read r.render = .ok r) ∧
    ∃ i, Instruction.read looseInstruction = .ok i ∧
      (i.name = "x" ∧ i.targets.isEmpty = true ∧ i.render =
        "(version 3.0; acl \"x\"; allow(all) ( NOT ( ssf=\"7\" OR ssf>\"256\" ) );)") ∧
      Instruction.read i.render = .ok i := by
  obtain ⟨c, readC, shownC⟩ := exists_ok_of_any (x := Condition.read looseCondition)
    (p := fun c => c.render == "( userdn = \"ldap:///self || ldap:///cn=A\" )") (by decide +kernel)
  obtain ⟨s, readS, shownS⟩ := exists_ok_of_any (x := Stack.readTargetRules looseTargets)
    (p := fun s => s.render == "(targetattr=\"cn || SN\") ( targetscope = \"onelevel\" )")
    (by decide +kernel)
  obtain ⟨r, readR, shownR⟩ := exists_ok_of_any (x := BindRule.read looseRule)
    (p := fun r => r.render == "NOT (ip = \"10.*\") AND (dayofweek=\"Sun,Mon\")")
    (by decide +kernel)
  obtain ⟨i, readI, shownI⟩ := exists_ok_of_any (x := Instruction.read looseInstruction)
    (p := fun i => decide (i.name = "x" ∧ i.targets.isEmpty = true ∧ i.render =
      "(version 3.0; acl \"x\"; allow(all) ( NOT ( ssf=\"7\" OR ssf>\"256\" ) );)"))
    (by decide +kernel)
  refine ⟨⟨c, readC, eq_of_beq shownC, ?_⟩, ⟨s, readS, eq_of_beq shownS, ?_⟩,
    ⟨r, readR, eq_of_beq shownR, ?_⟩, ⟨i, readI, of_decide_eq_true shownI, ?_⟩⟩
  · exact (read_render_of_read {} looseCondition).1 c readC
  · exact (read_render_of_read {} looseTargets).2.1 s readS
  · exact (read_render_of_read {} looseRule).2.2.1 r readR
  · exact (read_render_of_read {} looseInstruction).2.2.2.2.1 i readI

end DirectoryAccess
