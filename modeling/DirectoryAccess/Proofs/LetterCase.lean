import DirectoryAccess.Instruction.Reading
import DirectoryAccess.Proofs.Checks
import DirectoryAccess.Proofs.Grammar.Recasing

/-!
# Reading does not depend on letter case

Keywords, connectives, the words of permissions and the words of the header are read in any case of
letters, and nothing outside quotes is kept as it is spelt. What is read is therefore the same for
texts that are the same but for the case of letters outside quotes.
-/
namespace DirectoryAccess

theorem Grammar.CaseBlind.readText_iff {α : Type} {p : Reader α} (blind : CaseBlind p)
    {s t : String} (same : Text.SameButCase s.toList t.toList) (a : α) :
    p.readText s.toList = .ok a ↔ p.readText t.toList = .ok a := by
  have recased := Text.sameButCase_iff_recased.mp same
  rw [Grammar.readText_eq_ok, Grammar.readText_eq_ok]
  exact ⟨fun read => blind recased read, fun read => blind recased.symm read⟩

/-- A tree is read and then made into a value; the texts give the same trees. -/
theorem Grammar.CaseBlind.accepts_iff {α β : Type} {p : Reader α} (blind : CaseBlind p)
    {s t : String} (same : Text.SameButCase s.toList t.toList) (lay : ReadError → Refusal)
    (make : α → Except Refusal β) (b : β) :
    ((p.readText s.toList).mapError lay >>= make) = .ok b ↔
      ((p.readText t.toList).mapError lay >>= make) = .ok b := by
  rw [bind_eq_ok, bind_eq_ok]
  have trees : ∀ a, (p.readText s.toList).mapError lay = .ok a ↔
      (p.readText t.toList).mapError lay = .ok a := by
    intro a
    rw [mapError_eq_ok, mapError_eq_ok]
    exact blind.readText_iff same a
  simp only [trees]

/-- Of two texts that are the same but for letter case outside quotes, both are refused or both are
accepted, and then as the same. -/
theorem read_iff_of_sameButCase (layout : Layout) {s t : String}
    (same : Text.SameButCase s.toList t.toList) :
    (∀ i, Instruction.read s layout = .ok i ↔ Instruction.read t layout = .ok i) ∧
      (∀ is, Stack.readInstructions s = .ok is ↔ Stack.readInstructions t = .ok is) ∧
      (∀ cs, Stack.readClauses s = .ok cs ↔ Stack.readClauses t = .ok cs) ∧
      (∀ ts, Stack.readTargetRules s layout = .ok ts ↔ Stack.readTargetRules t layout = .ok ts) ∧
      (∀ r, BindRule.read s layout = .ok r ↔ BindRule.read t layout = .ok r) := by
  refine ⟨?_, ?_, ?_, ?_, ?_⟩
  · exact fun i => Grammar.caseBlind_wholeInstruction.accepts_iff same _ _ i
  · exact fun is => Grammar.caseBlind_wholeInstructions.accepts_iff same _ _ is
  · exact fun cs => Grammar.caseBlind_wholeClauses.accepts_iff same _ _ cs
  · exact fun ts => Grammar.caseBlind_wholeTargetRules.accepts_iff same _ _ ts
  · exact fun r => Grammar.caseBlind_wholeRule.accepts_iff same _ _ r

/-- An instruction in large and small letters; the value and the name are quoted. -/
def mixedInstruction : String :=
  "(TargetAttr=\"cN\")(Version 3.0; ACL \"Ann\"; ALLOW(Read,sElfWrite) not SSF>=\"1\" oR dns=\"a.b\";)"

/-- The same with the letters outside quotes made small, or capital. -/
def recasedInstruction : String :=
  "(targetattr=\"cN\")(VERSION 3.0; acl \"Ann\"; allow(READ,selfwrite) NOT ssf>=\"1\" or DNS=\"a.b\";)"

def mixedRule : String :=
  "Not(IP = \"10.*\")aNd(DayOfWeek=\"Sun\" )"

def recasedRule : String :=
  "nOT(ip = \"10.*\")AND(dayofweek=\"Sun\" )"

theorem read_iff_of_mixedInstruction :
    (Text.SameButCase mixedInstruction.toList recasedInstruction.toList ∧
      ∃ i, Instruction.read mixedInstruction = .ok i ∧ Instruction.read recasedInstruction = .ok i ∧
        i.name = "Ann" ∧ i.targets.render = "(targetattr=\"cN\")" ∧
        i.clauses.render = "allow(read,selfwrite) NOT ssf>=\"1\" OR dns=\"a.b\";") ∧
    Text.SameButCase mixedRule.toList recasedRule.toList ∧
      ∃ r, BindRule.read mixedRule = .ok r ∧ BindRule.read recasedRule = .ok r ∧
        r.render = "NOT (ip = \"10.*\") AND (dayofweek=\"Sun\")" := by
  have sameI : Text.SameButCase mixedInstruction.toList recasedInstruction.toList := by
    decide +kernel
  have sameR : Text.SameButCase mixedRule.toList recasedRule.toList := by
    decide +kernel
  obtain ⟨i, readI, shownI⟩ := exists_ok_of_any (x := Instruction.read mixedInstruction)
    (p := fun i => decide (i.name = "Ann" ∧ i.targets.render = "(targetattr=\"cN\")" ∧
      i.clauses.render = "allow(read,selfwrite) NOT ssf>=\"1\" OR dns=\"a.b\";"))
    (by decide +kernel)
  obtain ⟨r, readR, shownR⟩ := exists_ok_of_any (x := BindRule.read mixedRule)
    (p := fun r => r.render == "NOT (ip = \"10.*\") AND (dayofweek=\"Sun\")") (by decide +kernel)
  refine ⟨⟨sameI, i, readI, ?_, of_decide_eq_true shownI⟩, sameR, r, readR, ?_, eq_of_beq shownR⟩
  · exact ((read_iff_of_sameButCase {} sameI).1 i).mp readI
  · exact ((read_iff_of_sameButCase {} sameR).2.2.2.2 r).mp readR

end DirectoryAccess
