import DirectoryAccess.Condition.Reading
import DirectoryAccess.Grammar.Instruction
import DirectoryAccess.Instruction.Basic

/-!
# Permissions and instructions in texts
-/
namespace DirectoryAccess

def Permission.read (text : String) : Except ReadError Permission :=
  (Grammar.wholePermission.readText text.toList).mapError (.within noun)

namespace Grammar.ClauseTree

def toClause (layout : Layout) (t : ClauseTree) : Except Refusal Clause := do
  let rule ← t.rule.toBindRule layout
  (Clause.new? t.permission rule).mapError .unlawful

end Grammar.ClauseTree

namespace Stack

def pushClauseTree (layout : Layout) (s : Stack Clause) (t : Grammar.ClauseTree) :
    Except Refusal (Stack Clause) := do
  s.pushLawful (.leaf (← t.toClause layout))

def ofClauseTrees (layout : Layout) (trees : List Grammar.ClauseTree) :
    Except Refusal (Stack Clause) := do
  let s ← trees.foldlM (pushClauseTree layout) clauses
  s.validate.mapError .unlawful
  return s

def readClauses (text : String) : Except Refusal (Stack Clause) := do
  let trees ← (Grammar.wholeClauses.readText text.toList).mapError
    (fun e => .unread (e.within "permission bind rules"))
  ofClauseTrees {} trees

end Stack

namespace Grammar.InstructionTree

def toInstruction (layout : Layout) (t : InstructionTree) : Except Refusal Instruction := do
  let targets ← Stack.ofTargetTrees layout t.targets
  let clauses ← Stack.ofClauseTrees layout t.clauses
  let i : Instruction := { name := t.name, targets, clauses }
  i.validate.mapError .unlawful
  return i

end Grammar.InstructionTree

def Instruction.read (text : String) (layout : Layout := {}) : Except Refusal Instruction := do
  let tree ← (Grammar.wholeInstruction.readText text.toList).mapError
    (fun e => .unread (e.within noun))
  tree.toInstruction layout

namespace Stack

def pushInstructionTree (s : Stack Instruction) (t : Grammar.InstructionTree) :
    Except Refusal (Stack Instruction) := do
  s.pushLawful (.leaf (← t.toInstruction {}))

/-- The instructions in a text, which may be none. -/
def readInstructions (text : String) : Except Refusal (Stack Instruction) := do
  let trees ← (Grammar.wholeInstructions.readText text.toList).mapError
    (fun e => .unread (e.within "instructions"))
  trees.foldlM pushInstructionTree instructions

end Stack

end DirectoryAccess
