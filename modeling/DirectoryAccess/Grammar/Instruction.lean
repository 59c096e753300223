import DirectoryAccess.Grammar.Rule

/-!
# The grammar of permissions and instructions
-/
namespace DirectoryAccess.Grammar

open Reader

/-- A word in the list of a permission. -/
inductive RightWord where
  | all
  | none
  | right (right : Right)
  deriving DecidableEq

namespace RightWord

/-- The word with the given spelling, the case of letters aside. -/
def ofText? (text : String) : Option RightWord :=
  if Text.sameWord text "all" then some all
  else if Text.sameWord text "none" then some .none
  else (Right.ofName? text).map right

/-- The right that the word names, if it names one. -/
def right? : RightWord → Option Right
  | right r => some r
  | _ => Option.none

end RightWord

/-- A word in the list of a permission. -/
def rightWord : Reader RightWord :=
  labelled "right"
    (select (run1 Char.isAlpha) (fun w => RightWord.ofText? (String.ofList w)))

/-- The word for granting or withholding. -/
def disposition : Reader Disposition :=
  labelled "permission"
    (firstOf (Disposition.all.map (fun d => do word d.name; return d)))

/-- A comma between words. -/
def comma : Reader Unit := do
  skipGap
  sign ","
  skipGap

/-- The permission that the words make up; the word for no rights adds none. -/
def permissionOf (d : Disposition) (words : List RightWord) : Permission :=
  let named := Permission.ofRights d (words.filterMap RightWord.right?)
  if words.contains .all then named.insertCommon else named

def permission : Reader Permission := do
  let d ← disposition
  skipGap
  commit (sign "(")
  skipGap
  let words ← commit (separated rightWord comma)
  skipGap
  commit (sign ")")
  return permissionOf d words

def clause : Reader ClauseTree := do
  skipGap
  let permission ← permission
  let rule ← commit rule
  skipGap
  require ";"
  return { permission, rule }

/-- What stands between the target rules and the name. -/
def header : Reader Unit := do
  sign "("
  skipGap
  word "version"
  skipGap
  require "3.0"
  skipGap
  commit (sign ";")
  skipGap
  note (.expected (.sign "acl")) (commit (word "acl"))
  skipGap

def instruction : Reader InstructionTree := do
  skipGap
  let targets ← targetRules
  header
  let name ← described "quoted instruction name" (commit quotedText)
  skipGap
  commit (sign ";")
  let clauses ← commit (many1 clause)
  skipGap
  commit (sign ")")
  return { targets, name, clauses }

/-! ### Whole texts -/

def wholePermission : Reader Permission := do
  skipGap
  let p ← permission
  skipGap
  return p

def wholeClauses : Reader (List ClauseTree) := do
  let trees ← many1 clause
  skipGap
  return trees

def wholeInstruction : Reader InstructionTree := do
  let tree ← instruction
  skipGap
  return tree

def wholeInstructions : Reader (List InstructionTree) := do
  let trees ← many instruction
  skipGap
  return trees

end DirectoryAccess.Grammar
