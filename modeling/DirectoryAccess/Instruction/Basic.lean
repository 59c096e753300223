import DirectoryAccess.Instruction.Clause

/-!
# Instructions

An access control instruction has target rules, which say what it is about, a name, and clauses,
which say who may do what.
-/
namespace DirectoryAccess

structure Instruction where
  name : String
  targets : Stack Condition
  clauses : Stack Clause
  deriving DecidableEq

namespace Instruction

def noun : String := "instruction"

def voidMarker : String := "<invalid_instruction>"

/-- The name is not blank and can be quoted. -/
def checkName (name : String) : Except RuleError Unit :=
  if (Text.trimmed name).isEmpty then .error (.absent "instruction name")
  else if name.toList.contains '"' then
    .error (.badValue "instruction name" name "contains a double quote")
  else .ok ()

/-- The targets are target rules. -/
def checkTargets (targets : Stack Condition) : Except RuleError Unit :=
  if targets.settings.category = .targetRules then .ok ()
  else .error (.nestingNotAllowed s!"target rules (found {targets.settings.category.name})")

def validate (i : Instruction) : Except RuleError Unit := do
  checkName i.name
  checkTargets i.targets
  i.targets.validate
  i.clauses.validate

/-- The written form; the version is that of the format. -/
def render (i : Instruction) : String :=
  match i.validate with
  | .ok _ =>
    i.targets.render ++ "(version 3.0; acl " ++ quoted i.name ++ "; " ++ i.clauses.render ++ ")"
  | .error _ => voidMarker

instance : Element Instruction where
  noun := noun
  render := render
  validate := validate

end Instruction

/-- An empty collection of instructions, one a line; no two may be written alike. -/
def Stack.instructions : Stack Instruction where
  settings := {
    kind := .list
    category := .instructions
    delimiter := .newline
    uniqueness := .byText }

end DirectoryAccess
