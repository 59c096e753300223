import DirectoryAccess.Stack.Element

/-!
# What a stack lets in

One check decides whether an element may join others in a stack. Adding and replacing both go
through it, so a stack that is only changed by these operations never holds an element that its
settings exclude.
-/
namespace DirectoryAccess

namespace Settings

variable {α : Type} [Element α]

/-- A stack may stand inside only where nesting is allowed, and only with the same category. -/
def checkNesting (s : Settings) : Node α → Except RuleError Unit
  | .leaf _ => .ok ()
  | .stack t _ =>
    if s.nesting = false then .error (.nestingNotAllowed s.category.name)
    else if t.category ≠ s.category then
      .error (.nestingNotAllowed s!"{s.category.name} (found {t.category.name})")
    else .ok ()

/-- An element with a keyword stands only where that keyword belongs. -/
def checkPlace (s : Settings) (x : Node α) : Except RuleError Unit :=
  match x.keyword with
  | none => .ok ()
  | some k =>
    match s.category.misplaced? k with
    | some place => .error (.misplacedKeyword k place)
    | none => .ok ()

/-- The element differs from the others as the stack asks. -/
def checkUnique (s : Settings) (others : List (Node α)) (x : Node α) : Except RuleError Unit :=
  match s.uniqueness with
  | .unrestricted => .ok ()
  | .byKeyword =>
    match x.keyword with
    | none => .ok ()
    | some k =>
      if others.any (fun y => y.keyword == some k) then .error (.duplicateKeyword k) else .ok ()
  | .byText =>
    if others.any (fun y => Text.sameWord y.render x.render) then
      .error (.duplicateValue x.render)
    else .ok ()

/-- The element may join the others. -/
def checkAdmission (s : Settings) (others : List (Node α)) (x : Node α) :
    Except RuleError Unit := do
  s.checkNesting x
  x.validate
  s.checkPlace x
  s.checkUnique others x

/-- There is room for one more element beside so many. -/
def checkRoom (s : Settings) (count : Nat) : Except RuleError Unit :=
  match s.capacity with
  | none => .ok ()
  | some capacity => if capacity ≤ count then .error (.full capacity) else .ok ()

end Settings

end DirectoryAccess
