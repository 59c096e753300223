import DirectoryAccess.Stack.Basic

/-!
# What a stack asks of its elements

A type of values that can be stacked says how a value is written, when it is valid, which keyword
it belongs to, and which texts it answers to in a search. The same four notions are then given for
elements, that is for values and nested stacks alike.
-/
namespace DirectoryAccess

/-- A type of values that a stack can hold. -/
class Element (α : Type) where
  noun : String
  render : α → String
  /-- The first cause for which the value is refused, if there is one. -/
  validate : α → Except RuleError Unit
  /-- The keyword that the value belongs to. -/
  keyword : α → Option Keyword := fun _ => none
  /-- The value is what a search for the text looks for. -/
  answersTo : α → String → Bool := fun a text => Text.sameWord (render a) text

/-- A value as it stands among others: quoted where each is. -/
def Quoting.value (q : Quoting) (text : String) : String :=
  match q with
  | .whole => text
  | .each => quoted text

namespace Settings

/-- The parts of a stack, joined as its kind says. -/
def join (s : Settings) (parts : List String) : String :=
  match s.kind with
  | .list => (s.delimiter.written s.padded).intercalate parts
  | .and => " AND ".intercalate parts
  | .or => " OR ".intercalate parts
  | .not => " ".intercalate parts

/-- The written form of a stack, given that of its parts: a negation puts its word in front of the
parentheses, and a stack without parts is the empty text. -/
def write (s : Settings) (parts : List String) : String :=
  if parts.isEmpty then ""
  else (if s.kind = .not then "NOT " else "") ++
    enclosed s.parenthesized s.padded (s.join parts)

/-- A stack with so many elements has enough of them. -/
def checkMinimum (s : Settings) (count : Nat) : Except RuleError Unit :=
  if count < s.minimum then
    .error (.tooFew (s.kind.name ++ " " ++ s.category.name) s.minimum count)
  else .ok ()

end Settings

namespace Node

variable {α : Type} [Element α]

mutual

def render : Node α → String
  | leaf a => Element.render a
  | stack s es => s.write (parts s.quoting es)

/-- The written forms of the elements of a stack; only values are ever quoted. -/
def parts (q : Quoting) : List (Node α) → List String
  | [] => []
  | x :: xs => (if x.isLeaf then q.value x.render else x.render) :: parts q xs

end

mutual

/-- A value says itself whether it is valid; a stack is valid when it has enough elements and each
of them is valid. The first fault in the order of the text is reported. -/
def validate : Node α → Except RuleError Unit
  | leaf a => Element.validate a
  | stack s es => do
    s.checkMinimum es.length
    validateAll es

def validateAll : List (Node α) → Except RuleError Unit
  | [] => .ok ()
  | x :: xs => do
    x.validate
    validateAll xs

end

/-- The keyword of a value, or the one that the values of a stack share. -/
def keyword : Node α → Option Keyword
  | leaf a => Element.keyword a
  | stack s _ => s.category.keyword

/-- The element is what a search for the text looks for. -/
def answersTo (x : Node α) (text : String) : Bool :=
  match x with
  | leaf a => Element.answersTo a text
  | stack _ _ => Text.sameWord x.render text

theorem parts_eq_map (q : Quoting) (xs : List (Node α)) :
    parts q xs = xs.map (fun x => if x.isLeaf then q.value x.render else x.render) := by
  induction xs with
  | nil => rfl
  | cons x xs ih => rw [parts, ih, List.map_cons]

theorem validateAll_eq_ok_iff (xs : List (Node α)) :
    validateAll xs = .ok () ↔ ∀ x ∈ xs, x.validate = .ok () := by
  induction xs with
  | nil => simp [validateAll]
  | cons x xs ih =>
    rw [validateAll, List.forall_mem_cons, ← ih]
    cases x.validate <;> simp [bind, Except.bind]

end Node

namespace Stack

variable {α : Type} [Element α]

def render (s : Stack α) : String :=
  s.toNode.render

def validate (s : Stack α) : Except RuleError Unit :=
  s.toNode.validate

theorem render_eq (s : Stack α) :
    s.render = s.settings.write (Node.parts s.settings.quoting s.elements) := by
  rw [render, toNode, Node.render]

theorem validate_eq_ok_iff (s : Stack α) :
    s.validate = .ok () ↔
      s.settings.minimum ≤ s.size ∧ ∀ x ∈ s.elements, x.validate = .ok () := by
  rw [validate, toNode, Node.validate, ← Node.validateAll_eq_ok_iff, Settings.checkMinimum, size]
  split
  · next h => simp [bind, Except.bind, Nat.not_le.mpr h]
  · next h => simp [bind, Except.bind, Nat.not_lt.mp h]

end Stack

end DirectoryAccess
