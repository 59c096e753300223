import DirectoryAccess.Layout
import DirectoryAccess.RuleError

/-!
# Stacks

Every construct with several parts is a stack: a list of values, the conjunction of conditions, the
clauses of an instruction. A stack is its settings together with its elements, and an element is
either a value (a leaf) or another stack.

The settings say what the stack means, what it admits, and how it is written; the operations that
add and remove elements never change them.
-/
namespace DirectoryAccess

/-- How the elements of a stack are taken together. -/
inductive StackKind where
  | list
  | and
  | or
  | not
  deriving DecidableEq

namespace StackKind

def all : List StackKind := [list, and, or, not]

def isBoolean : StackKind → Bool
  | list => false
  | _ => true

def name : StackKind → String
  | list => "LIST"
  | and => "AND"
  | or => "OR"
  | not => "NOT"

end StackKind

/-- What a stack is a stack of. -/
inductive Category where
  | targetRules
  | bindRules
  /-- Values that are compared with one keyword. -/
  | values (keyword : Keyword)
  | attributeFilters
  /-- Permissions, each with the bind rule under which it holds. -/
  | clauses
  | instructions
  deriving DecidableEq

namespace Category

def keyword : Category → Option Keyword
  | values k => some k
  | _ => none

def name : Category → String
  | targetRules => "target rules"
  | bindRules => "bind rules"
  | values k => k.name ++ " values"
  | attributeFilters => "attribute filters"
  | clauses => "permission bind rules"
  | instructions => "instructions"

/-- Where a keyword would stand wrongly, if it stood in a stack of this category. -/
def misplaced? (c : Category) (k : Keyword) : Option String :=
  match c with
  | targetRules => if k.isTarget then none else some "target rules"
  | bindRules => if k.isBind then none else some "bind rules"
  | values own => if own = k then none else some "a list of another keyword"
  | _ => none

end Category

/-- What stands between the elements of a list. -/
inductive Delimiter where
  | doubleBar
  | doubleAmpersand
  | comma
  | semicolon
  | space
  | newline
  deriving DecidableEq

namespace Delimiter

def all : List Delimiter := [doubleBar, doubleAmpersand, comma, semicolon, space, newline]

def sign : Delimiter → String
  | doubleBar => "||"
  | doubleAmpersand => "&&"
  | comma => ","
  | semicolon => ";"
  | space => " "
  | newline => "\n"

/-- What is written between two elements: padding puts blanks around the doubled signs, and a
blank that is not padded vanishes. -/
def written (padded : Bool) : Delimiter → String
  | doubleBar => if padded then " || " else "||"
  | doubleAmpersand => if padded then " && " else "&&"
  | space => if padded then " " else ""
  | d => d.sign

end Delimiter

/-- Where the quotes of a written list stand. -/
inductive Quoting where
  /-- One pair of quotes around the whole list. -/
  | whole
  /-- One pair of quotes around each value. -/
  | each
  deriving DecidableEq

/-- The quoting of a list that is given by so many quoted texts. -/
def Quoting.ofCount (n : Nat) : Quoting :=
  if 1 < n then .each else .whole

/-- What no two elements of a stack may have in common. -/
inductive Uniqueness where
  | unrestricted
  /-- No two elements have the same keyword. -/
  | byKeyword
  /-- No two elements are written the same way, the case of ASCII letters aside. -/
  | byText
  deriving DecidableEq

/-- Everything about a stack but its elements. The defaults are those of the kind: a truth value
needs an element and may nest, and a negation has room for one. -/
structure Settings where
  kind : StackKind
  category : Category
  nesting : Bool := kind.isBoolean
  capacity : Option Nat := if kind = .not then some 1 else none
  minimum : Nat := if kind.isBoolean then 1 else 0
  delimiter : Delimiter := .doubleBar
  quoting : Quoting := .whole
  padded : Bool := true
  parenthesized : Bool := false
  uniqueness : Uniqueness := .unrestricted
  deriving DecidableEq

/-- An element of a stack: a value, or a stack inside. -/
inductive Node (α : Type) where
  | leaf (value : α)
  | stack (settings : Settings) (elements : List (Node α))

structure Stack (α : Type) where
  settings : Settings
  elements : List (Node α) := []

namespace Stack

variable {α : Type}

/-- The stack as an element of another one. -/
def toNode (s : Stack α) : Node α :=
  .stack s.settings s.elements

def keyword (s : Stack α) : Option Keyword :=
  s.settings.category.keyword

/-- The number of elements, a nested stack counting once. -/
def size (s : Stack α) : Nat :=
  s.elements.length

def isEmpty (s : Stack α) : Bool :=
  s.elements.isEmpty

/-- The same elements under changed settings. -/
def modifySettings (f : Settings → Settings) (s : Stack α) : Stack α :=
  { s with settings := f s.settings }

def setQuoting (q : Quoting) : Stack α → Stack α :=
  modifySettings ({ · with quoting := q })

def setDelimiter (d : Delimiter) : Stack α → Stack α :=
  modifySettings ({ · with delimiter := d })

def setParenthesized (b : Bool) : Stack α → Stack α :=
  modifySettings ({ · with parenthesized := b })

def setPadded (b : Bool) : Stack α → Stack α :=
  modifySettings ({ · with padded := b })

def setNesting (b : Bool) : Stack α → Stack α :=
  modifySettings ({ · with nesting := b })

def setCapacity (n : Nat) : Stack α → Stack α :=
  modifySettings ({ · with capacity := some n })

def setMinimum (n : Nat) : Stack α → Stack α :=
  modifySettings ({ · with minimum := n })

def setUniqueness (u : Uniqueness) : Stack α → Stack α :=
  modifySettings ({ · with uniqueness := u })

end Stack

namespace Node

variable {α : Type}

def leaf? : Node α → Option α
  | leaf a => some a
  | stack _ _ => none

def stack? : Node α → Option (Stack α)
  | leaf _ => none
  | stack s es => some ⟨s, es⟩

def isLeaf : Node α → Bool
  | leaf _ => true
  | stack _ _ => false

mutual

/-- Equality of elements is decided leaf by leaf and setting by setting. -/
def decEq [DecidableEq α] : (x y : Node α) → Decidable (x = y)
  | leaf a, leaf b =>
    if h : a = b then .isTrue (by rw [h]) else .isFalse (by simpa using h)
  | leaf _, stack _ _ => .isFalse (by simp)
  | stack _ _, leaf _ => .isFalse (by simp)
  | stack s xs, stack t ys =>
    if hs : s = t then
      match decEqList xs ys with
      | .isTrue h => .isTrue (by rw [hs, h])
      | .isFalse h => .isFalse (by simp [h])
    else .isFalse (by simp [hs])

/-- The companion of `decEq` for lists of elements. -/
def decEqList [DecidableEq α] : (xs ys : List (Node α)) → Decidable (xs = ys)
  | [], [] => .isTrue rfl
  | [], _ :: _ => .isFalse (by simp)
  | _ :: _, [] => .isFalse (by simp)
  | x :: xs, y :: ys =>
    match decEq x y with
    | .isTrue h =>
      match decEqList xs ys with
      | .isTrue hs => .isTrue (by rw [h, hs])
      | .isFalse hs => .isFalse (by simp [hs])
    | .isFalse h => .isFalse (by simp [h])

end

instance [DecidableEq α] : DecidableEq (Node α) := decEq

instance [DecidableEq α] : DecidableEq (Stack α)
  | ⟨s, es⟩, ⟨t, fs⟩ => decidable_of_iff (s = t ∧ es = fs) (by simp)

end Node

namespace Stack

/-- The values at the top level, nested stacks left out. -/
def leaves {α : Type} (s : Stack α) : List α :=
  s.elements.filterMap Node.leaf?

end Stack

end DirectoryAccess
