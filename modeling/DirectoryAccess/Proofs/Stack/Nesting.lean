import DirectoryAccess.Stack.Element

/-!
# Elements at every depth

An element stands within another one if it is that element, or stands within an element of the
stack that it is. The values of an element are its leaves at every depth.
-/
namespace DirectoryAccess

namespace Node

variable {α : Type}

/-- The first element is the second, or is found in it at some depth. -/
inductive Within (x : Node α) : Node α → Prop
  | self : Within x x
  | inside {s : Settings} {es : List (Node α)} {y : Node α} (mem : y ∈ es) (h : Within x y) :
    Within x (.stack s es)

theorem within_leaf_iff {x : Node α} {a : α} : x.Within (.leaf a) ↔ x = .leaf a := by
  constructor
  · intro h
    cases h
    rfl
  · rintro rfl
    exact .self

theorem within_stack_iff {x : Node α} {s : Settings} {es : List (Node α)} :
    x.Within (.stack s es) ↔ x = .stack s es ∨ ∃ y ∈ es, x.Within y := by
  constructor
  · intro h
    cases h with
    | self => exact .inl rfl
    | inside mem h => exact .inr ⟨_, mem, h⟩
  · rintro (rfl | ⟨y, mem, h⟩)
    · exact .self
    · exact .inside mem h

section Stacks

variable {P : Settings → List (Node α) → Prop} {s : Settings} {es : List (Node α)}

theorem forall_within_leaf {a : α} : ∀ s es, (stack s es).Within (leaf a) → P s es := by
  intro s es within
  cases within_leaf_iff.mp within

/-- What holds of all stacks within a stack: it holds of the stack and of those in its elements. -/
theorem forall_within_stack_iff :
    (∀ t fs, (stack t fs).Within (stack s es) → P t fs) ↔
      P s es ∧ ∀ x ∈ es, ∀ t fs, (stack t fs).Within x → P t fs := by
  constructor
  · intro h
    exact ⟨h s es .self, fun x mem t fs within => h t fs (.inside mem within)⟩
  · rintro ⟨own, all⟩ t fs within
    rcases within_stack_iff.mp within with same | ⟨x, mem, deeper⟩
    · obtain ⟨rfl, rfl⟩ := stack.inj same
      exact own
    · exact all x mem t fs deeper

end Stacks

mutual

/-- The values at every depth, from left to right. -/
def values : Node α → List α
  | leaf a => [a]
  | stack _ es => valuesOf es

def valuesOf : List (Node α) → List α
  | [] => []
  | x :: xs => x.values ++ valuesOf xs

end

theorem valuesOf_eq_flatMap (xs : List (Node α)) : valuesOf xs = xs.flatMap values := by
  induction xs with
  | nil => rfl
  | cons x xs ih => rw [valuesOf, ih, List.flatMap_cons]

theorem values_stack (s : Settings) (es : List (Node α)) :
    (stack s es).values = es.flatMap values := by
  rw [values, valuesOf_eq_flatMap]

end Node

end DirectoryAccess
