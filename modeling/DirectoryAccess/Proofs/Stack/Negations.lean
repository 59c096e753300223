import DirectoryAccess.Condition.Reading
import DirectoryAccess.Proofs.Stack.Runs

/-!
# Negations of one element

A negation is about one element. Nothing but its settings sees to that: it begins with room for one
element and a minimum of one, and both can be changed at any time. As long as its capacity is never
set above one, and its minimum never below one, a valid negation has exactly one element, at every
depth and after any run; with wider bounds it need not.
-/
namespace DirectoryAccess

variable {α : Type} [Element α]

/-! ### Runs that change settings -/

/-- What can be set of a stack at any time. Its kind and its category cannot. -/
inductive Setting where
  | nesting (allowed : Bool)
  | capacity (n : Nat)
  | minimum (n : Nat)
  | delimiter (d : Delimiter)
  | quoting (q : Quoting)
  | padded (b : Bool)
  | parenthesized (b : Bool)
  | uniqueness (u : Uniqueness)

namespace Stack

/-- An empty stack with the settings that stacks of its kind begin with. -/
def ofKind (kind : StackKind) (category : Category) : Stack α where
  settings := { kind, category }

def change (s : Stack α) : Setting → Stack α
  | .nesting b => s.setNesting b
  | .capacity n => s.setCapacity n
  | .minimum n => s.setMinimum n
  | .delimiter d => s.setDelimiter d
  | .quoting q => s.setQuoting q
  | .padded b => s.setPadded b
  | .parenthesized b => s.setParenthesized b
  | .uniqueness u => s.setUniqueness u

/-- What can be done to a stack from outside, if its settings can be changed, too. -/
inductive Step (α : Type) where
  | perform (op : Operation α)
  | change (setting : Setting)

namespace Step

def nodes : Step α → List (Node α)
  | perform op => op.nodes
  | change _ => []

/-- The step sets no capacity above the limit, and no minimum below the least one. -/
def Within (limit least : Nat) : Step α → Prop
  | change (.capacity n) => n ≤ limit
  | change (.minimum n) => least ≤ n
  | _ => True

end Step

def take (s : Stack α) : Step α → Stack α
  | .perform op => (s.perform op).2
  | .change setting => s.change setting

/-- The stack after the steps, one after the other. -/
def follow (s : Stack α) (steps : List (Step α)) : Stack α :=
  steps.foldl take s

/-! ### What an operation does to the number of elements -/

theorem size_push_le (s : Stack α) (x : Node α) {n : Nat} (hn : n ∈ s.settings.capacity) :
    (s.push x).size ≤ max s.size n := by
  rw [push_eq]
  cases h : s.push? x with
  | error e => exact Nat.le_max_left _ _
  | ok t =>
    have room := (push?_eq_ok_iff_checks.mp h).1
    have free := Settings.checkRoom_eq_ok_iff.mp room n hn
    have after : t.size = s.size + 1 := by
      rw [elements_of_push? h]
      simp [size]
    show t.size ≤ _
    omega

theorem size_pushAll_le (s : Stack α) (xs : List (Node α)) {n : Nat}
    (hn : n ∈ s.settings.capacity) : (s.pushAll xs).size ≤ max s.size n := by
  induction xs generalizing s with
  | nil => exact Nat.le_max_left _ _
  | cons x xs ih =>
    -- The room for the others is that of the stack at first, since its settings stay.
    have first := s.size_push_le x hn
    have same := (s.keeps_push x).settings
    have others : ((s.push x).pushAll xs).size ≤ max (s.push x).size n :=
      ih (s.push x) (same ▸ hn)
    show ((s.push x).pushAll xs).size ≤ _
    omega

theorem size_of_replace? {s t : Stack α} {i : Nat} {x old : Node α}
    (h : s.replace? i x = .ok (old, t)) : t.size = s.size := by
  obtain ⟨_, _, rfl⟩ := replace?_eq_ok_iff.mp h
  exact List.length_set

omit [Element α] in
theorem size_le_of_remove? {s t : Stack α} {i : Nat} {x : Node α}
    (h : s.remove? i = some (x, t)) : t.size ≤ s.size := by
  obtain ⟨_, rfl⟩ := remove?_eq_some_iff.mp h
  exact (List.eraseIdx_sublist s.elements i).length_le

omit [Element α] in
theorem size_le_of_pop? {s t : Stack α} {x : Node α} (h : s.pop? = some (x, t)) :
    t.size ≤ s.size := by
  obtain ⟨_, rfl⟩ := pop?_eq_some_iff.mp h
  exact (List.dropLast_sublist s.elements).length_le

/-- An operation leaves no more elements than there have been, or than there is room for. -/
theorem size_perform_le (s : Stack α) (op : Operation α) {n : Nat}
    (hn : n ∈ s.settings.capacity) : (s.perform op).2.size ≤ max s.size n := by
  cases op with
  | push x => exact s.size_push_le x hn
  | adding x => exact s.size_push_le x hn
  | pushAll xs =>
    rw [perform_pushAll]
    exact s.size_pushAll_le xs hn
  | tryPush x =>
    rw [perform_tryPush_snd]
    exact s.size_push_le x hn
  | replace i x =>
    rw [perform_replace]
    split
    · next h => exact Nat.le_trans (Nat.le_of_eq (size_of_replace? h)) (Nat.le_max_left _ _)
    · exact Nat.le_max_left _ _
  | tryReplace i x =>
    rw [perform_tryReplace]
    split
    · next h => exact Nat.le_trans (Nat.le_of_eq (size_of_replace? h)) (Nat.le_max_left _ _)
    · exact Nat.le_max_left _ _
  | remove i =>
    rw [perform_remove]
    split
    · next h => exact Nat.le_trans (size_le_of_remove? h) (Nat.le_max_left _ _)
    · exact Nat.le_max_left _ _
  | pop =>
    rw [perform_pop]
    split
    · next h => exact Nat.le_trans (size_le_of_pop? h) (Nat.le_max_left _ _)
    · exact Nat.le_max_left _ _

/-! ### One step -/

/-- What has room for one element at most, asks for one at least, and has no more than one. -/
structure Narrow (s : Stack α) : Prop where
  capacity : ∃ n ∈ s.settings.capacity, n ≤ 1
  minimum : 1 ≤ s.settings.minimum
  size : s.size ≤ 1

theorem kind_take (s : Stack α) (step : Step α) :
    (s.take step).settings.kind = s.settings.kind := by
  cases step with
  | perform op => exact congrArg Settings.kind (s.keeps_perform op).settings
  | change setting => cases setting <;> rfl

theorem mem_take {s : Stack α} {step : Step α} {x : Node α} (hx : x ∈ (s.take step).elements) :
    x ∈ s.elements ∨ x ∈ step.nodes := by
  cases step with
  | perform op => exact (s.keeps_perform op).known x hx
  | change setting =>
    refine .inl ?_
    cases setting <;> exact hx

theorem Narrow.take {s : Stack α} (narrow : s.Narrow) {step : Step α} {limit least : Nat}
    (within : step.Within limit least) (hlimit : limit ≤ 1) (hleast : 1 ≤ least) :
    (s.take step).Narrow := by
  obtain ⟨⟨n, hn, small⟩, minimum, size⟩ := narrow
  cases step with
  | perform op =>
    have same : (s.perform op).2.settings = s.settings := (s.keeps_perform op).settings
    have bound := s.size_perform_le op hn
    exact ⟨⟨n, same ▸ hn, small⟩, same ▸ minimum, by show (s.perform op).2.size ≤ 1; omega⟩
  | change setting =>
    cases setting with
    | capacity m => exact ⟨⟨m, rfl, Nat.le_trans within hlimit⟩, minimum, size⟩
    | minimum m => exact ⟨⟨n, hn, small⟩, Nat.le_trans hleast within, size⟩
    | _ => exact ⟨⟨n, hn, small⟩, minimum, size⟩

/-! ### Runs of steps -/

theorem kind_follow (s : Stack α) (steps : List (Step α)) :
    (s.follow steps).settings.kind = s.settings.kind := by
  induction steps generalizing s with
  | nil => rfl
  | cons step steps ih => exact (ih (s.take step)).trans (s.kind_take step)

theorem mem_follow {s : Stack α} {steps : List (Step α)} {x : Node α}
    (hx : x ∈ (s.follow steps).elements) :
    x ∈ s.elements ∨ ∃ step ∈ steps, x ∈ step.nodes := by
  induction steps generalizing s with
  | nil => exact .inl hx
  | cons step steps ih =>
    rcases ih hx with earlier | ⟨later, mem, brought⟩
    · refine (mem_take earlier).imp_right fun brought => ?_
      exact ⟨step, List.mem_cons_self, brought⟩
    · exact .inr ⟨later, List.mem_cons_of_mem step mem, brought⟩

theorem Narrow.follow {s : Stack α} (narrow : s.Narrow) {steps : List (Step α)}
    {limit least : Nat} (within : ∀ step ∈ steps, step.Within limit least) (hlimit : limit ≤ 1)
    (hleast : 1 ≤ least) : (s.follow steps).Narrow := by
  induction steps generalizing s with
  | nil => exact narrow
  | cons step steps ih =>
    obtain ⟨first, others⟩ := List.forall_mem_cons.mp within
    exact ih (narrow.take first hlimit hleast) others

omit [Element α] in
theorem narrow_ofKind_not (category : Category) : (ofKind .not category : Stack α).Narrow :=
  ⟨⟨1, rfl, Nat.le_refl 1⟩, Nat.le_refl 1, Nat.zero_le 1⟩

theorem Narrow.size_eq_one {s : Stack α} (narrow : s.Narrow) (valid : s.validate = .ok ()) :
    s.size = 1 := by
  have enough := ((validate_eq_ok_iff s).mp valid).1
  exact Nat.le_antisymm narrow.size (Nat.le_trans narrow.minimum enough)

end Stack

/-! ### Negations at every depth -/

namespace Node

/-- Values, and stacks that begin empty and are changed in any way, with such elements. Of a
negation, capacities are set up to the limit and minimums from the least one on; other stacks are
free. -/
inductive Made (limit least : Nat) : Node α → Prop
  | leaf (a : α) : Made limit least (.leaf a)
  | stack (kind : StackKind) (category : Category) (steps : List (Stack.Step α))
    (bounded : kind = .not → ∀ step ∈ steps, step.Within limit least)
    (each : ∀ step ∈ steps, ∀ x ∈ step.nodes, Made limit least x) :
    Made limit least ((Stack.ofKind kind category).follow steps).toNode

/-- Each valid negation within the element has exactly one element. -/
def NegatesOne (y : Node α) : Prop :=
  ∀ t es, (stack t es).Within y → t.kind = .not → (stack t es).validate = .ok () → es.length = 1

theorem Made.negatesOne {limit least : Nat} {y : Node α} (made : y.Made limit least)
    (hlimit : limit ≤ 1) (hleast : 1 ≤ least) : y.NegatesOne := by
  induction made with
  | leaf a => exact forall_within_leaf
  | stack kind category steps bounded each ih =>
    refine forall_within_stack_iff.mpr ⟨fun negation valid => ?_, fun x hx => ?_⟩
    · rw [Stack.kind_follow] at negation
      obtain rfl : kind = .not := negation
      have narrow := (Stack.narrow_ofKind_not category).follow (bounded rfl) hlimit hleast
      exact narrow.size_eq_one valid
    · obtain ⟨step, mem, brought⟩ := (Stack.mem_follow hx).resolve_left List.not_mem_nil
      exact ih step mem x brought

/-- An empty list is valid, so that it can be negated. -/
def emptyList : Node α :=
  (Stack.ofKind .list .bindRules).toNode

theorem made_emptyList (limit least : Nat) : (emptyList : Node α).Made limit least :=
  .stack .list .bindRules [] nofun nofun

/-- Valid negations made within the bounds have exactly one element each, at every depth, just when
the bounds leave no room for a second element and always ask for a first. -/
theorem made_negatesOne_iff {limit least : Nat} :
    (∀ y : Node α, y.Made limit least → y.NegatesOne) ↔ limit ≤ 1 ∧ 1 ≤ least := by
  constructor
  · intro all
    constructor
    · refine Nat.not_lt.mp fun wide => ?_
      -- Room for two, and two are pushed.
      let steps : List (Stack.Step α) :=
        [.change (.capacity 2), .perform (.pushAll [emptyList, emptyList])]
      have made : ((Stack.ofKind .not .bindRules).follow steps).toNode.Made limit least := by
        refine .stack .not .bindRules steps (fun _ => ?_) ?_
        · have room : 2 ≤ limit := wide
          simpa [steps, Stack.Step.Within] using room
        · simpa [steps, Stack.Step.nodes, Stack.Operation.nodes] using made_emptyList limit least
      have two := all _ made _ _ .self rfl rfl
      cases two
    · refine Nat.pos_of_ne_zero fun none => ?_
      let steps : List (Stack.Step α) := [.change (.minimum 0)]
      have made : ((Stack.ofKind .not .bindRules).follow steps).toNode.Made limit least := by
        refine .stack .not .bindRules steps (fun _ => ?_) ?_
        · simpa [steps, Stack.Step.Within] using none
        · simp [steps, Stack.Step.nodes]
      have zero := all _ made _ _ .self rfl rfl
      cases zero
  · rintro ⟨hlimit, hleast⟩ y made
    exact made.negatesOne hlimit hleast

end Node

/-- Two conditions in a negation with room for two, and none in one that asks for none, are valid.
What these are written as cannot be read. -/
theorem valid_negations_of_two_and_none :
    let strength (n : String) : BindRule := .leaf (.new (.bind .ssf) .equal (.value n))
    let both : Stack Condition :=
      (Stack.ofKind .not .bindRules).follow
        [.change (.capacity 2), .perform (.push (strength "1")), .perform (.push (strength "2"))]
    let neither : Stack Condition := (Stack.ofKind .not .bindRules).follow [.change (.minimum 0)]
    (both.validate = .ok () ∧ both.size = 2 ∧ both.render = "NOT ssf = \"1\" ssf = \"2\"" ∧
      (BindRule.read "NOT ssf = \"1\" ssf = \"2\"").toOption = none) ∧
    neither.validate = .ok () ∧ neither.size = 0 ∧ neither.render = "" ∧
      (BindRule.read "").toOption = none := by
  decide +kernel

end DirectoryAccess
