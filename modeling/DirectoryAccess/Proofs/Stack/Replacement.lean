import DirectoryAccess.Condition.Basic
import DirectoryAccess.Proofs.Stack.Runs

/-!
# Replacing an element

An element gives way to another one just when the other one could be pushed onto the stack without
the first, and for the same cause it is refused. The check for a replacement leaves out the place
that becomes free and does not ask for room; that this comes to the same needs that the stack has
not been too full before, which holds of every stack that is only changed by its operations. Such a
stack holds nothing that it would not admit again, so each element can be replaced by itself.
-/
namespace DirectoryAccess

variable {α : Type} [Element α]

namespace Stack

variable {s : Stack α} {i : Nat} {x old : Node α}

/-- The stack with the element at the index exchanged for another one. -/
def exchange (s : Stack α) (i : Nat) (x : Node α) : Stack α :=
  { s with elements := s.elements.set i x }

/-- The second stack has the element at the index, and all else as the first has it. -/
structure DiffersAt (s t : Stack α) (i : Nat) (x : Node α) : Prop where
  settings : t.settings = s.settings
  size : t.size = s.size
  here : t.get? i = some x
  elsewhere : ∀ j, j ≠ i → t.get? j = s.get? j

omit [Element α] in
theorem differsAt_exchange (inside : i < s.size) (x : Node α) :
    s.DiffersAt (s.exchange i x) i x where
  settings := rfl
  size := List.length_set
  here := List.getElem?_set_self inside
  elsewhere _ other := List.getElem?_set_ne other.symm

omit [Element α] in
theorem exchange_self (present : s.get? i = some old) : s.exchange i old = s := by
  obtain ⟨inside, same⟩ := List.getElem?_eq_some_iff.mp present
  unfold exchange
  rw [← same, List.set_getElem_self]

/-! ### The stack without the element -/

omit [Element α] in
theorem remove?_of_get? (present : s.get? i = some old) :
    s.remove? i = some (old, ⟨s.settings, s.elements.eraseIdx i⟩) := by
  rw [remove?_eq, show s.elements[i]? = some old from present]
  rfl

theorem replace?_of_get? (present : s.get? i = some old) (x : Node α) :
    s.replace? i x =
      (s.settings.checkAdmission (s.elements.eraseIdx i) x).map fun _ => (old, s.exchange i x) := by
  rw [replace?_eq, show s.elements[i]? = some old from present]
  cases s.settings.checkAdmission (s.elements.eraseIdx i) x <;> rfl

theorem replace?_of_size_le (outside : s.size ≤ i) (x : Node α) :
    s.replace? i x = .error (.noElement i) := by
  rw [replace?_eq, List.getElem?_eq_none outside]

/-- Where there is room, only the admission decides on a push. -/
theorem push?_of_room (room : s.settings.checkRoom s.size = .ok ()) (x : Node α) :
    s.push? x = (s.settings.checkAdmission s.elements x).map fun _ =>
      ⟨s.settings, s.elements ++ [x]⟩ := by
  rw [push?_eq, room]
  cases s.settings.checkAdmission s.elements x <;> rfl

/-- An element that leaves makes room. -/
theorem Lawful.room_without (lawful : s.Lawful) (inside : i < s.size) :
    s.settings.checkRoom (s.elements.eraseIdx i).length = .ok () := by
  refine Settings.checkRoom_eq_ok_iff.mpr fun n hn => ?_
  have bound : s.size ≤ n := lawful.room n hn
  have fewer : (s.elements.eraseIdx i).length = s.size - 1 := List.length_eraseIdx_of_lt inside
  omega

theorem Lawful.replace?_eq (lawful : s.Lawful) (present : s.get? i = some old) (x : Node α) :
    s.replace? i x =
      (push? ⟨s.settings, s.elements.eraseIdx i⟩ x).map fun _ => (old, s.exchange i x) := by
  have inside : i < s.size := (List.getElem?_eq_some_iff.mp present).1
  rw [replace?_of_get? present, push?_of_room (lawful.room_without inside)]
  cases s.settings.checkAdmission (s.elements.eraseIdx i) x <;> rfl

/-! ### An element and itself -/

/-- What stands in a lawful stack may stand beside all that is left without it. -/
theorem Lawful.admission_without (lawful : s.Lawful) (present : s.get? i = some old) :
    s.settings.checkAdmission (s.elements.eraseIdx i) old = .ok () := by
  obtain ⟨inside, same⟩ := List.getElem?_eq_some_iff.mp present
  have first : s.settings.Admits (old :: s.elements.eraseIdx i) := by
    have perm := List.set_perm_cons_eraseIdx inside old
    rw [← same, List.set_getElem_self] at perm
    exact Settings.Admits.perm lawful (same ▸ perm)
  refine Settings.checkAdmission_eq_ok_iff.mpr ⟨first.proper old List.mem_cons_self, ?_⟩
  intro y hy
  exact ((List.pairwise_cons.mp first.distinct).1 y hy).symm

theorem Lawful.replace?_self (lawful : s.Lawful) (present : s.get? i = some old) :
    s.replace? i old = .ok (old, s) := by
  rw [replace?_of_get? present, lawful.admission_without present, exchange_self present]
  rfl

/-! ### Runs -/

/-- In a stack that begins empty and is only changed by operations, an element at an index gives way
to another one just when that one can be pushed onto the stack without it, and is refused for the
same cause otherwise; the one that was there is answered, and nothing else changes. It always gives
way to itself. A refused replacement, also of what is not there, leaves the stack as it was. -/
theorem replacement_eq_push_without (settings : Settings) (ops : List (Operation α)) :
    let s : Stack α := run ⟨settings, []⟩ ops
    (∀ i < s.size, ∃ old rest, s.get? i = some old ∧ s.remove? i = some (old, rest) ∧
      (∀ x, s.replace? i x = (rest.push? x).map fun _ => (old, s.exchange i x)) ∧
      (∀ x, s.DiffersAt (s.exchange i x) i x) ∧
      s.replace? i old = .ok (old, s)) ∧
    (∀ i x, s.size ≤ i → s.replace? i x = .error (.noElement i)) ∧
    ∀ i x, ∀ op ∈ [Operation.replace i x, .tryReplace i x],
      (s.perform op).1.reportsFailure = true → (s.perform op).2 = s := by
  intro s
  have lawful : s.Lawful := lawful_run settings ops
  refine ⟨fun i inside => ?_, fun i x outside => replace?_of_size_le outside x,
    fun i x op _ failed => perform_of_failure failed⟩
  have present : s.get? i = some s.elements[i] := List.getElem?_eq_getElem inside
  refine ⟨s.elements[i], ⟨s.settings, s.elements.eraseIdx i⟩, present, remove?_of_get? present,
    lawful.replace?_eq present, differsAt_exchange inside, lawful.replace?_self present⟩

/-- A stack that is full, so that nothing can be pushed: an element still gives way to itself, but
not to one that is there already, and where there is no element nothing is replaced. -/
theorem replacement_in_full_stack :
    let strength : BindRule := .leaf (.new (.bind .ssf) .greaterOrEqual (.value "128"))
    let method : BindRule := .leaf (.new (.bind .authMethod) .equal (.value "SASL"))
    let settings : Settings :=
      { kind := .and, category := .bindRules, capacity := some 2, uniqueness := .byText }
    let s : Stack Condition := run ⟨settings, []⟩ [.push strength, .push method]
    (s.push? strength = .error (.full 2) ∧
      s.replace? 0 method = .error (.duplicateValue method.render)) ∧
    (0 < s.size ∧ ∃ old rest, s.get? 0 = some old ∧ s.remove? 0 = some (old, rest) ∧
      (∀ x, s.replace? 0 x = (rest.push? x).map fun _ => (old, s.exchange 0 x)) ∧
      (∀ x, s.DiffersAt (s.exchange 0 x) 0 x) ∧
      s.replace? 0 old = .ok (old, s)) ∧
    (s.size ≤ 2 ∧ s.replace? 2 method = .error (.noElement 2)) ∧
    (s.perform (.tryReplace 0 method)).1.reportsFailure = true ∧
      (s.perform (.tryReplace 0 method)).2 = s := by
  intro strength method settings s
  obtain ⟨inside, outside, unchanged⟩ :=
    replacement_eq_push_without settings [.push strength, .push method]
  have failed : (s.perform (.tryReplace 0 method)).1.reportsFailure = true := by decide +kernel
  refine ⟨by decide +kernel, ⟨by decide +kernel, inside 0 (by decide +kernel)⟩,
    ⟨by decide +kernel, outside 2 method (by decide +kernel)⟩, failed, ?_⟩
  exact unchanged 0 method (.tryReplace 0 method) (by simp) failed

end Stack

end DirectoryAccess
