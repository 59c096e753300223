import DirectoryAccess.Proofs.Stack.Runs

/-!
# Elements that are written alike

In a stack whose elements have to differ in writing, and which has room for any number of them,
elements of another such stack can be added just when none is written as one that is there.
Otherwise the first of those that are is refused.
-/
namespace DirectoryAccess

variable {α : Type} [Element α]

theorem Settings.admits_append_of_byText {s : Settings} (byText : s.uniqueness = .byText)
    (capacity : s.capacity = none) {xs ys : List (Node α)} :
    s.Admits (xs ++ ys) ↔ s.Admits xs ∧ s.Admits ys ∧
      ∀ x ∈ xs, ∀ y ∈ ys, Text.sameWord x.render y.render = false := by
  have apart : (∀ x ∈ xs, ∀ y ∈ ys, s.Apart x y) ↔
      ∀ x ∈ xs, ∀ y ∈ ys, Text.sameWord x.render y.render = false := by
    simp only [apart_iff_of_byText byText]
  rw [← apart]
  constructor
  · intro h
    exact ⟨h.sublist (List.sublist_append_left xs ys), h.sublist (List.sublist_append_right xs ys),
      (List.pairwise_append.mp h.distinct).2.2⟩
  · rintro ⟨first, second, apart⟩
    refine ⟨by simp [capacity], ?_,
      List.pairwise_append.mpr ⟨first.distinct, second.distinct, apart⟩⟩
    intro x hx
    rcases List.mem_append.mp hx with hx | hx
    · exact first.proper x hx
    · exact second.proper x hx

namespace Stack

variable {s : Stack α}

/-- Where elements have to differ in writing and there is always room, what suits the stack is
refused only if an element is written as it is. -/
theorem push?_of_byText {x : Node α} (byText : s.settings.uniqueness = .byText)
    (capacity : s.settings.capacity = none) (suits : s.settings.Suits x) :
    s.push? x =
      if s.elements.any (fun y => Text.sameWord y.render x.render) then
        .error (.duplicateValue x.render)
      else .ok ⟨s.settings, s.elements ++ [x]⟩ := by
  obtain ⟨nesting, valid, place⟩ := suits
  have room : s.settings.checkRoom s.size = .ok () := by
    unfold Settings.checkRoom
    rw [capacity]
  rw [push?_eq]
  unfold Settings.checkAdmission Settings.checkUnique
  rw [room, nesting, valid, place, byText]
  dsimp only
  split <;> rfl

theorem push?_of_duplicate {x y : Node α} (byText : s.settings.uniqueness = .byText)
    (capacity : s.settings.capacity = none) (suits : s.settings.Suits x) (there : y ∈ s.elements)
    (same : Text.sameWord y.render x.render = true) :
    s.push? x = .error (.duplicateValue x.render) := by
  rw [push?_of_byText byText capacity suits]
  exact if_pos (List.any_eq_true.mpr ⟨y, there, same⟩)

theorem pushAll?_of_apart {xs : List (Node α)} (lawful : s.Lawful)
    (byText : s.settings.uniqueness = .byText) (capacity : s.settings.capacity = none)
    (admits : s.settings.Admits xs)
    (apart : ∀ y ∈ s.elements, ∀ x ∈ xs, Text.sameWord y.render x.render = false) :
    s.pushAll? xs = .ok ⟨s.settings, s.elements ++ xs⟩ :=
  (pushAll?_eq_ok_iff lawful).mpr
    ⟨rfl, (Settings.admits_append_of_byText byText capacity).mpr ⟨lawful, admits, apart⟩⟩

theorem pushAll?_of_duplicate {xs : List (Node α)} (lawful : s.Lawful)
    (byText : s.settings.uniqueness = .byText) (capacity : s.settings.capacity = none)
    (admits : s.settings.Admits xs)
    (clash : ∃ y ∈ s.elements, ∃ x ∈ xs, Text.sameWord y.render x.render = true) :
    ∃ x ∈ xs, (∃ y ∈ s.elements, Text.sameWord y.render x.render = true) ∧
      s.pushAll? xs = .error (.duplicateValue x.render) := by
  induction xs generalizing s with
  | nil =>
    obtain ⟨_, _, x, hx, _⟩ := clash
    cases hx
  | cons x xs ih =>
    have both : s.settings.Admits ([x] ++ xs) := admits
    obtain ⟨single, others, apart⟩ := (Settings.admits_append_of_byText byText capacity).mp both
    by_cases here : ∃ y ∈ s.elements, Text.sameWord y.render x.render = true
    · obtain ⟨y, hy, same⟩ := here
      refine ⟨x, by simp, ⟨y, hy, same⟩, ?_⟩
      rw [pushAll?, push?_of_duplicate byText capacity (single.proper x (by simp)) hy same]
      rfl
    · have lawful' : Lawful ⟨s.settings, s.elements ++ [x]⟩ := by
        refine (Settings.admits_append_of_byText byText capacity).mpr ⟨lawful, single, ?_⟩
        intro y hy z hz
        rw [List.mem_singleton.mp hz, Bool.eq_false_iff]
        exact fun same => here ⟨y, hy, same⟩
      have later : ∃ y ∈ s.elements ++ [x], ∃ z ∈ xs, Text.sameWord y.render z.render = true := by
        obtain ⟨y, hy, z, hz, same⟩ := clash
        rcases List.mem_cons.mp hz with rfl | hz
        · exact absurd ⟨y, hy, same⟩ here
        · exact ⟨y, List.mem_append_left _ hy, z, hz, same⟩
      obtain ⟨z, hz, ⟨y, hy, same⟩, refused⟩ := ih lawful' byText capacity others later
      -- The element that was just added is apart from those behind it.
      have old : y ∈ s.elements := by
        rcases List.mem_append.mp hy with hy | hy
        · exact hy
        · rw [apart y hy z hz] at same
          cases same
      refine ⟨z, List.mem_cons_of_mem x hz, ⟨y, old, same⟩, ?_⟩
      rw [pushAll?, (push?_eq_ok_iff lawful).mpr ⟨rfl, lawful'⟩]
      exact refused

end Stack

end DirectoryAccess
