import DirectoryAccess.Proofs.Stack.Lawful

/-!
# Orderly stacks

What it means for a stack to be lawful, said by its settings: how many elements there may be, which
stacks may stand inside, which keywords belong there, and how far the elements have to differ.
-/
namespace DirectoryAccess

variable {α : Type} [Element α]

namespace Settings

theorem apart_iff_of_byKeyword {s : Settings} (byKeyword : s.uniqueness = .byKeyword)
    {y x : Node α} : s.Apart y x ↔ ∀ k ∈ y.keyword, x.keyword ≠ some k := by
  unfold Apart checkUnique
  rw [byKeyword]
  dsimp only
  cases x.keyword with
  | none => simp
  | some k =>
    by_cases same : y.keyword = some k
    · simp [same]
    · have differ : ∀ l, y.keyword = some l → k ≠ l := fun l hl eq => same (eq ▸ hl)
      simpa [same] using differ

/-- Values that have to differ in their keywords may stand together where others with the same
keywords may. -/
theorem admits_of_same_keyword {s : Settings} (byKeyword : s.uniqueness = .byKeyword)
    {as bs : List α} (suits : ∀ b ∈ bs, s.Suits (.leaf b))
    (same : bs.map Element.keyword = as.map Element.keyword) (h : s.Admits (as.map .leaf)) :
    s.Admits (bs.map .leaf) := by
  have apart : ∀ cs : List α, (cs.map Node.leaf).Pairwise s.Apart ↔
      (cs.map Element.keyword).Pairwise (fun j i => ∀ k ∈ j, i ≠ some k) := by
    intro cs
    rw [List.pairwise_map, List.pairwise_map]
    simp only [apart_iff_of_byKeyword byKeyword, Node.keyword]
  have length : bs.length = as.length := by
    have lengths := congrArg List.length same
    rwa [List.length_map, List.length_map] at lengths
  refine ⟨?_, by simpa using suits, ?_⟩
  · intro n hn
    have room := h.room n hn
    rw [List.length_map] at room ⊢
    omega
  · rw [apart, same, ← apart]
    exact h.distinct

end Settings

namespace Stack

/-- What a lawful stack keeps, said by its settings. -/
structure Orderly (s : Stack α) : Prop where
  room : ∀ n ∈ s.settings.capacity, s.size ≤ n
  nesting : ∀ t es, .stack t es ∈ s.elements →
    s.settings.nesting = true ∧ t.category = s.settings.category
  targets : s.settings.category = .targetRules → ∀ x ∈ s.elements, ∀ k, x.keyword ≠ some (.bind k)
  binds : s.settings.category = .bindRules → ∀ x ∈ s.elements, ∀ k, x.keyword ≠ some (.target k)
  values : ∀ own, s.settings.category = .values own → ∀ x ∈ s.elements, ∀ k ∈ x.keyword, k = own
  keywords : s.settings.uniqueness = .byKeyword →
    s.elements.Pairwise (fun y x => ∀ k ∈ y.keyword, x.keyword ≠ some k)
  texts : s.settings.uniqueness = .byText →
    s.elements.Pairwise (fun y x => Text.sameWord y.render x.render = false)
  valid : ∀ x ∈ s.elements, x.validate = .ok ()
  populated : s.validate = .ok () ↔ s.settings.minimum ≤ s.size

theorem Lawful.orderly {s : Stack α} (lawful : s.Lawful) : s.Orderly where
  room := lawful.room
  nesting t es mem := Settings.checkNesting_stack_eq_ok_iff.mp (lawful.proper _ mem).1
  targets category x mem k bound := by
    have place := Settings.checkPlace_eq_ok_iff.mp (lawful.proper x mem).2.2 _ bound
    simp [category, Category.misplaced?, Keyword.isTarget] at place
  binds category x mem k bound := by
    have place := Settings.checkPlace_eq_ok_iff.mp (lawful.proper x mem).2.2 _ bound
    simp [category, Category.misplaced?, Keyword.isBind] at place
  values own category x mem k bound := by
    have place := Settings.checkPlace_eq_ok_iff.mp (lawful.proper x mem).2.2 _ bound
    simp only [category, Category.misplaced?, ite_eq_left_iff, reduceCtorEq, imp_false,
      not_not] at place
    exact place.symm
  keywords byKeyword :=
    lawful.distinct.imp fun apart => (Settings.apart_iff_of_byKeyword byKeyword).mp apart
  texts byText := lawful.distinct.imp fun apart => (Settings.apart_iff_of_byText byText).mp apart
  valid x mem := (lawful.proper x mem).2.1
  populated := by
    rw [validate_eq_ok_iff]
    exact and_iff_left fun x mem => (lawful.proper x mem).2.1

end Stack

end DirectoryAccess
