import DirectoryAccess.Proofs.Checks
import DirectoryAccess.Stack.Operation
import Mathlib.Data.List.Forall2

/-!
# Lawful stacks

A list of elements is lawful under given settings when each element is proper for itself, no two of
them collide, and there is room for all. Pushing elements one after the other succeeds just when
the list that comes of it is lawful.
-/
namespace DirectoryAccess

variable {α : Type} [Element α]

namespace Settings

/-- The element may stand in a stack of these settings, whatever stands beside it. -/
def Suits (s : Settings) (x : Node α) : Prop :=
  s.checkNesting x = .ok () ∧ x.validate = .ok () ∧ s.checkPlace x = .ok ()

/-- The second element may stand beside the first. -/
def Apart (s : Settings) (y x : Node α) : Prop :=
  s.checkUnique [y] x = .ok ()

/-- What pushing elements establishes and keeps. -/
structure Admits (s : Settings) (xs : List (Node α)) : Prop where
  room : ∀ n ∈ s.capacity, xs.length ≤ n
  proper : ∀ x ∈ xs, s.Suits x
  distinct : xs.Pairwise s.Apart

omit [Element α] in
theorem checkNesting_stack_eq_ok_iff {s t : Settings} {es : List (Node α)} :
    s.checkNesting (.stack t es) = .ok () ↔ s.nesting = true ∧ t.category = s.category := by
  unfold checkNesting
  dsimp only
  cases s.nesting with
  | false => simp
  | true => by_cases same : t.category = s.category <;> simp [same]

theorem checkPlace_eq_ok_iff {s : Settings} {x : Node α} :
    s.checkPlace x = .ok () ↔ ∀ k ∈ x.keyword, s.category.misplaced? k = none := by
  unfold checkPlace
  cases x.keyword with
  | none => simp
  | some k => cases h : s.category.misplaced? k <;> simp [h]

theorem checkUnique_eq_ok_iff {s : Settings} {others : List (Node α)} {x : Node α} :
    s.checkUnique others x = .ok () ↔ ∀ y ∈ others, s.Apart y x := by
  unfold Apart checkUnique
  cases s.uniqueness with
  | unrestricted => simp
  | byKeyword =>
    cases x.keyword with
    | none => simp
    | some k =>
      dsimp only
      cases h : others.any (fun y => y.keyword == some k) with
      | true =>
        obtain ⟨y, mem, same⟩ := List.any_eq_true.mp h
        simp only [if_true, reduceCtorEq, false_iff, not_forall]
        exact ⟨y, mem, by simp [same]⟩
      | false =>
        have differ := List.any_eq_false.mp h
        simp only [Bool.false_eq_true, if_false, true_iff]
        intro y mem
        simp [differ y mem]
  | byText =>
    dsimp only
    cases h : others.any (fun y => Text.sameWord y.render x.render) with
    | true =>
      obtain ⟨y, mem, same⟩ := List.any_eq_true.mp h
      simp only [if_true, reduceCtorEq, false_iff, not_forall]
      exact ⟨y, mem, by simp [same]⟩
    | false =>
      have differ := List.any_eq_false.mp h
      simp only [Bool.false_eq_true, if_false, true_iff]
      intro y mem
      simp [differ y mem]

theorem checkAdmission_eq_ok_iff {s : Settings} {others : List (Node α)} {x : Node α} :
    s.checkAdmission others x = .ok () ↔ s.Suits x ∧ ∀ y ∈ others, s.Apart y x := by
  unfold checkAdmission Suits
  rw [← checkUnique_eq_ok_iff]
  constructor
  · intro h
    obtain ⟨_, nesting, h₁⟩ := bind_eq_ok.mp h
    obtain ⟨_, valid, h₂⟩ := bind_eq_ok.mp h₁
    obtain ⟨_, place, unique⟩ := bind_eq_ok.mp h₂
    exact ⟨⟨nesting, valid, place⟩, unique⟩
  · rintro ⟨⟨nesting, valid, place⟩, unique⟩
    refine bind_eq_ok.mpr ⟨(), nesting, bind_eq_ok.mpr ⟨(), valid, ?_⟩⟩
    exact bind_eq_ok.mpr ⟨(), place, unique⟩

theorem checkRoom_eq_ok_iff {s : Settings} {count : Nat} :
    s.checkRoom count = .ok () ↔ ∀ n ∈ s.capacity, count < n := by
  unfold checkRoom
  cases s.capacity with
  | none => simp
  | some n =>
    by_cases h : n ≤ count
    · simp [h]
    · simp only [h, if_false, Option.mem_def, Option.some.injEq, forall_eq', true_iff]
      omega

theorem admits_nil {s : Settings} : s.Admits ([] : List (Node α)) :=
  ⟨fun n _ => Nat.zero_le n, by simp, .nil⟩

theorem Admits.of_append {s : Settings} {xs ys : List (Node α)} (h : s.Admits (xs ++ ys)) :
    s.Admits xs := by
  refine ⟨fun n hn => ?_, fun x hx => h.proper x (List.mem_append_left _ hx), ?_⟩
  · have := h.room n hn
    rw [List.length_append] at this
    omega
  · exact (List.pairwise_append.mp h.distinct).1

/-- Where there is always room and elements never collide, only the elements themselves matter. -/
theorem admits_iff_of_unrestricted {s : Settings} (capacity : s.capacity = none)
    (uniqueness : s.uniqueness = .unrestricted) {xs : List (Node α)} :
    s.Admits xs ↔ ∀ x ∈ xs, s.Suits x := by
  constructor
  · intro h
    exact h.proper
  · intro h
    refine ⟨?_, h, ?_⟩
    · rw [capacity]
      simp
    · refine List.pairwise_of_forall fun y x => ?_
      unfold Apart checkUnique
      rw [uniqueness]

end Settings

namespace Stack

/-- Every element may stand where it stands. -/
def Lawful (s : Stack α) : Prop :=
  s.settings.Admits s.elements

/-- An element is added just when the checks let it pass. -/
theorem push?_eq_ok_iff_checks {s t : Stack α} {x : Node α} :
    s.push? x = .ok t ↔
      s.settings.checkRoom s.size = .ok () ∧
        s.settings.checkAdmission s.elements x = .ok () ∧ t = ⟨s.settings, s.elements ++ [x]⟩ := by
  rw [push?_eq]
  simp only [bind_eq_ok, pure_eq_ok]
  constructor
  · rintro ⟨_, room, _, admission, rfl⟩
    exact ⟨room, admission, rfl⟩
  · rintro ⟨room, admission, rfl⟩
    exact ⟨(), room, (), admission, rfl⟩

theorem push?_eq_ok_iff {s t : Stack α} {x : Node α} (lawful : s.Lawful) :
    s.push? x = .ok t ↔ t = ⟨s.settings, s.elements ++ [x]⟩ ∧ t.Lawful := by
  rw [push?_eq_ok_iff_checks]
  constructor
  · rintro ⟨room, admission, rfl⟩
    obtain ⟨suits, apart⟩ := Settings.checkAdmission_eq_ok_iff.mp admission
    have room' := Settings.checkRoom_eq_ok_iff.mp room
    refine ⟨rfl, ?_, ?_, ?_⟩
    · intro n hn
      have := room' n hn
      simp only [List.length_append, List.length_singleton]
      unfold size at this
      omega
    · intro y hy
      rcases List.mem_append.mp hy with hy | hy
      · exact lawful.proper y hy
      · rw [List.mem_singleton.mp hy]
        exact suits
    · refine List.pairwise_append.mpr ⟨lawful.distinct, List.pairwise_singleton _ _, ?_⟩
      intro y hy z hz
      rw [List.mem_singleton.mp hz]
      exact apart y hy
  · rintro ⟨rfl, after⟩
    have room : s.settings.checkRoom s.size = .ok () := by
      refine Settings.checkRoom_eq_ok_iff.mpr fun n hn => ?_
      have := after.room n hn
      simp only [List.length_append, List.length_singleton] at this
      unfold size
      omega
    have admission : s.settings.checkAdmission s.elements x = .ok () := by
      refine Settings.checkAdmission_eq_ok_iff.mpr ⟨after.proper x (by simp), ?_⟩
      intro y hy
      exact (List.pairwise_append.mp after.distinct).2.2 y hy x (by simp)
    exact ⟨room, admission, rfl⟩

theorem pushAll?_eq_ok_iff {s t : Stack α} {xs : List (Node α)} (lawful : s.Lawful) :
    s.pushAll? xs = .ok t ↔ t = ⟨s.settings, s.elements ++ xs⟩ ∧ t.Lawful := by
  induction xs generalizing s with
  | nil =>
    simp only [pushAll?, Except.ok.injEq, List.append_nil]
    constructor
    · rintro rfl
      exact ⟨rfl, lawful⟩
    · rintro ⟨rfl, _⟩
      rfl
  | cons x xs ih =>
    rw [pushAll?, bind_eq_ok]
    constructor
    · rintro ⟨u, first, others⟩
      obtain ⟨rfl, lawful'⟩ := (push?_eq_ok_iff lawful).mp first
      obtain ⟨rfl, lawful''⟩ := (ih lawful').mp others
      exact ⟨by simp, lawful''⟩
    · rintro ⟨rfl, after⟩
      have split : s.elements ++ x :: xs = (s.elements ++ [x]) ++ xs := by simp
      have middle : Lawful ⟨s.settings, s.elements ++ [x]⟩ := by
        have whole : s.settings.Admits ((s.elements ++ [x]) ++ xs) := split ▸ after
        exact whole.of_append
      refine ⟨_, (push?_eq_ok_iff lawful).mpr ⟨rfl, middle⟩, (ih middle).mpr ⟨?_, after⟩⟩
      rw [split]

/-- Where no element is refused, none is left out. -/
theorem pushAll_of_pushAll? {s t : Stack α} {xs : List (Node α)} (h : s.pushAll? xs = .ok t) :
    s.pushAll xs = t := by
  induction xs generalizing s with
  | nil => exact Except.ok.inj h
  | cons x xs ih =>
    obtain ⟨u, first, others⟩ := bind_eq_ok.mp h
    have step : s.push x = u := by
      rw [push_eq, first]
    show (s.push x).pushAll xs = t
    rw [step]
    exact ih others

theorem foldlM_push_eq_pushAll? {ε β : Type} {node : β → Node α} {wrap : RuleError → ε}
    {bs : List β} {s r : Stack α} :
    bs.foldlM (fun s b => (s.push? (node b)).mapError wrap) s = .ok r ↔
      s.pushAll? (bs.map node) = .ok r := by
  induction bs generalizing s with
  | nil =>
    rw [List.foldlM_nil, pure_eq_ok, List.map_nil, pushAll?, Except.ok.injEq]
  | cons b bs ih =>
    rw [List.foldlM_cons, List.map_cons, pushAll?, bind_eq_ok, bind_eq_ok]
    simp only [mapError_eq_ok, ih]

/-- Filling an empty stack with what is made of the members of a list: every member has to give a
value, and the values have to be lawful together. -/
theorem fill_eq_ok_iff {ε τ : Type} {f : τ → Except ε α} {wrap : RuleError → ε}
    {settings : Settings} {ts : List τ} {r : Stack α} :
    ts.foldlM (fun (s : Stack α) t => do
      let a ← f t
      (s.push? (.leaf a)).mapError wrap) ⟨settings, []⟩ = .ok r ↔
      ∃ as, List.Forall₂ (fun t a => f t = .ok a) ts as ∧ r = ⟨settings, as.map .leaf⟩ ∧
        r.Lawful := by
  have lawful : Lawful (⟨settings, []⟩ : Stack α) := Settings.admits_nil
  rw [foldlM_bind_eq_ok_iff]
  simp only [foldlM_push_eq_pushAll?, pushAll?_eq_ok_iff lawful, List.nil_append]

end Stack

/-! ### Values without a keyword -/

/-- Where there is no keyword to be misplaced, a valid value suits every stack. -/
theorem Settings.suits_leaf_iff {s : Settings} {a : α} (keyless : Element.keyword a = none) :
    s.Suits (.leaf a) ↔ Element.validate a = .ok () := by
  have place : s.checkPlace (.leaf a) = .ok () := by
    unfold checkPlace
    rw [Node.keyword, keyless]
  constructor
  · rintro ⟨_, valid, _⟩
    exact valid
  · intro valid
    exact ⟨rfl, valid, place⟩

/-! ### Elements that differ in writing -/

theorem Settings.apart_iff_of_byText {s : Settings} (byText : s.uniqueness = .byText)
    {y x : Node α} : s.Apart y x ↔ Text.sameWord y.render x.render = false := by
  unfold Apart checkUnique
  rw [byText]
  cases h : Text.sameWord y.render x.render <;> simp [h]

/-- Whether values that have to differ in writing may stand together is a matter of each of them and
of what they are written as. -/
theorem Settings.admits_leaves_of_byText {s : Settings} (byText : s.uniqueness = .byText)
    {as : List α} :
    s.Admits (as.map .leaf) ↔ (∀ n ∈ s.capacity, as.length ≤ n) ∧ (∀ a ∈ as, s.Suits (.leaf a)) ∧
      (as.map Element.render).Pairwise (fun y x => Text.sameWord y x = false) := by
  have apart : (as.map Node.leaf).Pairwise s.Apart ↔
      (as.map Element.render).Pairwise (fun y x => Text.sameWord y x = false) := by
    rw [List.pairwise_map, List.pairwise_map]
    have same : ∀ a b : α, s.Apart (.leaf a) (.leaf b) ↔
        Text.sameWord (Element.render a) (Element.render b) = false := by
      intro a b
      rw [apart_iff_of_byText byText, Node.render, Node.render]
    simp only [same]
  constructor
  · rintro ⟨room, proper, distinct⟩
    exact ⟨by simpa using room, by simpa using proper, apart.mp distinct⟩
  · rintro ⟨room, proper, distinct⟩
    exact ⟨by simpa using room, by simpa using proper, apart.mpr distinct⟩

theorem Settings.admits_of_same_render {s : Settings} (byText : s.uniqueness = .byText)
    {as bs : List α} (suits : ∀ b ∈ bs, s.Suits (.leaf b))
    (same : as.map Element.render = bs.map Element.render) (h : s.Admits (as.map .leaf)) :
    s.Admits (bs.map .leaf) := by
  obtain ⟨room, _, distinct⟩ := (admits_leaves_of_byText byText).mp h
  have length : as.length = bs.length := by
    have lengths := congrArg List.length same
    rwa [List.length_map, List.length_map] at lengths
  exact (admits_leaves_of_byText byText).mpr ⟨length ▸ room, suits, same ▸ distinct⟩

/-! ### Lists of values -/

omit [Element α] in
theorem Stack.leaves_of_leaves {s : Settings} (as : List α) :
    Stack.leaves ⟨s, as.map .leaf⟩ = as := by
  unfold leaves
  rw [List.filterMap_map]
  exact List.filterMap_some

theorem parts_leaves (q : Quoting) (as : List α) :
    Node.parts q (as.map .leaf) = as.map (fun a => q.value (Element.render a)) := by
  rw [Node.parts_eq_map, List.map_map]
  rfl

theorem render_leaves {s : Settings} (list : s.kind = .list)
    (bare : s.parenthesized = false) (as : List α) :
    Stack.render ⟨s, as.map .leaf⟩ = (s.delimiter.written s.padded).intercalate
      (as.map (fun a => s.quoting.value (Element.render a))) := by
  rw [Stack.render_eq, parts_leaves, Settings.write]
  cases as with
  | nil => rfl
  | cons a as => simp [list, bare, Settings.join, enclosed]

theorem render_whole {s : Settings} (list : s.kind = .list) (bare : s.parenthesized = false)
    (whole : s.quoting = .whole) (as : List α) :
    Stack.render ⟨s, as.map .leaf⟩ =
      (s.delimiter.written s.padded).intercalate (as.map Element.render) := by
  rw [render_leaves list bare, whole]
  rfl

end DirectoryAccess
