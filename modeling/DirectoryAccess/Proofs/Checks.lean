import DirectoryAccess.Grammar.Whole
import Mathlib.Data.List.Forall2

/-!
# Chains of checks

When a chain of checks passes: each of its steps has to.
-/
namespace DirectoryAccess

variable {ε ε' α β : Type}

theorem bind_eq_ok {x : Except ε α} {f : α → Except ε β} {b : β} :
    (x >>= f) = .ok b ↔ ∃ a, x = .ok a ∧ f a = .ok b := by
  cases x with
  | error e => simp [bind, Except.bind]
  | ok a => simp [bind, Except.bind]

theorem pure_eq_ok {a b : α} : (pure a : Except ε α) = .ok b ↔ a = b := by
  show Except.ok a = .ok b ↔ _
  simp

@[simp] theorem mapError_eq_ok {x : Except ε α} {f : ε → ε'} {a : α} :
    x.mapError f = .ok a ↔ x = .ok a := by
  cases x <;> simp [Except.mapError]

theorem map_eq_ok {x : Except ε α} {f : α → β} {b : β} :
    x.map f = .ok b ↔ ∃ a, x = .ok a ∧ f a = b := by
  cases x <;> simp [Except.map]

/-- What a check of the outcome tells, where the check can only pass on a value. -/
theorem exists_ok_of_any {x : Except ε α} {p : α → Bool} (h : x.toOption.any p = true) :
    ∃ a, x = .ok a ∧ p a = true := by
  cases x with
  | error e => cases h
  | ok a => exact ⟨a, rfl, h⟩

/-- A check that refuses under a condition, in front of other checks. -/
theorem unless_throw_eq_ok {p : Prop} [Decidable p] {e : ε} {f : β → Except ε α}
    {x : Except ε α} {a : α} :
    (if p then (throw e : Except ε β) >>= f else x) = .ok a ↔ ¬ p ∧ x = .ok a := by
  by_cases h : p
  · simp [h, bind, Except.bind, throw, throwThe, MonadExceptOf.throw]
  · simp [h]

/-- Steps that each take a part of the input: every part has to be read, and the steps have to pass
with what is read. -/
theorem foldlM_bind_eq_ok_iff {τ σ : Type} {f : τ → Except ε α} {g : σ → α → Except ε σ}
    {ts : List τ} {s r : σ} :
    ts.foldlM (fun s t => do
      let a ← f t
      g s a) s = .ok r ↔
      ∃ as, List.Forall₂ (fun t a => f t = .ok a) ts as ∧ as.foldlM g s = .ok r := by
  induction ts generalizing s with
  | nil =>
    constructor
    · intro h
      exact ⟨[], .nil, h⟩
    · rintro ⟨as, read, passed⟩
      cases read
      exact passed
  | cons t ts ih =>
    rw [List.foldlM_cons, bind_eq_ok]
    constructor
    · rintro ⟨u, first, others⟩
      obtain ⟨a, read, passed⟩ := bind_eq_ok.mp first
      obtain ⟨as, read', passed'⟩ := ih.mp others
      exact ⟨a :: as, .cons read read', bind_eq_ok.mpr ⟨u, passed, passed'⟩⟩
    · rintro ⟨_, read, passed⟩
      cases read with
      | @cons _ a _ as read read' =>
        obtain ⟨u, first, others⟩ := bind_eq_ok.mp passed
        exact ⟨u, bind_eq_ok.mpr ⟨a, read, first⟩, ih.mpr ⟨as, read', others⟩⟩

theorem exists_of_forall₂ {R : α → β → Prop} {as : List α} {bs : List β}
    (h : List.Forall₂ R as bs) {b : β} (hb : b ∈ bs) : ∃ a ∈ as, R a b := by
  induction h with
  | nil => cases hb
  | @cons a b' as bs first _ ih =>
    rcases List.mem_cons.mp hb with rfl | hb
    · exact ⟨a, by simp, first⟩
    · obtain ⟨a', mem, made⟩ := ih hb
      exact ⟨a', List.mem_cons_of_mem a mem, made⟩

theorem forall_of_forall₂ {R : α → β → Prop} {P : β → Prop} {as : List α} {bs : List β}
    (h : List.Forall₂ R as bs) (imp : ∀ a ∈ as, ∀ b, R a b → P b) : ∀ b ∈ bs, P b := by
  intro b hb
  obtain ⟨a, ha, made⟩ := exists_of_forall₂ h hb
  exact imp a ha b made

theorem map_eq_of_forall₂ {γ : Type} {R : α → β → Prop} {f : α → γ} {g : β → γ} {as : List α}
    {bs : List β} (h : List.Forall₂ R as bs) (same : ∀ a ∈ as, ∀ b, R a b → f a = g b) :
    as.map f = bs.map g := by
  induction h with
  | nil => rfl
  | cons made _ ih =>
    obtain ⟨first, others⟩ := List.forall_mem_cons.mp same
    rw [List.map_cons, List.map_cons, first _ made, ih others]

/-- Where each member can be changed so that the same is made of it, so can the list. -/
theorem forall₂_map_of_forall₂ {R : α → β → Prop} {P : α → Prop} {f : α → α} {as : List α}
    {bs : List β} (h : List.Forall₂ R as bs)
    (change : ∀ a ∈ as, ∀ b, R a b → P (f a) ∧ R (f a) b) :
    (∀ a ∈ as.map f, P a) ∧ List.Forall₂ R (as.map f) bs := by
  induction h with
  | nil => exact ⟨by simp, .nil⟩
  | cons made _ ih =>
    obtain ⟨first, others⟩ := List.forall_mem_cons.mp change
    obtain ⟨property, again⟩ := first _ made
    obtain ⟨properties, rest⟩ := ih others
    exact ⟨List.forall_mem_cons.mpr ⟨property, properties⟩, .cons again rest⟩

/-- Where something can be made of each member, a list can be made of the list. -/
theorem exists_forall₂ {R : α → β → Prop} {as : List α} (h : ∀ a ∈ as, ∃ b, R a b) :
    ∃ bs, List.Forall₂ R as bs := by
  induction as with
  | nil => exact ⟨[], .nil⟩
  | cons a as ih =>
    obtain ⟨⟨b, first⟩, others⟩ := List.forall_mem_cons.mp h
    obtain ⟨bs, rest⟩ := ih others
    exact ⟨b :: bs, .cons first rest⟩

theorem exists_forall₂_iff {R : α → β → Prop} {as : List α} :
    (∃ bs, List.Forall₂ R as bs) ↔ ∀ a ∈ as, ∃ b, R a b := by
  refine ⟨?_, exists_forall₂⟩
  rintro ⟨bs, h⟩ a ha
  obtain ⟨b, _, made⟩ := exists_of_forall₂ (R := flip R) h.flip ha
  exact ⟨b, made⟩

/-- What is made of each member in two steps is made of the list in two steps. -/
theorem exists_forall₂_forall₂_iff {γ : Type} {R : α → β → Prop} {S : β → γ → Prop} {as : List α}
    {cs : List γ} :
    (∃ bs, List.Forall₂ R as bs ∧ List.Forall₂ S bs cs) ↔
      List.Forall₂ (fun a c => ∃ b, R a b ∧ S b c) as cs := by
  constructor
  · rintro ⟨bs, first, second⟩
    induction first generalizing cs with
    | nil =>
      cases second
      exact .nil
    | cons made _ ih =>
      cases second with
      | cons made' second' => exact .cons ⟨_, made, made'⟩ (ih second')
  · intro both
    induction both with
    | nil => exact ⟨[], .nil, .nil⟩
    | cons step _ ih =>
      obtain ⟨b, made, made'⟩ := step
      obtain ⟨bs, first, second⟩ := ih
      exact ⟨b :: bs, .cons made first, .cons made' second⟩

/-- Where for each member something with the same view can be made, it can for the list. -/
theorem exists_made_of_same {τ γ : Type} {P : τ → Prop} {make : τ → Except ε α} {view : α → γ}
    {as : List α} (h : ∀ a ∈ as, ∃ t b, P t ∧ make t = .ok b ∧ view b = view a) :
    ∃ ts bs, (∀ t ∈ ts, P t) ∧ List.Forall₂ (fun t b => make t = .ok b) ts bs ∧
      bs.map view = as.map view := by
  induction as with
  | nil => exact ⟨[], [], by simp, .nil, rfl⟩
  | cons a as ih =>
    obtain ⟨⟨t, b, property, made, same⟩, others⟩ := List.forall_mem_cons.mp h
    obtain ⟨ts, bs, properties, each, rest⟩ := ih others
    exact ⟨t :: ts, b :: bs, List.forall_mem_cons.mpr ⟨property, properties⟩, .cons made each,
      by rw [List.map_cons, List.map_cons, same, rest]⟩

theorem ne_nil_of_forall₂ {R : α → β → Prop} {as : List α} {bs : List β} (full : as ≠ [])
    (h : List.Forall₂ R as bs) : bs ≠ [] := by
  rintro rfl
  cases h
  exact full rfl

theorem mapM_eq_ok_iff {f : α → Except ε β} {as : List α} {bs : List β} :
    as.mapM f = .ok bs ↔ List.Forall₂ (fun a b => f a = .ok b) as bs := by
  induction as generalizing bs with
  | nil =>
    rw [List.mapM_nil, pure_eq_ok, List.forall₂_nil_left_iff, eq_comm]
  | cons a as ih =>
    rw [List.mapM_cons, bind_eq_ok, List.forall₂_cons_left_iff]
    constructor
    · rintro ⟨b, first, others⟩
      obtain ⟨bs', rest, made⟩ := bind_eq_ok.mp others
      exact ⟨b, bs', first, ih.mp rest, (pure_eq_ok.mp made).symm⟩
    · rintro ⟨b, bs', first, rest, rfl⟩
      exact ⟨b, first, bind_eq_ok.mpr ⟨bs', ih.mpr rest, rfl⟩⟩

theorem Grammar.readText_eq_ok {p : Grammar.Reader α} {text : List Char} {a : α} :
    p.readText text = .ok a ↔ p.readAll text = .ok a := by
  unfold Grammar.Reader.readText
  rw [mapError_eq_ok]

end DirectoryAccess
