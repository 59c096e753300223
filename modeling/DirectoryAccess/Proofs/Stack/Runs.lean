import DirectoryAccess.Condition.Basic
import DirectoryAccess.Proofs.Stack.Nesting
import DirectoryAccess.Proofs.Stack.Orderly
import Mathlib.Data.List.Perm.Basic

/-!
# Stacks that are only changed by their operations

A stack that begins empty and is changed by its operations alone, in any order, is lawful after each
of them. Where the same holds of every stack that is put into it, all stacks at every depth are
orderly: none is too full, nothing stands in the wrong place, and nothing collides. An operation
that reports a failure has changed nothing.
-/
namespace DirectoryAccess

variable {α : Type} [Element α]

/-! ### When elements may stand beside each other -/

namespace Settings

theorem Apart.symm {s : Settings} {y x : Node α} (h : s.Apart y x) : s.Apart x y := by
  cases uniqueness : s.uniqueness with
  | unrestricted =>
    unfold Apart checkUnique
    rw [uniqueness]
  | byKeyword =>
    rw [apart_iff_of_byKeyword uniqueness] at h ⊢
    intro k hx hy
    exact h k hy hx
  | byText =>
    rw [apart_iff_of_byText uniqueness] at h ⊢
    rwa [Text.sameWord_comm]

theorem Admits.sublist {s : Settings} {xs ys : List (Node α)} (h : s.Admits xs)
    (sub : ys.Sublist xs) : s.Admits ys where
  room n hn := Nat.le_trans sub.length_le (h.room n hn)
  proper x hx := h.proper x (sub.subset hx)
  distinct := h.distinct.sublist sub

/-- The order of the elements does not matter. -/
theorem Admits.perm {s : Settings} {xs ys : List (Node α)} (h : s.Admits xs)
    (perm : xs.Perm ys) : s.Admits ys where
  room n hn := perm.length_eq ▸ h.room n hn
  proper x hx := h.proper x (perm.mem_iff.mpr hx)
  distinct := (perm.pairwise_iff Apart.symm).mp h.distinct

/-- Where an element has left, there is room for another one that may stand beside the rest. -/
theorem Admits.set {s : Settings} {xs : List (Node α)} {i : Nat} {x : Node α} (h : s.Admits xs)
    (suits : s.Suits x) (apart : ∀ y ∈ xs.eraseIdx i, s.Apart y x) : s.Admits (xs.set i x) := by
  by_cases inside : i < xs.length
  · have rest : s.Admits (xs.eraseIdx i) := h.sublist (List.eraseIdx_sublist xs i)
    have joined : s.Admits (x :: xs.eraseIdx i) := by
      refine ⟨?_, List.forall_mem_cons.mpr ⟨suits, rest.proper⟩, ?_⟩
      · intro n hn
        have := h.room n hn
        rw [List.length_cons, List.length_eraseIdx_of_lt inside]
        omega
      · exact List.pairwise_cons.mpr ⟨fun y hy => (apart y hy).symm, rest.distinct⟩
    exact joined.perm (List.set_perm_cons_eraseIdx inside x).symm
  · rw [List.set_eq_of_length_le (by omega)]
    exact h

end Settings

namespace Stack

/-! ### Performing operations -/

theorem run_forM_push (xs : List (Node α)) (s : Stack α) :
    (xs.forM Action.push).run s = ((), s.pushAll xs) := by
  induction xs generalizing s with
  | nil => rfl
  | cons x xs ih => exact ih (s.push x)

theorem perform_pushAll (s : Stack α) (xs : List (Node α)) :
    s.perform (.pushAll xs) = (.silent, s.pushAll xs) := by
  show (Answer.silent, ((xs.forM Action.push).run s).2) = _
  rw [run_forM_push]

theorem perform_tryPush (s : Stack α) (x : Node α) :
    s.perform (.tryPush x) =
      match s.push? x with
      | .ok t => (.accepted, t)
      | .error e => (.refused e, s) := by
  refine ((Action.careful_tryPush x).run_bind _ s).trans ?_
  unfold push?
  cases (Action.tryPush x).outcome s <;> rfl

/-- The two ways of adding an element leave the same stack behind. -/
theorem perform_tryPush_snd (s : Stack α) (x : Node α) : (s.perform (.tryPush x)).2 = s.push x := by
  rw [perform_tryPush, push_eq]
  cases s.push? x <;> rfl

theorem run_replace (i : Nat) (x : Node α) (s : Stack α) :
    (Action.replace i x).run s =
      match s.replace? i x with
      | .ok (_, t) => (true, t)
      | .error _ => (false, s) := by
  refine ((Action.careful_tryReplace i x).run_bind _ s).trans ?_
  unfold replace?
  cases (Action.tryReplace i x).outcome s <;> rfl

theorem perform_replace (s : Stack α) (i : Nat) (x : Node α) :
    s.perform (.replace i x) =
      match s.replace? i x with
      | .ok (_, t) => (.replaced true, t)
      | .error _ => (.replaced false, s) := by
  show (Answer.replaced ((Action.replace i x).run s).1, ((Action.replace i x).run s).2) = _
  rw [run_replace]
  cases s.replace? i x <;> rfl

theorem perform_tryReplace (s : Stack α) (i : Nat) (x : Node α) :
    s.perform (.tryReplace i x) =
      match s.replace? i x with
      | .ok (old, t) => (.taken (some old), t)
      | .error e => (.refused e, s) := by
  refine ((Action.careful_tryReplace i x).run_bind _ s).trans ?_
  unfold replace?
  cases (Action.tryReplace i x).outcome s <;> rfl

theorem perform_remove (s : Stack α) (i : Nat) :
    s.perform (.remove i) =
      match s.remove? i with
      | some (x, t) => (.taken (some x), t)
      | none => (.taken none, s) := by
  show (Answer.taken ((Action.remove i).run s).1, ((Action.remove i).run s).2) = _
  rw [Action.run_remove, remove?_eq]
  cases s.elements[i]? <;> rfl

theorem perform_pop (s : Stack α) :
    s.perform .pop =
      match s.pop? with
      | some (x, t) => (.taken (some x), t)
      | none => (.taken none, s) := by
  show (Answer.taken s.elements.getLast?, (⟨s.settings, s.elements.dropLast⟩ : Stack α)) = _
  rw [pop?_eq]
  cases last : s.elements.getLast? with
  | none =>
    have none' : s.elements.dropLast = s.elements := by
      rw [List.getLast?_eq_none_iff.mp last, List.dropLast_nil]
    rw [none']
    rfl
  | some x => rfl

/-! ### One operation -/

/-- What every operation keeps: the settings stay, a lawful stack stays lawful, and an element that
is there afterwards was there before or has been brought along. -/
structure Keeps (s t : Stack α) (xs : List (Node α)) : Prop where
  settings : t.settings = s.settings
  lawful : s.Lawful → t.Lawful
  known : ∀ x ∈ t.elements, x ∈ s.elements ∨ x ∈ xs

theorem keeps_self (s : Stack α) (xs : List (Node α)) : s.Keeps s xs :=
  ⟨rfl, id, fun _ hx => .inl hx⟩

theorem Keeps.trans {s t u : Stack α} {xs ys : List (Node α)} (first : s.Keeps t xs)
    (second : t.Keeps u ys) : s.Keeps u (xs ++ ys) where
  settings := second.settings.trans first.settings
  lawful h := second.lawful (first.lawful h)
  known x hx := by
    rw [List.mem_append]
    rcases second.known x hx with between | brought
    · exact (first.known x between).imp_right .inl
    · exact .inr (.inr brought)

/-- Taking elements out keeps a stack lawful. -/
theorem keeps_sublist {s : Stack α} {ys : List (Node α)} (sub : ys.Sublist s.elements)
    (xs : List (Node α)) : s.Keeps ⟨s.settings, ys⟩ xs :=
  ⟨rfl, fun lawful => Settings.Admits.sublist lawful sub, fun _ hx => .inl (sub.subset hx)⟩

theorem replace?_eq_ok_iff {s t : Stack α} {i : Nat} {x old : Node α} :
    s.replace? i x = .ok (old, t) ↔
      s.elements[i]? = some old ∧ s.settings.checkAdmission (s.elements.eraseIdx i) x = .ok () ∧
        t = ⟨s.settings, s.elements.set i x⟩ := by
  rw [replace?_eq]
  cases present : s.elements[i]? with
  | none => simp
  | some y =>
    simp only [bind_eq_ok, pure_eq_ok, Prod.mk.injEq, Option.some.injEq]
    constructor
    · rintro ⟨_, admission, rfl, rfl⟩
      exact ⟨rfl, admission, rfl⟩
    · rintro ⟨rfl, admission, rfl⟩
      exact ⟨(), admission, rfl, rfl⟩

omit [Element α] in
/-- An element is handed out together with the stack that is left. -/
theorem map_left_eq_some_iff {o : Option (Node α)} {left t : Stack α} {x : Node α} :
    o.map (fun y => (y, left)) = some (x, t) ↔ o = some x ∧ t = left := by
  rw [Option.map_eq_some_iff]
  constructor
  · rintro ⟨_, present, same⟩
    obtain ⟨rfl, rfl⟩ := Prod.mk.inj same
    exact ⟨present, rfl⟩
  · rintro ⟨present, rfl⟩
    exact ⟨x, present, rfl⟩

omit [Element α] in
theorem remove?_eq_some_iff {s t : Stack α} {i : Nat} {x : Node α} :
    s.remove? i = some (x, t) ↔
      s.elements[i]? = some x ∧ t = ⟨s.settings, s.elements.eraseIdx i⟩ := by
  rw [remove?_eq, map_left_eq_some_iff]

omit [Element α] in
theorem pop?_eq_some_iff {s t : Stack α} {x : Node α} :
    s.pop? = some (x, t) ↔
      s.elements.getLast? = some x ∧ t = ⟨s.settings, s.elements.dropLast⟩ := by
  rw [pop?_eq, map_left_eq_some_iff]

theorem elements_of_push? {s t : Stack α} {x : Node α} (h : s.push? x = .ok t) :
    t = ⟨s.settings, s.elements ++ [x]⟩ :=
  (push?_eq_ok_iff_checks.mp h).2.2

theorem keeps_of_push? {s t : Stack α} {x : Node α} (h : s.push? x = .ok t) :
    s.Keeps t [x] := by
  have after := elements_of_push? h
  refine ⟨by rw [after], fun lawful => ((push?_eq_ok_iff lawful).mp h).2, ?_⟩
  intro y hy
  rw [after] at hy
  exact List.mem_append.mp hy

theorem keeps_push (s : Stack α) (x : Node α) : s.Keeps (s.push x) [x] := by
  rw [push_eq]
  cases h : s.push? x with
  | ok t => exact keeps_of_push? h
  | error e => exact s.keeps_self [x]

theorem keeps_pushAll (s : Stack α) (xs : List (Node α)) : s.Keeps (s.pushAll xs) xs := by
  induction xs generalizing s with
  | nil => exact s.keeps_self []
  | cons x xs ih =>
    have first := s.keeps_push x
    have others := ih (s.push x)
    exact first.trans others

/-- Where nothing nests, the elements of a lawful stack are values. -/
theorem elements_eq_leaves {s : Stack α} (lawful : s.Lawful) (flat : s.settings.nesting = false) :
    s.elements = s.leaves.map .leaf := by
  have leaf : ∀ x ∈ s.elements, ∃ a, x = .leaf a := by
    intro x hx
    cases x with
    | leaf a => exact ⟨a, rfl⟩
    | stack u fs =>
      have nests := (Settings.checkNesting_stack_eq_ok_iff.mp (lawful.proper _ hx).1).1
      rw [flat] at nests
      cases nests
  obtain ⟨as, values⟩ := exists_forall₂ leaf
  have elements := map_eq_of_forall₂ (f := id) values fun _ _ _ same => same
  rw [List.map_id] at elements
  unfold leaves
  rw [elements, List.filterMap_map]
  exact congrArg _ List.filterMap_some.symm

/-- Where nothing nests, pushing leaves values behind, and no others than have been pushed. -/
theorem exists_leaves_of_pushAll {s : Settings} (flat : s.nesting = false) (xs : List (Node α)) :
    ∃ as : List α, pushAll ⟨s, []⟩ xs = ⟨s, as.map .leaf⟩ ∧
      Lawful (⟨s, as.map .leaf⟩ : Stack α) ∧ ∀ a ∈ as, .leaf a ∈ xs := by
  have keeps := keeps_pushAll ⟨s, []⟩ xs
  cases made : pushAll ⟨s, []⟩ xs with
  | mk t es =>
    rw [made] at keeps
    obtain rfl : t = s := keeps.settings
    have lawful : Lawful (⟨t, es⟩ : Stack α) := keeps.lawful Settings.admits_nil
    obtain ⟨as, rfl⟩ : ∃ as : List α, es = as.map .leaf := ⟨_, elements_eq_leaves lawful flat⟩
    refine ⟨as, rfl, lawful, fun a ha => ?_⟩
    exact (keeps.known _ (List.mem_map_of_mem ha)).resolve_left (by simp)

theorem keeps_of_replace? {s t : Stack α} {i : Nat} {x old : Node α}
    (h : s.replace? i x = .ok (old, t)) : s.Keeps t [x] := by
  obtain ⟨_, admission, rfl⟩ := replace?_eq_ok_iff.mp h
  obtain ⟨suits, apart⟩ := Settings.checkAdmission_eq_ok_iff.mp admission
  refine ⟨rfl, fun lawful => Settings.Admits.set lawful suits apart, ?_⟩
  intro z hz
  rcases List.mem_or_eq_of_mem_set hz with before | same
  · exact .inl before
  · exact .inr (List.mem_singleton.mpr same)

theorem keeps_of_remove? {s t : Stack α} {i : Nat} {x : Node α} (h : s.remove? i = some (x, t)) :
    s.Keeps t [] := by
  obtain ⟨_, rfl⟩ := remove?_eq_some_iff.mp h
  exact keeps_sublist (List.eraseIdx_sublist s.elements i) []

theorem keeps_of_pop? {s t : Stack α} {x : Node α} (h : s.pop? = some (x, t)) :
    s.Keeps t [] := by
  obtain ⟨_, rfl⟩ := pop?_eq_some_iff.mp h
  exact keeps_sublist (List.dropLast_sublist s.elements) []

/-- The step lemma: whatever is done to a stack, and whatever comes of it. -/
theorem keeps_perform (s : Stack α) (op : Operation α) : s.Keeps (s.perform op).2 op.nodes := by
  cases op with
  | push x => exact s.keeps_push x
  | adding x => exact s.keeps_push x
  | pushAll xs =>
    rw [perform_pushAll]
    exact s.keeps_pushAll xs
  | tryPush x =>
    rw [perform_tryPush_snd]
    exact s.keeps_push x
  | replace i x =>
    rw [perform_replace]
    split
    · next h => exact keeps_of_replace? h
    · exact s.keeps_self [x]
  | tryReplace i x =>
    rw [perform_tryReplace]
    split
    · next h => exact keeps_of_replace? h
    · exact s.keeps_self [x]
  | remove i =>
    rw [perform_remove]
    split
    · next h => exact keeps_of_remove? h
    · exact s.keeps_self []
  | pop =>
    rw [perform_pop]
    split
    · next h => exact keeps_of_pop? h
    · exact s.keeps_self []

/-- An operation that reports a failure has changed nothing. -/
theorem perform_of_failure {s : Stack α} {op : Operation α}
    (failed : (s.perform op).1.reportsFailure = true) : (s.perform op).2 = s := by
  cases op with
  | push | adding => cases failed
  | pushAll xs =>
    rw [perform_pushAll] at failed
    cases failed
  | tryPush | replace | tryReplace | remove | pop =>
    simp only [perform_tryPush, perform_replace, perform_tryReplace, perform_remove,
      perform_pop] at failed ⊢
    split at failed
    · cases failed
    · rfl

/-! ### Runs -/

theorem keeps_run (s : Stack α) (ops : List (Operation α)) :
    s.Keeps (s.run ops) (ops.flatMap Operation.nodes) := by
  induction ops generalizing s with
  | nil => exact s.keeps_self []
  | cons op ops ih =>
    have first := s.keeps_perform op
    have others := ih (s.perform op).2
    rw [List.flatMap_cons]
    exact first.trans others

end Stack

/-- Values, and stacks that begin empty and are changed by their operations alone, with such
elements. -/
inductive Node.Built : Node α → Prop
  | leaf (a : α) : Built (.leaf a)
  | stack (settings : Settings) (ops : List (Stack.Operation α))
    (each : ∀ op ∈ ops, ∀ x ∈ op.nodes, Built x) : Built (Stack.run ⟨settings, []⟩ ops).toNode

namespace Stack

theorem lawful_run (settings : Settings) (ops : List (Operation α)) :
    (run ⟨settings, []⟩ ops).Lawful :=
  (keeps_run _ ops).lawful Settings.admits_nil

/-- Every stack in what is built by operations is lawful. -/
theorem lawful_of_built {y : Node α} (built : y.Built) {t : Settings} {es : List (Node α)}
    (within : (Node.stack t es).Within y) : Lawful ⟨t, es⟩ := by
  induction built with
  | leaf a => cases Node.within_leaf_iff.mp within
  | stack settings ops each ih =>
    rcases Node.within_stack_iff.mp within with same | ⟨y, mem, deeper⟩
    · obtain ⟨rfl, rfl⟩ := Node.stack.inj same
      exact lawful_run settings ops
    · rcases (keeps_run ⟨settings, []⟩ ops).known y mem with none | brought
      · cases none
      · obtain ⟨op, hop, hy⟩ := List.mem_flatMap.mp brought
        exact ih op hop y hy deeper

/-! ### Runs are orderly -/

/-- Where all stacks inside are lawful, they all are of one category. -/
theorem category_of_within {t : Settings} {es : List (Node α)} {y : Node α}
    (within : (Node.stack t es).Within y) :
    ∀ s fs, y = .stack s fs →
      (∀ u gs, (Node.stack u gs).Within y → Lawful ⟨u, gs⟩) → t.category = s.category := by
  induction within with
  | self =>
    rintro s fs same _
    obtain ⟨rfl, _⟩ := Node.stack.inj same
    rfl
  | @inside s fs z mem within ih =>
    rintro s' fs' same lawful
    obtain ⟨rfl, rfl⟩ := Node.stack.inj same
    have outer : Lawful ⟨s, fs⟩ := lawful s fs .self
    have inner : ∀ u gs, (Node.stack u gs).Within z → Lawful ⟨u, gs⟩ :=
      fun u gs deeper => lawful u gs (.inside mem deeper)
    cases z with
    | leaf a => cases Node.within_leaf_iff.mp within
    | stack u gs => exact (ih u gs rfl inner).trans (outer.orderly.nesting u gs mem).2

/-- A stack that begins empty and is changed by any operations, with elements whose stacks have been
made in the same way, is orderly at every depth, and its stacks are all of its category. An
operation that reports a failure leaves it as it is. -/
theorem orderly_run (settings : Settings) (ops : List (Operation α))
    (built : ∀ op ∈ ops, ∀ x ∈ op.nodes, x.Built) :
    (∀ t es, (Node.stack t es).Within (run ⟨settings, []⟩ ops).toNode →
      t.category = settings.category ∧ Orderly ⟨t, es⟩) ∧
    ∀ op, ((run ⟨settings, []⟩ ops).perform op).1.reportsFailure = true →
      ((run ⟨settings, []⟩ ops).perform op).2 = run ⟨settings, []⟩ ops := by
  have kept : (run ⟨settings, []⟩ ops).settings = settings := (keeps_run _ ops).settings
  have lawful : ∀ t es, (Node.stack t es).Within (run ⟨settings, []⟩ ops).toNode →
      Lawful ⟨t, es⟩ := fun t es within => lawful_of_built (.stack settings ops built) within
  refine ⟨fun t es within => ⟨?_, (lawful t es within).orderly⟩, fun op => perform_of_failure⟩
  rw [category_of_within within _ _ rfl lawful, kept]

/-- A conjunction with a disjunction inside, after a run in which some operations are refused: an
element that is there already, one for which there is no room, and one that would be there twice. -/
theorem orderly_run_with_refusals :
    let strength : BindRule := .leaf (.new (.bind .ssf) .greaterOrEqual (.value "128"))
    let method : BindRule := .leaf (.new (.bind .authMethod) .equal (.value "SASL"))
    let inner : Settings := { kind := .or, category := .bindRules }
    let either : BindRule := (run ⟨inner, []⟩ [.push strength, .adding method]).toNode
    let outer : Settings :=
      { kind := .and, category := .bindRules, capacity := some 2, uniqueness := .byText }
    let ops : List (Operation Condition) :=
      [.push strength, .tryPush strength, .adding either, .pushAll [method], .tryReplace 0 either,
        .replace 0 method, .remove 7]
    (run ⟨outer, []⟩ ops).elements = [method, either] ∧
      (∀ t es, (Node.stack t es).Within (run ⟨outer, []⟩ ops).toNode →
        t.category = outer.category ∧ Orderly ⟨t, es⟩) ∧
      ∀ op, ((run ⟨outer, []⟩ ops).perform op).1.reportsFailure = true →
        ((run ⟨outer, []⟩ ops).perform op).2 = run ⟨outer, []⟩ ops := by
  intro strength method inner either outer ops
  refine ⟨by decide +kernel, orderly_run outer ops ?_⟩
  have builtStrength : strength.Built := .leaf _
  have builtMethod : method.Built := .leaf _
  have builtEither : either.Built := by
    refine .stack inner _ ?_
    simpa [Operation.nodes] using ⟨builtStrength, builtMethod⟩
  simpa [ops, Operation.nodes] using
    ⟨builtStrength, builtEither, builtMethod, builtEither, builtMethod⟩

end Stack

end DirectoryAccess
