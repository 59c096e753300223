import DirectoryAccess.Stack.Admission

/-!
# Operations on a stack

The operations change a stack in place. What one of them has stored when it is refused stays stored:
nothing here puts the earlier stack back. That a refused operation leaves the stack as it was is due
to the order of its steps, which check everything before they store anything.
-/
namespace DirectoryAccess

namespace Stack

variable {α β γ : Type}

/-- What changes a stack in place, and can be refused on the way. -/
abbrev Action (α β : Type) := ExceptT RuleError (StateM (Stack α)) β

namespace Action

/-- How the action ends on the stack, and the stack that it leaves behind. -/
def on (a : Action α β) (s : Stack α) : Except RuleError β × Stack α :=
  a.run.run s

/-- What the action gives together with the stack after it, or the cause of its refusal. -/
def outcome (a : Action α β) (s : Stack α) : Except RuleError (β × Stack α) :=
  match a.on s with
  | (.ok b, t) => .ok (b, t)
  | (.error e, _) => .error e

theorem on_bind (a : Action α β) (f : β → Action α γ) (s : Stack α) :
    (a >>= f).on s =
      match a.on s with
      | (.ok b, t) => (f b).on t
      | (.error e, t) => (.error e, t) := by
  show StateT.run (ExceptT.bindCont f (a.on s).1) (a.on s).2 = _
  rcases a.on s with ⟨_ | _, t⟩
  · rfl
  · rfl

theorem on_get (s : Stack α) : (get : Action α (Stack α)).on s = (.ok s, s) :=
  rfl

theorem on_set (s t : Stack α) : (set t : Action α Unit).on s = (.ok (), t) :=
  rfl

theorem on_pure (b : β) (s : Stack α) : (pure b : Action α β).on s = (.ok b, s) :=
  rfl

theorem on_check (check : Except RuleError β) (s : Stack α) :
    (liftM check : Action α β).on s = (check, s) :=
  rfl

end Action

/-! ### Taking elements out -/

/-- Takes the last element out. -/
def Action.pop : StateM (Stack α) (Option (Node α)) := do
  let s ← get
  set { s with elements := s.elements.dropLast }
  return s.elements.getLast?

/-- Takes out the element at the index. -/
def Action.remove (i : Nat) : StateM (Stack α) (Option (Node α)) := do
  let s ← get
  match s.elements[i]? with
  | none => return none
  | some x =>
    set { s with elements := s.elements.eraseIdx i }
    return some x

theorem Action.run_pop (s : Stack α) :
    pop.run s = (s.elements.getLast?, ⟨s.settings, s.elements.dropLast⟩) :=
  rfl

theorem Action.run_remove (i : Nat) (s : Stack α) :
    (remove i).run s =
      match s.elements[i]? with
      | none => (none, s)
      | some x => (some x, ⟨s.settings, s.elements.eraseIdx i⟩) := by
  unfold remove
  rw [StateT.run_bind]
  show StateT.run (match s.elements[i]? with | none => _ | some x => _) s = _
  cases s.elements[i]? <;> rfl

/-- The last element and the stack without it. -/
def pop? (s : Stack α) : Option (Node α × Stack α) :=
  match Action.pop.run s with
  | (some x, t) => some (x, t)
  | (none, _) => none

/-- The element at the index and the stack without it. -/
def remove? (s : Stack α) (i : Nat) : Option (Node α × Stack α) :=
  match (Action.remove i).run s with
  | (some x, t) => some (x, t)
  | (none, _) => none

def get? (s : Stack α) (i : Nat) : Option (Node α) :=
  s.elements[i]?

theorem pop?_eq (s : Stack α) :
    s.pop? = s.elements.getLast?.map fun x => (x, ⟨s.settings, s.elements.dropLast⟩) := by
  unfold pop?
  rw [Action.run_pop]
  cases s.elements.getLast? <;> rfl

theorem remove?_eq (s : Stack α) (i : Nat) :
    s.remove? i = s.elements[i]?.map fun x => (x, ⟨s.settings, s.elements.eraseIdx i⟩) := by
  unfold remove?
  rw [Action.run_remove]
  cases s.elements[i]? <;> rfl

/-! ### Operations and what they answer -/

/-- What can be done to a stack from outside. -/
inductive Operation (α : Type) where
  | push (x : Node α)
  | tryPush (x : Node α)
  /-- The form of `push` that hands the stack on. -/
  | adding (x : Node α)
  | pushAll (xs : List (Node α))
  | replace (i : Nat) (x : Node α)
  | tryReplace (i : Nat) (x : Node α)
  | remove (i : Nat)
  | pop

/-- The elements that the operation brings along. -/
def Operation.nodes : Operation α → List (Node α)
  | push x | tryPush x | adding x | replace _ x | tryReplace _ x => [x]
  | pushAll xs => xs
  | remove _ | pop => []

/-- What an operation tells about its success. -/
inductive Answer (α : Type) where
  /-- Nothing at all. -/
  | silent
  | accepted
  | refused (cause : RuleError)
  /-- Whether an element has been replaced. -/
  | replaced (success : Bool)
  /-- The element that was there, if there was one. -/
  | taken (x : Option (Node α))

def Answer.reportsFailure : Answer α → Bool
  | refused _ | replaced false | taken none => true
  | silent | accepted | replaced true | taken (some _) => false

/-! ### Putting elements in -/

variable [Element α]

/-- Adds the element at the end. -/
def Action.tryPush (x : Node α) : Action α Unit := do
  let s ← get
  s.settings.checkRoom s.size
  s.settings.checkAdmission s.elements x
  set { s with elements := s.elements ++ [x] }

/-- Adds the element at the end, and does not tell whether it is refused. -/
def Action.push (x : Node α) : StateM (Stack α) Unit := do
  let _ ← (tryPush x).run

/-- Puts an element in the place of the one at the index, which is handed out. The new one has to be
admissible beside those that stay. -/
def Action.tryReplace (i : Nat) (x : Node α) : Action α (Node α) := do
  let s ← get
  match s.elements[i]? with
  | none => throw (.noElement i)
  | some old =>
    s.settings.checkAdmission (s.elements.eraseIdx i) x
    set { s with elements := s.elements.set i x }
    return old

/-- Puts an element in the place of the one at the index, and tells only whether that is done. -/
def Action.replace (i : Nat) (x : Node α) : StateM (Stack α) Bool := do
  match ← (tryReplace i x).run with
  | .ok _ => return true
  | .error _ => return false

theorem Action.on_tryPush (x : Node α) (s : Stack α) :
    (tryPush x).on s =
      match s.settings.checkRoom s.size, s.settings.checkAdmission s.elements x with
      | .error e, _ => (.error e, s)
      | .ok _, .error e => (.error e, s)
      | .ok _, .ok _ => (.ok (), ⟨s.settings, s.elements ++ [x]⟩) := by
  unfold tryPush
  simp only [on_bind, on_get, on_check, on_set]
  cases s.settings.checkRoom s.size with
  | error e => rfl
  | ok u => cases s.settings.checkAdmission s.elements x <;> rfl

theorem Action.on_tryReplace (i : Nat) (x : Node α) (s : Stack α) :
    (tryReplace i x).on s =
      match s.elements[i]? with
      | none => (.error (.noElement i), s)
      | some old =>
        match s.settings.checkAdmission (s.elements.eraseIdx i) x with
        | .error e => (.error e, s)
        | .ok _ => (.ok old, ⟨s.settings, s.elements.set i x⟩) := by
  unfold tryReplace
  rw [on_bind, on_get]
  dsimp only
  cases s.elements[i]? with
  | none => rfl
  | some old =>
    simp only [on_bind, on_check, on_set, on_pure]
    cases s.settings.checkAdmission (s.elements.eraseIdx i) x <;> rfl

/-! ### Refusals -/

namespace Action

/-- An action that is refused leaves the stack as it was. -/
def Careful (a : Action α β) : Prop :=
  ∀ s e t, a.on s = (.error e, t) → t = s

omit [Element α] in
/-- The outcome of a careful action says all about it. -/
theorem Careful.on_eq {a : Action α β} (careful : a.Careful) (s : Stack α) :
    a.on s =
      match a.outcome s with
      | .ok (b, t) => (.ok b, t)
      | .error e => (.error e, s) := by
  unfold outcome
  cases ends : a.on s with
  | mk result t =>
    cases result with
    | ok b => rfl
    | error e => rw [careful s e t ends]

omit [Element α] in
/-- What comes behind a careful action that is refused begins with the stack as it was. -/
theorem Careful.run_bind {a : Action α β} (careful : a.Careful)
    (next : Except RuleError β → StateM (Stack α) γ) (s : Stack α) :
    (a.run >>= next).run s =
      match a.outcome s with
      | .ok (b, t) => (next (.ok b)).run t
      | .error e => (next (.error e)).run s := by
  show (next (a.on s).1).run (a.on s).2 = _
  rw [careful.on_eq]
  cases a.outcome s <;> rfl

theorem careful_tryPush (x : Node α) : (tryPush x).Careful := by
  intro s e t refused
  rw [on_tryPush] at refused
  split at refused
  · exact (Prod.mk.inj refused).2.symm
  · exact (Prod.mk.inj refused).2.symm
  · cases refused

theorem careful_tryReplace (i : Nat) (x : Node α) : (tryReplace i x).Careful := by
  intro s e t refused
  rw [on_tryReplace] at refused
  split at refused
  · exact (Prod.mk.inj refused).2.symm
  · split at refused
    · exact (Prod.mk.inj refused).2.symm
    · cases refused

end Action

/-! ### Operations by their outcome -/

/-- The stack with the element added at its end, or the cause of the refusal. -/
def push? (s : Stack α) (x : Node α) : Except RuleError (Stack α) :=
  ((Action.tryPush x).outcome s).map Prod.snd

/-- The stack after the element has been added or refused. -/
def push (s : Stack α) (x : Node α) : Stack α :=
  ((Action.push x).run s).2

/-- The elements are added one after the other, refused ones left out. -/
def pushAll (s : Stack α) (xs : List (Node α)) : Stack α :=
  xs.foldl push s

/-- The elements are added one after the other, or the cause of the first refusal. -/
def pushAll? (s : Stack α) : List (Node α) → Except RuleError (Stack α)
  | [] => .ok s
  | x :: xs => do
    let t ← s.push? x
    t.pushAll? xs

/-- The element that was at the index, and the stack with the other one in its place, or the cause
of the refusal. -/
def replace? (s : Stack α) (i : Nat) (x : Node α) : Except RuleError (Node α × Stack α) :=
  (Action.tryReplace i x).outcome s

theorem push?_eq (s : Stack α) (x : Node α) :
    s.push? x = (do
      s.settings.checkRoom s.size
      s.settings.checkAdmission s.elements x
      return ⟨s.settings, s.elements ++ [x]⟩) := by
  unfold push? Action.outcome
  rw [Action.on_tryPush]
  cases s.settings.checkRoom s.size with
  | error e => rfl
  | ok u => cases s.settings.checkAdmission s.elements x <;> rfl

theorem push_eq (s : Stack α) (x : Node α) :
    s.push x =
      match s.push? x with
      | .ok t => t
      | .error _ => s := by
  unfold push
  show (((Action.tryPush x).run >>= fun _ => pure ()).run s).2 = _
  rw [(Action.careful_tryPush x).run_bind]
  unfold push?
  cases (Action.tryPush x).outcome s <;> rfl

theorem replace?_eq (s : Stack α) (i : Nat) (x : Node α) :
    s.replace? i x =
      match s.elements[i]? with
      | none => .error (.noElement i)
      | some old => do
        s.settings.checkAdmission (s.elements.eraseIdx i) x
        return (old, ⟨s.settings, s.elements.set i x⟩) := by
  unfold replace? Action.outcome
  rw [Action.on_tryReplace]
  cases s.elements[i]? with
  | none => rfl
  | some old => cases s.settings.checkAdmission (s.elements.eraseIdx i) x <;> rfl

/-! ### Looking for elements -/

/-- Some element answers to the text, blanks around it aside. Where elements differ by keyword, an
element also answers to its keyword. A blank text finds nothing. -/
def contains (s : Stack α) (text : String) : Bool :=
  let needle := Text.trimmed text
  !needle.isEmpty && s.elements.any (fun x =>
    x.answersTo needle ||
      (s.settings.uniqueness == .byKeyword &&
        x.keyword.any (fun k => Text.sameWord k.name needle)))

/-! ### Performing operations -/

/-- The action of the operation, with its answer. -/
def Operation.act : Operation α → StateM (Stack α) (Answer α)
  | push x | adding x => do
    Action.push x
    return .silent
  | pushAll xs => do
    xs.forM Action.push
    return .silent
  | tryPush x => do
    match ← (Action.tryPush x).run with
    | .ok _ => return .accepted
    | .error e => return .refused e
  | replace i x => return .replaced (← Action.replace i x)
  | tryReplace i x => do
    match ← (Action.tryReplace i x).run with
    | .ok old => return .taken (some old)
    | .error e => return .refused e
  | remove i => return .taken (← Action.remove i)
  | pop => return .taken (← Action.pop)

/-- What the operation answers, and the stack that it leaves behind. -/
def perform (s : Stack α) (op : Operation α) : Answer α × Stack α :=
  op.act.run s

/-- The stack after the operations, one after the other. -/
def run (s : Stack α) (ops : List (Operation α)) : Stack α :=
  ops.foldl (fun t op => (t.perform op).2) s

end Stack

end DirectoryAccess
