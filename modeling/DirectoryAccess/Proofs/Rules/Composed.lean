import DirectoryAccess.Proofs.Condition.Rereading

/-!
# Composed bind rules

The bind rules that come of conditions that were read and of stacks that are filled with such rules.
Parentheses and padding are free at each condition and at each stack.
-/
namespace DirectoryAccess

namespace BindRule

/-- The settings of a stack of bind rules. -/
def settings (kind : StackKind) (parenthesized padded : Bool) : Settings :=
  { kind, category := .bindRules, parenthesized, padded }

/-- A condition that was read, or a stack that admits its elements. A stack admits only conditions
with bind keywords. -/
inductive Composed : BindRule → Prop
  | leaf {text : String} {c : Condition} {parenthesized padded : Bool}
    (read : Condition.read text = .ok c) : Composed (.leaf { c with parenthesized, padded })
  | stack {kind : StackKind} {parenthesized padded : Bool} {es : List BindRule}
    (boolean : kind ≠ .list) (admitted : (settings kind parenthesized padded).Admits es)
    (all : ∀ x ∈ es, Composed x) : Composed (.stack (settings kind parenthesized padded) es)

theorem composed_leaf_iff {c : Condition} : Composed (.leaf c) ↔ c.Settled := by
  constructor
  · intro h
    cases h with
    | leaf read =>
      obtain ⟨canonical, permitted, full, valid⟩ := Condition.settled_of_read read
      exact .intro canonical permitted full valid
  · intro h
    exact @Composed.leaf c.render c c.parenthesized c.padded h.read_render

/-! ### What a stack of bind rules admits -/

/-- The rule is about clients: a condition with a bind keyword, or a stack of bind rules. -/
def Placed : BindRule → Prop
  | .leaf c => ∀ k ∈ c.keyword, k.isBind = true
  | .stack s _ => s.category = .bindRules

/-- The rule is valid, and it is about clients. -/
structure Fits (x : BindRule) : Prop where
  valid : x.validate = .ok ()
  place : x.Placed

theorem suits_iff {kind : StackKind} {p q : Bool} (boolean : kind ≠ .list) {x : BindRule} :
    (settings kind p q).Suits x ↔ x.Fits := by
  have nesting : (settings kind p q).nesting = true := by
    cases kind with
    | list => exact absurd rfl boolean
    | _ => rfl
  unfold Settings.Suits
  rw [Settings.checkPlace_eq_ok_iff]
  cases x with
  | leaf c =>
    have place : ∀ k : Keyword, (settings kind p q).category.misplaced? k = none ↔
        k.isBind = true := by
      intro k
      have category : (settings kind p q).category = .bindRules := rfl
      cases h : k.isBind <;> simp [category, Category.misplaced?, h]
    simp only [place]
    constructor
    · rintro ⟨_, valid, placed⟩
      exact ⟨valid, placed⟩
    · rintro ⟨valid, placed⟩
      exact ⟨rfl, valid, placed⟩
  | stack s es =>
    rw [Settings.checkNesting_stack_eq_ok_iff]
    constructor
    · rintro ⟨⟨_, category⟩, valid, _⟩
      exact ⟨valid, category⟩
    · rintro ⟨valid, category⟩
      have category' : s.category = .bindRules := category
      refine ⟨⟨nesting, category⟩, valid, ?_⟩
      rw [Node.keyword, category']
      intro k none'
      cases none'

/-- Every stack of bind rules has room for one of them, and a negation has no more. -/
theorem admits_iff {kind : StackKind} {p q : Bool} (boolean : kind ≠ .list) {es : List BindRule} :
    (settings kind p q).Admits es ↔ (kind = .not → es.length ≤ 1) ∧ ∀ x ∈ es, Fits x := by
  constructor
  · intro h
    refine ⟨?_, fun x hx => (suits_iff boolean).mp (h.proper x hx)⟩
    rintro rfl
    exact h.room 1 rfl
  · rintro ⟨room, fits⟩
    have suits : ∀ x ∈ es, (settings kind p q).Suits x :=
      fun x hx => (suits_iff boolean).mpr (fits x hx)
    refine ⟨?_, suits, List.pairwise_of_forall fun _ _ => rfl⟩
    intro n hn
    by_cases negation : kind = .not
    · subst negation
      cases hn
      exact room rfl
    · have unbounded : (settings kind p q).capacity = none := by
        simp [settings, negation]
      rw [unbounded] at hn
      cases hn

theorem validate_stack_iff {kind : StackKind} {p q : Bool} (boolean : kind ≠ .list)
    {es : List BindRule} :
    Node.validate (.stack (settings kind p q) es) = .ok () ↔
      es ≠ [] ∧ ∀ x ∈ es, x.validate = .ok () := by
  have minimum : (settings kind p q).minimum = 1 := by
    cases kind with
    | list => exact absurd rfl boolean
    | _ => rfl
  have valid := Stack.validate_eq_ok_iff (⟨settings kind p q, es⟩ : Stack Condition)
  rw [minimum] at valid
  refine valid.trans (and_congr_left' ?_)
  exact Nat.one_le_iff_ne_zero.trans (not_congr List.length_eq_zero_iff)

/-- A stack of rules that fit, as many as it needs and no more than it has room for, fits. -/
theorem fits_stack {kind : StackKind} {p q : Bool} (boolean : kind ≠ .list) {es : List BindRule}
    (full : es ≠ []) (fits : ∀ x ∈ es, Fits x) : Fits (.stack (settings kind p q) es) :=
  ⟨(validate_stack_iff boolean).mpr ⟨full, fun x hx => (fits x hx).valid⟩, rfl⟩

theorem composed_stack {kind : StackKind} {p q : Bool} (boolean : kind ≠ .list)
    {es : List BindRule} (room : kind = .not → es.length ≤ 1) (fits : ∀ x ∈ es, Fits x)
    (all : ∀ x ∈ es, Composed x) : Composed (.stack (settings kind p q) es) :=
  .stack boolean ((admits_iff boolean).mpr ⟨room, fits⟩) all

theorem fits_singleton {kind : StackKind} {p q : Bool} (boolean : kind ≠ .list) {x : BindRule}
    (fits : x.Fits) : Fits (.stack (settings kind p q) [x]) :=
  fits_stack boolean (by simp) (by simpa using fits)

theorem composed_singleton {kind : StackKind} {p q : Bool} (boolean : kind ≠ .list) {x : BindRule}
    (fits : x.Fits) (composed : x.Composed) : Composed (.stack (settings kind p q) [x]) :=
  composed_stack boolean (by simp) (by simpa using fits) (by simpa using composed)

/-! ### Written forms -/

/-- What stands between the elements of a stack of bind rules. -/
def joint : StackKind → String
  | .and => " AND "
  | .or => " OR "
  | _ => " "

theorem render_leaf {k : Keyword} {op : Comparison} {e : Expression} {p q : Bool} :
    Node.render (.leaf (⟨some k, some op, some e, p, q⟩ : Condition)) =
      enclosed p q (Node.render (.leaf (⟨some k, some op, some e, false, q⟩ : Condition))) :=
  rfl

theorem render_stack {kind : StackKind} {p q : Bool} (boolean : kind ≠ .list)
    {es : List BindRule} (full : es ≠ []) :
    Node.render (.stack (settings kind p q) es) =
      (if kind = .not then "NOT " else "") ++
        enclosed p q ((joint kind).intercalate (es.map Node.render)) := by
  have parts : Node.parts .whole es = es.map Node.render := by
    rw [Node.parts_eq_map]
    refine List.map_congr_left fun x _ => ?_
    unfold Quoting.value
    split <;> rfl
  have some' : (es.map Node.render).isEmpty = false := by
    cases es with
    | nil => exact absurd rfl full
    | cons x xs => rfl
  rw [Node.render]
  show (settings kind p q).write (Node.parts .whole es) = _
  unfold Settings.write
  rw [parts, some', if_neg (by simp)]
  cases kind with
  | list => exact absurd rfl boolean
  | _ => rfl

theorem render_singleton {kind : StackKind} {p q : Bool} (boolean : kind ≠ .list) {x : BindRule} :
    Node.render (.stack (settings kind p q) [x]) =
      (if kind = .not then "NOT " else "") ++ enclosed p q x.render := by
  rw [render_stack boolean (by simp), List.map_singleton, String.intercalate_singleton]

end BindRule

end DirectoryAccess
