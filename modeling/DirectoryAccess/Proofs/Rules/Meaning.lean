import DirectoryAccess.Proofs.Rules.Grouping

/-!
# What bind rules mean

A rule that is read back from the written form of a composed rule has the meaning of the text, in
which negation binds strongest and disjunction weakest. That is the meaning of the composed rule
itself where parentheses stand around each chain that the words would group in another way.
-/
namespace DirectoryAccess

open Grammar

/-- What a condition asks: whether the keyword compares to the value as the operator says. -/
structure Fact where
  keyword : Option Keyword
  operator : Option Comparison
  value : Option String
  deriving DecidableEq

def Condition.fact (c : Condition) : Fact where
  keyword := c.keyword
  operator := c.operator
  value := c.expression.map Expression.render

/-- The truth value of a stack, given those of its elements; a list has none of its own. -/
def StackKind.truth : StackKind → List Bool → Bool
  | .or, bs => bs.any id
  | .not, bs => !bs.any id
  | _, bs => bs.all id

namespace BindRule

mutual

/-- The truth value of a rule, where the facts have the given ones. -/
def holds (v : Fact → Bool) : BindRule → Bool
  | .leaf c => v c.fact
  | .stack s es => s.kind.truth (holdsAll v es)

def holdsAll (v : Fact → Bool) : List BindRule → List Bool
  | [] => []
  | x :: xs => holds v x :: holdsAll v xs

end

theorem holdsAll_eq_map (v : Fact → Bool) (xs : List BindRule) :
    holdsAll v xs = xs.map (holds v) := by
  induction xs with
  | nil => rfl
  | cons x xs ih => rw [holdsAll, ih, List.map_cons]

theorem holds_stack (v : Fact → Bool) (s : Settings) (es : List BindRule) :
    holds v (.stack s es) = s.kind.truth (es.map (holds v)) := by
  rw [holds, holdsAll_eq_map]

end BindRule

/-- The truth value of a disjunction of conjunctions. -/
def Disjuncts.truth (D : Disjuncts Bool) : Bool :=
  D.any (·.all id)

def Sense.truth (v : Fact → Bool) : Sense Bool where
  condition c := v c.fact
  group _ D := D.truth
  negation := not

namespace Grammar

/-- The fact that a condition asks for whose values are written so. -/
def ConditionTree.fact (t : ConditionTree) : Fact where
  keyword := some t.keyword
  operator := some t.operator
  value := some (" || ".intercalate (t.values.map quoted))

theorem ConditionTree.Settled.fact {t : ConditionTree} {p : Bool} {c : Condition}
    (settled : t.Settled) (h : t.toCondition p = .ok c) : c.fact = t.fact := by
  obtain ⟨e, canonical, same⟩ := settled
  obtain ⟨e', read, _, _, _, rfl⟩ := toCondition_eq_ok_iff.mp h
  rw [same, canonical.reread] at read
  obtain rfl := Except.ok.inj read
  simp only [Condition.fact, ConditionTree.fact, Option.map_some, canonical.written, same]

namespace RuleTree

variable (v : Fact → Bool)

mutual

def holds : RuleTree → Bool
  | condition t => v t.fact
  | group _ inner => inner.holds
  | and items => (holdsAll items).all id
  | or items => (holdsAll items).any id
  | not inner => !inner.holds

def holdsAll : List RuleTree → List Bool
  | [] => []
  | t :: ts => t.holds :: holdsAll ts

end

theorem holdsAll_eq_map (ts : List RuleTree) : holdsAll v ts = ts.map (holds v) := by
  induction ts with
  | nil => rfl
  | cons t ts ih => rw [holdsAll, ih, List.map_cons]

theorem holds_join (c : Connective) (ts : List RuleTree) :
    (c.join ts).holds v = c.kind.truth (ts.map (holds v)) := by
  rw [← holdsAll_eq_map]
  cases c with
  | and => exact holds.eq_3 v ts
  | or => exact holds.eq_4 v ts

end RuleTree

end Grammar

theorem BindRule.Encloses.holds {padded : Bool} {x r : BindRule} (h : Encloses padded x r)
    (v : Fact → Bool) : r.holds v = x.holds v := by
  cases h with
  | condition => rfl
  | stack =>
    rw [holds_stack, holds_stack]
  | wrapped =>
    rw [holds_stack]
    simp [settings, StackKind.truth]

theorem Grammar.RuleTree.Formed.holds {layout : Layout} {t : RuleTree}
    (formed : t.Formed ConditionTree.Settled) (v : Fact → Bool) :
    ∀ r, t.toBindRule layout = .ok r → BindRule.holds v r = t.holds v := by
  induction formed using Formed.lowering_induction with
  | condition t settled =>
    intro r made
    obtain ⟨c, made', rfl⟩ := toBindRule_condition.mp made
    rw [BindRule.holds, settled.fact made', RuleTree.holds]
  | group padded t _ ih =>
    intro r made
    obtain ⟨x, inner, grouped⟩ := toBindRule_group.mp made
    rw [(BindRule.encloses_of_grouped grouped).holds, ih x inner, RuleTree.holds]
  | chain c ts _ _ _ ih =>
    intro r made
    obtain ⟨xs, each, _, rfl⟩ := toBindRule_join.mp made
    have same : ts.map (RuleTree.holds v) = xs.map (BindRule.holds v) :=
      map_eq_of_forall₂ each fun t ht x hx => (ih t ht x hx).symm
    rw [BindRule.holds_stack, holds_join, same]
    rfl
  | negatedGroup padded t _ ih =>
    intro r made
    obtain ⟨x, inner, _, rfl⟩ := toBindRule_negatedGroup.mp made
    rw [BindRule.holds_stack, RuleTree.holds, RuleTree.holds, ← ih x inner]
    simp [BindRule.settings, StackKind.truth]
  | not t other _ _ ih =>
    intro r made
    obtain ⟨x, inner, _, rfl⟩ := (toBindRule_not other).mp made
    rw [BindRule.holds_stack, RuleTree.holds, ← ih x inner]
    simp [BindRule.settings, StackKind.truth]

namespace BindRule

/-- The connective that joins the written parts of a stack, given those of its elements. -/
def outermost (s : Settings) (inner : List (Option Connective)) : Option Connective :=
  if s.parenthesized || s.kind == .not then none
  else
    match s.kind, inner with
    | _, [c] => c
    | .and, _ => some .and
    | .or, _ => some .or
    | _, _ => none

mutual

/-- The connective that stands in the text of a rule outside all parentheses and negations. -/
def connective : BindRule → Option Connective
  | .leaf _ => none
  | .stack s es => outermost s (connectiveAll es)

def connectiveAll : List BindRule → List (Option Connective)
  | [] => []
  | x :: xs => connective x :: connectiveAll xs

end

/-- What the outermost connective says about the members of a text, and the truth value that they
have together. -/
structure Agrees (o : Option Connective) (D : Disjuncts Bool) (b : Bool) : Prop where
  member : o = none → ∃ a, D = [[a]]
  conjunction : o ≠ some .or → ∃ c, D = [c]
  truth : D.truth = b

theorem agrees_member (o : Option Connective) (b : Bool) : Agrees o [[b]] b where
  member _ := ⟨b, rfl⟩
  conjunction _ := ⟨[b], rfl⟩
  truth := by simp [Disjuncts.truth]

theorem Agrees.enclose {o : Option Connective} {D : Disjuncts Bool} {b : Bool} (h : Agrees o D b)
    (v : Fact → Bool) (p q : Bool) :
    Agrees (if p then none else o) ((Sense.truth v).enclose p q D) b := by
  cases p with
  | false => exact h
  | true =>
    have grouped : (Sense.truth v).enclose true q D = [[b]] := by
      rw [← h.truth]
      rfl
    rw [grouped]
    exact agrees_member none b

section Elements

variable {q : Bool} {es : List BindRule} {v : Fact → Bool}
  (each : ∀ x ∈ es, Agrees (connective x) (x.disjuncts (.truth v)) (x.holds v))

include each

end Elements

theorem Agrees.negate {D : Disjuncts Bool} {b : Bool} (h : Agrees none D b) :
    Agrees none (D.mapFirst not) (!b) := by
  obtain ⟨a, rfl⟩ := h.member rfl
  have same : a = b := by simpa [Disjuncts.truth] using h.truth
  rw [← same]
  exact agrees_member none (!a)

def strengthIs (number : String) : BindRule :=
  .leaf ⟨some (.bind .ssf), some .equal, some (.value number), false, true⟩

/-- The first of three strengths together with one of the two others, which may stand in
parentheses. -/
def oneAndEither (parenthesized : Bool) : BindRule :=
  .stack (settings .and false true)
    [strengthIs "1",
      .stack (settings .or parenthesized true) [strengthIs "2", strengthIs "3"]]

theorem composed_strengthIs {number : String} (small : number = "1" ∨ number = "2" ∨ number = "3") :
    (strengthIs number).Composed ∧ (strengthIs number).Fits := by
  have read : ∀ {c : Condition},
      Condition.read c.render = .ok c → Node.validate (.leaf c) = .ok () → Placed (.leaf c) →
        Composed (.leaf c) ∧ Fits (.leaf c) := fun h valid place =>
    ⟨composed_leaf_iff.mpr (Condition.settled_of_read h), valid, place⟩
  have place : Placed (strengthIs number) := by
    intro k keyword
    rw [← Option.some.inj keyword]
    rfl
  rcases small with rfl | rfl | rfl
  · exact read (by decide +kernel) (by decide) place
  · exact read (by decide +kernel) (by decide) place
  · exact read (by decide +kernel) (by decide) place

theorem composed_oneAndEither (parenthesized : Bool) :
    (oneAndEither parenthesized).Composed ∧ (oneAndEither parenthesized).Fits := by
  obtain ⟨one, oneFits⟩ := composed_strengthIs (.inl rfl)
  obtain ⟨two, twoFits⟩ := composed_strengthIs (.inr (.inl rfl))
  obtain ⟨three, threeFits⟩ := composed_strengthIs (.inr (.inr rfl))
  have either : Composed
      (.stack (settings .or parenthesized true) [strengthIs "2", strengthIs "3"]) :=
    composed_stack (by decide) (by simp) (by simp [twoFits, threeFits]) (by simp [two, three])
  have eitherFits : Fits
      (.stack (settings .or parenthesized true) [strengthIs "2", strengthIs "3"]) :=
    fits_stack (by decide) (by simp) (by simp [twoFits, threeFits])
  constructor
  · exact composed_stack (by decide) (by simp) (by simp [oneFits, eitherFits])
      (by simp [one, either])
  · exact fits_stack (by decide) (by simp) (by simp [oneFits, eitherFits])

end BindRule

end DirectoryAccess
