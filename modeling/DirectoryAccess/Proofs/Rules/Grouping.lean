import DirectoryAccess.Proofs.Rules.Disjuncts
import DirectoryAccess.Proofs.Rules.Lowering

/-!
# Bind rules as their texts group them

The text of a rule is a disjunction of conjunctions of members, whatever the stacks are that it is
written from. What the members are, and how they are taken together, is said once for all senses in
which members can be taken: as trees, or as truth values.
-/
namespace DirectoryAccess

open Grammar

/-! ### The members of a rule -/

/-- What the members of a written rule are taken as. -/
structure Sense (β : Type) where
  /-- A condition without its parentheses. -/
  condition : Condition → β
  /-- Parentheses, padded or not, around a disjunction. -/
  group : Bool → Disjuncts β → β
  /-- The word for negation in front of a member. -/
  negation : β → β

namespace Sense

variable {β γ : Type}

/-- What a setting for parentheses makes of a disjunction. -/
def enclose (m : Sense β) (parenthesized padded : Bool) (D : Disjuncts β) : Disjuncts β :=
  if parenthesized then [[m.group padded D]] else D

/-- A stack with the given elements. The word of a negation stands in front of its parentheses, or
in front of the text of its element. -/
def stack (m : Sense β) (s : Settings) (parts : List (Disjuncts β)) : Disjuncts β :=
  match s.kind with
  | .and => m.enclose s.parenthesized s.padded (.meetAll parts)
  | .not => (m.enclose s.parenthesized s.padded parts.flatten).mapFirst m.negation
  | _ => m.enclose s.parenthesized s.padded parts.flatten

end Sense

namespace BindRule

variable {β γ : Type}

mutual

/-- The rule as its text groups it. -/
def disjuncts (m : Sense β) : BindRule → Disjuncts β
  | .leaf c => m.enclose c.parenthesized c.padded [[m.condition c]]
  | .stack s es => m.stack s (disjunctsAll m es)

def disjunctsAll (m : Sense β) : List BindRule → List (Disjuncts β)
  | [] => []
  | x :: xs => disjuncts m x :: disjunctsAll m xs

end

theorem disjunctsAll_eq_map (m : Sense β) (xs : List BindRule) :
    disjunctsAll m xs = xs.map (disjuncts m) := by
  induction xs with
  | nil => rfl
  | cons x xs ih => rw [disjunctsAll, ih, List.map_cons]

theorem disjuncts_stack (m : Sense β) (s : Settings) (es : List BindRule) :
    disjuncts m (.stack s es) = m.stack s (es.map (disjuncts m)) := by
  rw [disjuncts, disjunctsAll_eq_map]

end BindRule

namespace BindRule

variable {β γ : Type} {m : Sense β} {n : Sense γ} {h : β → γ}

end BindRule

/-! ### The members as trees -/

/-- The tree of a condition without its parentheses. What is not complete is written as nothing. -/
def Condition.tree : Condition → Grammar.RuleTree
  | ⟨some k, some op, some e, _, padded⟩ => .condition (.of k op e.texts padded)
  | _ => .and []

namespace Grammar

/-- A chain, or the one member that stands alone. -/
def Connective.series (c : Connective) : List RuleTree → RuleTree
  | [t] => t
  | ts => c.join ts

theorem Connective.text_series (c : Connective) (ts : List RuleTree) :
    (c.series ts).text = c.joint.intercalate (ts.map RuleTree.text) := by
  match ts with
  | [] => exact c.text_join []
  | [t] => exact String.intercalate_singleton.symm
  | t :: u :: ts => exact c.text_join (t :: u :: ts)

theorem Connective.formed_series {Q : ConditionTree → Prop} (c : Connective) {ts : List RuleTree}
    (full : ts ≠ []) (members : ∀ t ∈ ts, c.takes t = true) (all : ∀ t ∈ ts, t.Formed Q) :
    (c.series ts).Formed Q := by
  match ts with
  | [] => exact absurd rfl full
  | [t] => exact all t (by simp)
  | t :: u :: ts => exact .chain (by simp) members all

/-- A conjunction is no disjunction, and neither is a member that stands for one. -/
theorem Connective.isDisjunction_series {ts : List RuleTree}
    (members : ∀ t ∈ ts, t.isMember = true) : (and.series ts).isDisjunction = false := by
  match ts with
  | [] => rfl
  | [t] => exact RuleTree.isDisjunction_of_isMember (members t (by simp))
  | t :: u :: ts => rfl

namespace RuleTree

def ofDisjuncts (D : Disjuncts RuleTree) : RuleTree :=
  Connective.or.series (D.map Connective.and.series)

theorem text_ofDisjuncts (D : Disjuncts RuleTree) : (ofDisjuncts D).text = D.text text := by
  unfold ofDisjuncts Disjuncts.text
  rw [Connective.text_series, List.map_map]
  congr 1
  exact List.map_congr_left fun c _ => Connective.and.text_series c

theorem formed_ofDisjuncts {Q : ConditionTree → Prop} {D : Disjuncts RuleTree} (full : D.Full)
    (members : ∀ t ∈ D.flatten, t.Formed Q ∧ t.isMember = true) : (ofDisjuncts D).Formed Q := by
  have each : ∀ c ∈ D, ∀ t ∈ c, t.Formed Q ∧ t.isMember = true := fun c hc t ht =>
    members t (List.mem_flatten.mpr ⟨c, hc, ht⟩)
  refine Connective.or.formed_series (by simpa using full.1) ?_ ?_
  · intro t ht
    obtain ⟨c, hc, rfl⟩ := List.mem_map.mp ht
    have single := Connective.isDisjunction_series fun t ht => (each c hc t ht).2
    simp [Connective.takes, single]
  · intro t ht
    obtain ⟨c, hc, rfl⟩ := List.mem_map.mp ht
    exact Connective.and.formed_series (full.2 c hc) (fun t ht => (each c hc t ht).2)
      fun t ht => (each c hc t ht).1

end RuleTree

end Grammar

def Sense.trees : Sense Grammar.RuleTree where
  condition := Condition.tree
  group padded D := .group padded (.ofDisjuncts D)
  negation := .not

/-- The members have the shape of members, their conditions have the property, and together they are
written as the text. -/
structure Disjuncts.Writes (D : Disjuncts Grammar.RuleTree) (Q : ConditionTree → Prop)
    (text : String) : Prop where
  full : D.Full
  members : ∀ t ∈ D.flatten, t.Formed Q ∧ t.isMember = true
  same : D.text RuleTree.text = text

namespace Disjuncts

variable {Q : ConditionTree → Prop}

theorem Writes.enclose {D : Disjuncts Grammar.RuleTree} {text : String} (h : D.Writes Q text)
    (p q : Bool) : (Sense.trees.enclose p q D).Writes Q (enclosed p q text) := by
  cases p with
  | false => exact h
  | true =>
    have formed := RuleTree.formed_ofDisjuncts h.full h.members
    refine ⟨full_singleton, ?_, ?_⟩
    · intro t ht
      obtain rfl : t = .group q (.ofDisjuncts D) := by simpa [Sense.enclose, Sense.trees] using ht
      exact ⟨.group formed, rfl⟩
    · show Disjuncts.text RuleTree.text [[.group q (.ofDisjuncts D)]] = _
      rw [text_singleton, RuleTree.text, RuleTree.text_ofDisjuncts, h.same]

theorem Writes.negate {D : Disjuncts Grammar.RuleTree} {text : String} (h : D.Writes Q text) :
    (D.mapFirst .not).Writes Q ("NOT " ++ text) where
  full := h.full.mapFirst
  members := forall_mem_mapFirst h.members fun _ ⟨formed, member⟩ => ⟨.not member formed, rfl⟩
  same := by
    have word : ∀ t : Grammar.RuleTree, (RuleTree.not t).text = "NOT " ++ t.text := by
      intro t
      rw [RuleTree.text]
    rw [text_mapFirst word h.full, h.same]

theorem writes_meetAll {α : Type} {as : List α} {D : α → Disjuncts Grammar.RuleTree}
    {f : α → String} (some' : as ≠ []) (h : ∀ a ∈ as, (D a).Writes Q (f a)) :
    (meetAll (as.map D)).Writes Q (" AND ".intercalate (as.map f)) where
  full := full_meetAll (by simpa using some') (by simpa using fun a ha => (h a ha).full)
  members := by
    rw [flatten_meetAll]
    intro t ht
    obtain ⟨c, hc, ht⟩ := List.mem_flatten.mp ht
    obtain ⟨E, hE, hc⟩ := List.mem_flatten.mp hc
    obtain ⟨a, ha, rfl⟩ := List.mem_map.mp hE
    exact (h a ha).members t (List.mem_flatten.mpr ⟨c, hc, ht⟩)
  same := by
    rw [text_meetAll (by simpa using fun a ha => (h a ha).full), List.map_map]
    congr 1
    exact List.map_congr_left fun a ha => (h a ha).same

theorem writes_flatten {α : Type} {as : List α} {D : α → Disjuncts Grammar.RuleTree}
    {f : α → String} (some' : as ≠ []) (h : ∀ a ∈ as, (D a).Writes Q (f a)) :
    Writes (as.map D).flatten Q (" OR ".intercalate (as.map f)) where
  full := full_flatten (by simpa using some') (by simpa using fun a ha => (h a ha).full)
  members := by
    intro t ht
    obtain ⟨c, hc, ht⟩ := List.mem_flatten.mp ht
    obtain ⟨E, hE, hc⟩ := List.mem_flatten.mp hc
    obtain ⟨a, ha, rfl⟩ := List.mem_map.mp hE
    exact (h a ha).members t (List.mem_flatten.mpr ⟨c, hc, ht⟩)
  same := by
    rw [text_flatten (by simpa using fun a ha => (h a ha).full), List.map_map]
    congr 1
    exact List.map_congr_left fun a ha => (h a ha).same

end Disjuncts

namespace BindRule

/-- A condition is written as its tree, in parentheses where it has them. -/
theorem writes_condition {Q : ConditionTree → Prop} {t : ConditionTree} (h : Q t) (p q : Bool) :
    (Sense.trees.enclose p q [[.condition t]]).Writes Q (enclosed p q t.text) := by
  have bare : Disjuncts.Writes [[.condition t]] Q t.text := by
    refine ⟨Disjuncts.full_singleton, ?_, Disjuncts.text_singleton⟩
    intro u hu
    obtain rfl : u = .condition t := by simpa using hu
    exact ⟨.condition h, rfl⟩
  exact bare.enclose p q

/-- Where the elements of a stack are written as their members, so is the stack. -/
theorem writes_stack {Q : ConditionTree → Prop} {kind : StackKind} {p q : Bool}
    (boolean : kind ≠ .list) {es : List BindRule} (full : es ≠ [])
    (room : kind = .not → es.length ≤ 1)
    (each : ∀ x ∈ es, (disjuncts .trees x).Writes Q x.render) :
    (disjuncts .trees (.stack (settings kind p q) es)).Writes Q
      (Node.render (.stack (settings kind p q) es)) := by
  rw [disjuncts_stack, render_stack boolean full]
  cases kind with
  | list => exact absurd rfl boolean
  | and =>
    rw [if_neg (by decide), String.empty_append]
    exact (Disjuncts.writes_meetAll full each).enclose p q
  | or =>
    rw [if_neg (by decide), String.empty_append]
    exact (Disjuncts.writes_flatten full each).enclose p q
  | not =>
    -- A negation has one element, so nothing stands between its elements.
    obtain ⟨x, rfl⟩ := List.length_eq_one_iff.mp
      (Nat.le_antisymm (room rfl) (List.length_pos_iff.mpr full))
    have single := each x (by simp)
    rw [if_pos rfl, List.map_singleton, List.map_singleton, String.intercalate_singleton]
    have alone : [disjuncts .trees x].flatten = disjuncts .trees x := by simp
    show Disjuncts.Writes
      ((Sense.trees.enclose p q [disjuncts .trees x].flatten).mapFirst .not) Q _
    rw [alone]
    exact (single.enclose p q).negate

theorem writes_leaf {c : Condition} (settled : c.Settled) (place : Placed (.leaf c)) :
    (disjuncts .trees (.leaf c)).Writes (fun t => t.Settled ∧ RuleTree.Binds t)
      (Node.render (.leaf c)) := by
  obtain @⟨k, op, e, parenthesized, padded, canonical, permitted, full, valid⟩ := settled
  have own : ConditionTree.Settled (.of k op e.texts padded) := ⟨e, canonical, rfl⟩
  have makes : ∀ p, ConditionTree.toCondition (.of k op e.texts padded) p =
      .ok ⟨some k, some op, some e, p, padded⟩ := fun p =>
    ConditionTree.toCondition_eq_ok_iff.mpr ⟨e, canonical.reread, permitted, full, valid, rfl⟩
  have binds : RuleTree.Binds (.of k op e.texts padded) := ⟨_, makes false, place k rfl⟩
  have rendered : Node.render (.leaf (⟨some k, some op, some e, parenthesized, padded⟩ : Condition))
      = enclosed parenthesized padded (ConditionTree.text (.of k op e.texts padded)) :=
    own.render (makes parenthesized)
  rw [rendered]
  exact writes_condition ⟨own, binds⟩ parenthesized padded

/-- The members of a composed rule, as trees, are written as the rule is. -/
theorem Composed.writes {r : BindRule} (composed : r.Composed) (fits : r.Fits) :
    (r.disjuncts .trees).Writes (fun t => t.Settled ∧ RuleTree.Binds t) r.render := by
  induction composed with
  | leaf read => exact writes_leaf (composed_leaf_iff.mp (.leaf read)) fits.place
  | @stack kind p q es boolean admitted _ ih =>
    obtain ⟨room, fit⟩ := (admits_iff boolean).mp admitted
    have full := ((validate_stack_iff boolean).mp fits.valid).1
    exact writes_stack boolean full room fun x hx => ih x hx (fit x hx)

/-- Where the members are settled, a rule is made of their tree, and the tree is written as they
are. -/
theorem exists_rule_of_writes {D : Disjuncts Grammar.RuleTree} {text : String}
    (writes : D.Writes (fun t => t.Settled ∧ RuleTree.Binds t) text) (layout : Layout) :
    ∃ r : BindRule, (Grammar.RuleTree.ofDisjuncts D).toBindRule layout = .ok r ∧ r.Fits ∧
      (Grammar.RuleTree.ofDisjuncts D).Formed ConditionTree.Settled ∧
      (Grammar.RuleTree.ofDisjuncts D).text = text := by
  have formed := RuleTree.formed_ofDisjuncts writes.full writes.members
  obtain ⟨r, made, fits⟩ := (formed.mono fun _ h => h.2).exists_rule layout
  exact ⟨r, made, fits, formed.mono fun _ h => h.1, by rw [RuleTree.text_ofDisjuncts, writes.same]⟩

/-- A composed rule that fits is written as the tree of its members is, and a rule is made of the
tree. -/
theorem Composed.exists_tree {r : BindRule} (composed : r.Composed) (fits : r.Fits)
    (layout : Layout) :
    ∃ r' : BindRule,
      (Grammar.RuleTree.ofDisjuncts (r.disjuncts .trees)).toBindRule layout = .ok r' ∧
      r'.Fits ∧ (Grammar.RuleTree.ofDisjuncts (r.disjuncts .trees)).Formed ConditionTree.Settled ∧
      (Grammar.RuleTree.ofDisjuncts (r.disjuncts .trees)).text = r.render :=
  exists_rule_of_writes (composed.writes fits) layout

end BindRule

end DirectoryAccess
