import DirectoryAccess.Proofs.Condition.Rereading
import DirectoryAccess.Proofs.Grammar.RuleReading

/-!
# Trees of bind rules and their texts

The trees that the grammar gives have a shape: a negation and the members of a conjunction are no
chains, and the members of a disjunction are no disjunctions.
-/
namespace DirectoryAccess.Grammar

open Reader

namespace RuleTree

mutual

/-- The text of a rule, with one blank where the grammar asks for a gap. -/
def text : RuleTree → String
  | condition t => t.text
  | group padded inner => enclosed true padded inner.text
  | and items => " AND ".intercalate (texts items)
  | or items => " OR ".intercalate (texts items)
  | not inner => "NOT " ++ inner.text

def texts : List RuleTree → List String
  | [] => []
  | t :: ts => t.text :: texts ts

end

theorem texts_eq_map (ts : List RuleTree) : texts ts = ts.map text := by
  induction ts with
  | nil => rfl
  | cons t ts ih => rw [texts, ih, List.map_cons]

mutual

/-- The rule with the values of its conditions as they are kept once they are read. -/
def settle : RuleTree → RuleTree
  | condition t => condition t.settle
  | group padded inner => group padded inner.settle
  | and items => and (settleAll items)
  | or items => or (settleAll items)
  | not inner => not inner.settle

def settleAll : List RuleTree → List RuleTree
  | [] => []
  | t :: ts => t.settle :: settleAll ts

end

theorem settleAll_eq_map (ts : List RuleTree) : settleAll ts = ts.map settle := by
  induction ts with
  | nil => rfl
  | cons t ts ih => rw [settleAll, ih, List.map_cons]

/-- The rule can stand in a conjunction without parentheses. -/
def isMember : RuleTree → Bool
  | and _ => false
  | or _ => false
  | _ => true

def isDisjunction : RuleTree → Bool
  | or _ => true
  | _ => false

theorem isMember_settle (t : RuleTree) : t.settle.isMember = t.isMember := by
  cases t <;> rfl

theorem isDisjunction_settle (t : RuleTree) : t.settle.isDisjunction = t.isDisjunction := by
  cases t <;> rfl

mutual

/-- The conditions of a rule, from left to right. -/
def conditions : RuleTree → List ConditionTree
  | condition t => [t]
  | group _ inner => inner.conditions
  | and items => conditionsOf items
  | or items => conditionsOf items
  | not inner => inner.conditions

def conditionsOf : List RuleTree → List ConditionTree
  | [] => []
  | t :: ts => t.conditions ++ conditionsOf ts

end

theorem conditionsOf_eq_flatMap (ts : List RuleTree) : conditionsOf ts = ts.flatMap conditions := by
  induction ts with
  | nil => rfl
  | cons t ts ih => rw [conditionsOf, ih, List.flatMap_cons]

theorem isDisjunction_of_isMember {t : RuleTree} (h : t.isMember = true) :
    t.isDisjunction = false := by
  cases t with
  | or => cases h
  | _ => rfl

end RuleTree

namespace Connective

/-- What is written between two members of a chain. -/
def joint : Connective → String
  | and => " AND "
  | or => " OR "

theorem toList_joint (c : Connective) : c.joint.toList = [' '] ++ (c.text.toList ++ [' ']) := by
  cases c <;> decide

/-- The rule can stand in a chain of the connective without parentheses. -/
def takes : Connective → RuleTree → Bool
  | and, t => t.isMember
  | or, t => !t.isDisjunction

theorem takes_settle (c : Connective) (t : RuleTree) : c.takes t.settle = c.takes t := by
  cases c with
  | and => exact t.isMember_settle
  | or =>
    dsimp only [takes]
    rw [t.isDisjunction_settle]

theorem text_join (c : Connective) (ts : List RuleTree) :
    (c.join ts).text = c.joint.intercalate (ts.map RuleTree.text) := by
  rw [← RuleTree.texts_eq_map]
  cases c <;> rfl

theorem settle_join (c : Connective) (ts : List RuleTree) :
    (c.join ts).settle = c.join (ts.map RuleTree.settle) := by
  rw [← RuleTree.settleAll_eq_map]
  cases c <;> rfl

theorem conditions_join (c : Connective) (ts : List RuleTree) :
    (c.join ts).conditions = ts.flatMap RuleTree.conditions := by
  rw [← RuleTree.conditionsOf_eq_flatMap]
  cases c <;> rfl

theorem join_inj {c d : Connective} {ts us : List RuleTree} (h : c.join ts = d.join us) :
    c = d ∧ ts = us := by
  cases c <;> cases d <;> cases h <;> exact ⟨rfl, rfl⟩

end Connective

/-! ### The shape of trees -/

/-- The tree has the shape of what the grammar gives, and its conditions have the property. -/
inductive RuleTree.Formed (Q : ConditionTree → Prop) : RuleTree → Prop
  | condition {t : ConditionTree} (h : Q t) : Formed Q (.condition t)
  | group {padded : Bool} {t : RuleTree} (inner : Formed Q t) : Formed Q (.group padded t)
  | chain {c : Connective} {ts : List RuleTree} (several : 2 ≤ ts.length)
    (members : ∀ t ∈ ts, c.takes t = true) (all : ∀ t ∈ ts, Formed Q t) : Formed Q (c.join ts)
  | not {t : RuleTree} (member : t.isMember = true) (inner : Formed Q t) : Formed Q (.not t)

/-- Induction in the cases of making a rule of a tree, where parentheses behind a negation are a
case of their own. -/
theorem RuleTree.Formed.lowering_induction {Q : ConditionTree → Prop}
    {P : ∀ t : RuleTree, t.Formed Q → Prop}
    (condition : ∀ t (h : Q t), P (.condition t) (.condition h))
    (group : ∀ padded t (inner : Formed Q t), P t inner → P (.group padded t) (.group inner))
    (chain : ∀ (c : Connective) (ts : List RuleTree) (several : 2 ≤ ts.length)
      (members : ∀ t ∈ ts, c.takes t = true) (all : ∀ t ∈ ts, Formed Q t),
      (∀ t (ht : t ∈ ts), P t (all t ht)) → P (c.join ts) (.chain several members all))
    (negatedGroup : ∀ padded t (inner : Formed Q t), P t inner →
      P (.not (.group padded t)) (.not rfl (.group inner)))
    (not : ∀ t (_ : ∀ padded u, t ≠ .group padded u) (member : t.isMember = true)
      (inner : Formed Q t), P t inner → P (.not t) (.not member inner))
    {t : RuleTree} (h : Formed Q t) : P t h := by
  -- What holds of a group has to come with what holds of the rule inside.
  have both : P t h ∧ ∀ padded u, t = .group padded u → ∃ inner : Formed Q u, P u inner := by
    induction h with
    | condition h => exact ⟨condition _ h, by simp⟩
    | @group padded t inner ih =>
      refine ⟨group padded t inner ih.1, ?_⟩
      rintro _ _ ⟨rfl, rfl⟩
      exact ⟨inner, ih.1⟩
    | @chain c ts several members all ih =>
      refine ⟨chain c ts several members all fun t ht => (ih t ht).1, ?_⟩
      intro padded u same
      cases c <;> cases same
    | @not t member inner ih =>
      refine ⟨?_, by simp⟩
      cases t with
      | group padded u =>
        obtain ⟨formed, holds⟩ := ih.2 padded u rfl
        exact negatedGroup padded u formed holds
      | _ => exact not _ (by simp) member inner ih.1
  exact both.1

theorem RuleTree.Formed.mono {Q R : ConditionTree → Prop} {t : RuleTree} (h : Formed Q t)
    (imp : ∀ t, Q t → R t) : Formed R t := by
  induction h with
  | condition h => exact .condition (imp _ h)
  | group _ ih => exact .group ih
  | chain several members _ ih => exact .chain several members ih
  | not member _ ih => exact .not member ih

theorem RuleTree.Formed.of_mem_conditions {Q : ConditionTree → Prop} {t : RuleTree}
    (h : t.Formed Q) : ∀ c ∈ t.conditions, Q c := by
  induction h with
  | condition h => exact List.forall_mem_singleton.mpr h
  | group _ ih => exact ih
  | chain _ _ _ ih =>
    rw [Connective.conditions_join]
    intro c hc
    obtain ⟨t, ht, hc⟩ := List.mem_flatMap.mp hc
    exact ih t ht c hc
  | not _ _ ih => exact ih

theorem RuleTree.Formed.inner_of_group {Q : ConditionTree → Prop} {padded : Bool} {t : RuleTree}
    (h : (RuleTree.group padded t).Formed Q) : t.Formed Q := by
  generalize whole : RuleTree.group padded t = u at h
  cases h with
  | group inner =>
    cases whole
    exact inner
  | @chain c => cases c <;> cases whole
  | _ => cases whole

theorem RuleTree.Formed.inner_of_not {Q : ConditionTree → Prop} {t : RuleTree}
    (h : (RuleTree.not t).Formed Q) : t.isMember = true ∧ t.Formed Q := by
  generalize whole : RuleTree.not t = u at h
  cases h with
  | not member inner =>
    cases whole
    exact ⟨member, inner⟩
  | @chain c => cases c <;> cases whole
  | _ => cases whole

theorem RuleTree.formed_join_iff {Q : ConditionTree → Prop} {c : Connective}
    {ts : List RuleTree} : (c.join ts).Formed Q ↔
      2 ≤ ts.length ∧ (∀ t ∈ ts, c.takes t = true) ∧ ∀ t ∈ ts, t.Formed Q := by
  constructor
  · intro h
    generalize whole : c.join ts = u at h
    cases h with
    | chain several members all =>
      obtain ⟨rfl, rfl⟩ := Connective.join_inj whole
      exact ⟨several, members, all⟩
    | _ => cases c <;> cases whole
  · rintro ⟨several, members, all⟩
    exact .chain several members all

/-- What a written form says about the shape of the phrase. -/
def Phrase.Shaped : Phrase → Prop
  | .unit t => t.Formed (fun _ => True) ∧ t.isMember = true
  | .series .and t => t.Formed (fun _ => True) ∧ t.isDisjunction = false
  | .series .or t => t.Formed (fun _ => True)
  | .further c ts => ∀ t ∈ ts, t.Formed (fun _ => True) ∧ c.takes t = true

theorem Phrase.Shaped.part {c : Connective} {t : RuleTree} (h : (c.part t).Shaped) :
    t.Formed (fun _ => True) ∧ c.takes t = true := by
  cases c with
  | and => exact h
  | or => exact ⟨h.1, by simp [Connective.takes, h.2]⟩

theorem Phrase.Written.shaped {x : Phrase} {cs : List Char} (h : x.Written cs) : x.Shaped := by
  induction h with
  | condition h => exact ⟨.condition trivial, rfl⟩
  | group _ _ _ ih => exact ⟨.group ih, rfl⟩
  | not _ _ _ _ ih => exact ⟨.not ih.2 ih.1, rfl⟩
  | @alone c t cs h ih =>
    cases c with
    | and => exact ⟨ih.1, RuleTree.isDisjunction_of_isMember ih.2⟩
    | or => exact ih.1
  | @joined c t ts cs ds several first rest ihFirst ihRest =>
    have members : ∀ u ∈ t :: ts, u.Formed (fun _ => True) ∧ c.takes u = true :=
      List.forall_mem_cons.mpr ⟨ihFirst.part, ihRest⟩
    have length : 2 ≤ (t :: ts).length := by
      have := List.length_pos_iff.mpr several
      simp only [List.length_cons]
      omega
    have formed : (c.join (t :: ts)).Formed (fun _ => True) :=
      .chain length (fun u hu => (members u hu).2) (fun u hu => (members u hu).1)
    cases c with
    | and => exact ⟨formed, rfl⟩
    | or => exact formed
  | nil => simp [Phrase.Shaped]
  | cons _ _ _ _ _ _ ihFirst ihRest => exact List.forall_mem_cons.mpr ⟨ihFirst.part, ihRest⟩

end DirectoryAccess.Grammar
