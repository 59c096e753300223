import DirectoryAccess.Proofs.Rules.Meaning
import DirectoryAccess.Proofs.Stack.Nesting

/-!
# What is read means what is written

The rule that is made of a tree has the conditions of the tree in their order, and the truth value
of the tree whatever the facts are. Parentheses that matter are kept: wherever the words alone would
group the rule in another way, they stand around the chain.
-/
namespace DirectoryAccess

open Grammar

/-! ### The conditions in their order -/

/-- The condition asks what the tree asks, and has for its value what is read of the texts there. -/
structure Grammar.ConditionTree.States (t : ConditionTree) (c : Condition) : Prop where
  keyword : c.keyword = some t.keyword
  operator : c.operator = some t.operator
  value : ∃ e, Expression.read t.keyword t.values t.quoting = .ok e ∧ c.expression = some e
  fact : c.fact = t.settle.fact

theorem Grammar.ConditionTree.states_of_toCondition {t : ConditionTree} {p : Bool} {c : Condition}
    (h : t.toCondition p = .ok c) : t.States c := by
  have fact := (settled_settle h).fact (toCondition_settle h)
  obtain ⟨e, read, _, _, _, rfl⟩ := toCondition_eq_ok_iff.mp h
  exact ⟨rfl, rfl, ⟨e, t.quoting_eq ▸ read, rfl⟩, fact⟩

theorem BindRule.Encloses.states {ts : List ConditionTree} {padded : Bool} {x r : BindRule}
    (h : Encloses padded x r) (states : List.Forall₂ ConditionTree.States ts x.values) :
    List.Forall₂ ConditionTree.States ts r.values := by
  cases h with
  | condition =>
    rw [Node.values, List.forall₂_cons_right_iff] at states
    obtain ⟨t, rest, asks, none', rfl⟩ := states
    obtain rfl := List.forall₂_nil_right_iff.mp none'
    exact .cons ⟨asks.keyword, asks.operator, asks.value, asks.fact⟩ .nil
  | stack =>
    rw [Node.values_stack] at states ⊢
    exact states
  | wrapped =>
    rw [Node.values_stack]
    simpa using states

theorem Grammar.RuleTree.Formed.states {Q : ConditionTree → Prop} {layout : Layout} {t : RuleTree}
    (formed : t.Formed Q) :
    ∀ r : BindRule, t.toBindRule layout = .ok r →
      List.Forall₂ ConditionTree.States t.conditions r.values := by
  induction formed using Formed.lowering_induction with
  | condition t _ =>
    intro r made
    obtain ⟨c, made', rfl⟩ := toBindRule_condition.mp made
    exact .cons (ConditionTree.states_of_toCondition made') .nil
  | group padded t _ ih =>
    intro r made
    obtain ⟨x, inner, grouped⟩ := toBindRule_group.mp made
    exact (BindRule.encloses_of_grouped grouped).states (ih x inner)
  | chain c ts _ _ _ ih =>
    intro r made
    obtain ⟨xs, each, _, rfl⟩ := toBindRule_join.mp made
    have members : List.Forall₂ (fun t x => t ∈ ts ∧ t.toBindRule layout = .ok x) ts xs :=
      (List.forall₂_and_left _ _).mpr ⟨fun t ht => ht, each⟩
    have states := members.imp fun t x both => ih t both.1 x both.2
    rw [c.conditions_join, Node.values_stack]
    exact List.rel_flatMap states fun _ _ same => same
  | negatedGroup padded t _ ih =>
    intro r made
    obtain ⟨x, inner, _, rfl⟩ := toBindRule_negatedGroup.mp made
    rw [Node.values_stack, conditions, conditions]
    simpa using ih x inner
  | not t other _ _ ih =>
    intro r made
    obtain ⟨x, inner, _, rfl⟩ := (toBindRule_not other).mp made
    rw [Node.values_stack, conditions]
    simpa using ih x inner

/-! ### Parentheses that matter -/

namespace BindRule

/-- A stack of the kind without parentheses around it. -/
def IsOpen (kind : StackKind) (x : BindRule) : Prop :=
  ∃ s es, x = .stack s es ∧ s.kind = kind ∧ s.parenthesized = false

/-- No element of the stack is a chain that the words would group in another way: there is no open
disjunction in a conjunction, and no open chain in a negation without parentheses. -/
structure Delimits (s : Settings) (es : List BindRule) : Prop where
  conjunction : s.kind = .and → ∀ x ∈ es, ¬ IsOpen .or x
  negation : s.kind = .not → s.parenthesized = false →
    ∀ x ∈ es, ¬ IsOpen .and x ∧ ¬ IsOpen .or x

/-- It is so in every stack within the rule. -/
def DelimitedWithin (r : BindRule) : Prop :=
  ∀ s es, (Node.stack s es).Within r → Delimits s es

theorem isOpen_stack_iff {kind : StackKind} {s : Settings} {es : List BindRule} :
    IsOpen kind (.stack s es) ↔ s.kind = kind ∧ s.parenthesized = false := by
  constructor
  · rintro ⟨_, _, same, own⟩
    obtain ⟨rfl, _⟩ := Node.stack.inj same
    exact own
  · intro own
    exact ⟨s, es, rfl, own⟩

theorem not_isOpen_leaf {kind : StackKind} (c : Condition) : ¬ IsOpen kind (.leaf c) := by
  rintro ⟨_, _, same, _⟩
  cases same

theorem delimitedWithin_leaf (c : Condition) : DelimitedWithin (.leaf c) :=
  Node.forall_within_leaf

theorem delimitedWithin_stack_iff {s : Settings} {es : List BindRule} :
    DelimitedWithin (.stack s es) ↔ Delimits s es ∧ ∀ x ∈ es, DelimitedWithin x :=
  Node.forall_within_stack_iff

/-- Parentheses of a stack's own are put around anything but an open disjunction. -/
theorem delimitedWithin_wrapped {layout : Layout} {padded : Bool} {x r : BindRule}
    (h : wrapped layout padded x = .ok r) (within : DelimitedWithin x) (other : ¬ IsOpen .or x) :
    DelimitedWithin r ∧ ∀ kind, ¬ IsOpen kind r := by
  obtain ⟨rfl, _⟩ := wrapped_eq_ok_iff.mp h
  refine ⟨delimitedWithin_stack_iff.mpr ⟨⟨?_, by rintro ⟨⟩⟩, by simpa using within⟩, ?_⟩
  · intro _
    simpa using other
  · intro kind isOpen
    obtain ⟨_, bare⟩ := isOpen_stack_iff.mp isOpen
    cases bare

/-- A rule in parentheses is not open, and what was delimited in it stays so. -/
theorem delimitedWithin_grouped {layout : Layout} {padded : Bool} {x r : BindRule}
    (h : grouped layout padded x = .ok r) (within : DelimitedWithin x) :
    DelimitedWithin r ∧ ∀ kind, ¬ IsOpen kind r := by
  cases x with
  | leaf c =>
    rw [grouped] at h
    split at h
    · exact delimitedWithin_wrapped h within (not_isOpen_leaf c)
    · obtain rfl := Except.ok.inj h
      exact ⟨delimitedWithin_leaf _, fun kind => not_isOpen_leaf _⟩
  | stack s es =>
    rw [grouped] at h
    split at h
    · next closed =>
      refine delimitedWithin_wrapped h within fun isOpen => ?_
      obtain ⟨kind, bare⟩ := isOpen_stack_iff.mp isOpen
      simp [kind, bare] at closed
    · next free =>
      obtain rfl := Except.ok.inj h
      simp only [Bool.or_eq_true, not_or, Bool.not_eq_true, beq_eq_false_iff_ne] at free
      obtain ⟨own, all⟩ := delimitedWithin_stack_iff.mp within
      refine ⟨delimitedWithin_stack_iff.mpr ⟨⟨own.conjunction, ?_⟩, all⟩, ?_⟩
      · intro negation
        exact absurd negation free.2
      · intro kind isOpen
        obtain ⟨_, bare⟩ := isOpen_stack_iff.mp isOpen
        cases bare

end BindRule

/-- What is made of a tree is delimited, and it is an open chain only if the tree is one. -/
theorem Grammar.RuleTree.Formed.delimited {Q : ConditionTree → Prop} {layout : Layout}
    {t : RuleTree} (formed : t.Formed Q) :
    ∀ r, t.toBindRule layout = .ok r → BindRule.DelimitedWithin r ∧
      (t.isMember = true → ¬ BindRule.IsOpen .and r) ∧
      (t.isDisjunction = false → ¬ BindRule.IsOpen .or r) := by
  induction formed using Formed.lowering_induction with
  | condition t _ =>
    intro r made
    obtain ⟨c, _, rfl⟩ := toBindRule_condition.mp made
    exact ⟨BindRule.delimitedWithin_leaf c, fun _ => BindRule.not_isOpen_leaf c,
      fun _ => BindRule.not_isOpen_leaf c⟩
  | group padded t _ ih =>
    intro r made
    obtain ⟨x, inner, grouped⟩ := toBindRule_group.mp made
    obtain ⟨within, closed⟩ := BindRule.delimitedWithin_grouped grouped (ih x inner).1
    exact ⟨within, fun _ => closed _, fun _ => closed _⟩
  | chain c ts _ members _ ih =>
    intro r made
    obtain ⟨xs, each, _, rfl⟩ := toBindRule_join.mp made
    -- Neither chain takes a disjunction for a member.
    have apart : ∀ x ∈ xs, BindRule.DelimitedWithin x ∧ ¬ BindRule.IsOpen .or x := by
      refine forall_of_forall₂ each fun t ht x hx => ?_
      obtain ⟨within, _, disjunction⟩ := ih t ht x hx
      refine ⟨within, disjunction ?_⟩
      cases c with
      | and => exact isDisjunction_of_isMember (members t ht)
      | or => simpa [Connective.takes] using members t ht
    refine ⟨BindRule.delimitedWithin_stack_iff.mpr
      ⟨⟨fun _ x hx => (apart x hx).2, ?_⟩, fun x hx => (apart x hx).1⟩, ?_, ?_⟩
    · intro negation
      exact absurd negation c.kind_ne_not
    · intro member
      cases c <;> cases member
    · intro other isOpen
      cases c with
      | and =>
        obtain ⟨kind, _⟩ := BindRule.isOpen_stack_iff.mp isOpen
        cases kind
      | or => cases other
  | negatedGroup padded t _ ih =>
    intro r made
    obtain ⟨x, inner, _, rfl⟩ := toBindRule_negatedGroup.mp made
    refine ⟨BindRule.delimitedWithin_stack_iff.mpr
      ⟨⟨by rintro ⟨⟩, by rintro _ ⟨⟩⟩, by simpa using (ih x inner).1⟩, ?_, ?_⟩ <;>
    · intro _ isOpen
      obtain ⟨kind, _⟩ := BindRule.isOpen_stack_iff.mp isOpen
      cases kind
  | not t other member _ ih =>
    intro r made
    obtain ⟨x, inner, _, rfl⟩ := (toBindRule_not other).mp made
    obtain ⟨within, conjunction, disjunction⟩ := ih x inner
    have closed := And.intro (conjunction member) (disjunction (isDisjunction_of_isMember member))
    refine ⟨BindRule.delimitedWithin_stack_iff.mpr
      ⟨⟨by rintro ⟨⟩, fun _ _ => by simpa using closed⟩, by simpa using within⟩, ?_, ?_⟩ <;>
    · intro _ isOpen
      obtain ⟨kind, _⟩ := BindRule.isOpen_stack_iff.mp isOpen
      cases kind

/-! ### What is read -/

namespace BindRule

/-- The rule that is read from a text has the conditions that are written there, in their order,
and the truth value of what is written whatever the facts are. It is delimited at every depth. -/
theorem read_keeps_meaning {text : String} {layout : Layout} {r : BindRule}
    (read : BindRule.read text layout = .ok r) :
    ∃ t : RuleTree, wholeRule.readText text.toList = .ok t ∧
      List.Forall₂ ConditionTree.States t.conditions r.values ∧
      (∀ v, r.holds v = t.settle.holds v) ∧ DelimitedWithin r := by
  obtain ⟨t, parsed, formed, made⟩ := exists_tree_of_read read
  obtain ⟨settled, again⟩ := formed.settled r made
  exact ⟨t, parsed, formed.states r made, fun v => settled.holds v r again,
    (formed.delimited r made).1⟩

/-- A disjunction in two pairs of parentheses, and a negation of a negation in some. -/
def nestedText : String :=
  "not ( not ip=\"10.0.0.1\") and " ++
    "((dns=\"a.b\" or userdn=\"ldap:///o=x||ldap:///self\")) and (ssf>\"1\")"

theorem read_keeps_meaning_nested :
    ∃ r, BindRule.read nestedText = .ok r ∧
      ∃ t : RuleTree, wholeRule.readText nestedText.toList = .ok t ∧
        List.Forall₂ ConditionTree.States t.conditions r.values ∧
        (∀ v, r.holds v = t.settle.holds v) ∧ DelimitedWithin r := by
  have accepted : (BindRule.read nestedText).toBool = true := by
    decide +kernel
  cases read : BindRule.read nestedText with
  | error e =>
    rw [read] at accepted
    cases accepted
  | ok r => exact ⟨r, rfl, read_keeps_meaning read⟩

end BindRule

end DirectoryAccess
