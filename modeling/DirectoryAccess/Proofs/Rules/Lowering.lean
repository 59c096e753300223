import DirectoryAccess.Proofs.Rules.Composed
import DirectoryAccess.Proofs.Rules.Spelling

/-!
# From trees to bind rules

What is made of a tree is composed and valid, and it is written as the tree is once the values are
settled. The rule that is read from a text is therefore read from its own written form.
-/
namespace DirectoryAccess

open Grammar

namespace BindRule

/-! ### Parentheses around a rule -/

/-- What a rule becomes when parentheses are put around it. -/
inductive Encloses (padded : Bool) : BindRule → BindRule → Prop
  | condition {c : Condition} (bare : c.parenthesized = false) (same : c.padded = padded) :
    Encloses padded (.leaf c) (.leaf { c with parenthesized := true })
  | stack {s : Settings} {es : List BindRule} (bare : s.parenthesized = false)
    (word : s.kind ≠ .not) :
    Encloses padded (.stack s es) (.stack { s with parenthesized := true, padded } es)
  | wrapped {x : BindRule} (fits : x.Fits) :
    Encloses padded x (.stack (settings .and true padded) [x])

theorem admits_singleton {kind : StackKind} {p q : Bool} (boolean : kind ≠ .list) {x : BindRule} :
    (settings kind p q).Admits [x] ↔ x.Fits := by
  rw [admits_iff boolean]
  simp

/-- An empty stack of bind rules takes a rule that fits. -/
theorem pushLawful_empty {kind : StackKind} {p q : Bool} (boolean : kind ≠ .list) {x : BindRule}
    {t : Stack Condition} :
    (⟨settings kind p q, []⟩ : Stack Condition).pushLawful x = .ok t ↔
      t = ⟨settings kind p q, [x]⟩ ∧ x.Fits := by
  have lawful : Stack.Lawful (⟨settings kind p q, []⟩ : Stack Condition) := Settings.admits_nil
  unfold Stack.pushLawful
  rw [mapError_eq_ok, Stack.push?_eq_ok_iff lawful]
  constructor
  · rintro ⟨rfl, after⟩
    exact ⟨rfl, (admits_singleton boolean).mp after⟩
  · rintro ⟨rfl, fits⟩
    exact ⟨rfl, (admits_singleton boolean).mpr fits⟩

theorem wrapped_eq_ok_iff {layout : Layout} {padded : Bool} {x r : BindRule} :
    wrapped layout padded x = .ok r ↔ r = .stack (settings .and true padded) [x] ∧ x.Fits := by
  unfold wrapped
  rw [bind_eq_ok]
  constructor
  · rintro ⟨t, pushed, made⟩
    have boolean : StackKind.and ≠ .list := by decide
    obtain ⟨rfl, fits⟩ := (pushLawful_empty (p := true) (q := padded) boolean).mp pushed
    obtain rfl := pure_eq_ok.mp made
    exact ⟨rfl, fits⟩
  · rintro ⟨rfl, fits⟩
    have boolean : StackKind.and ≠ .list := by decide
    exact ⟨⟨settings .and true padded, [x]⟩, (pushLawful_empty boolean).mpr ⟨rfl, fits⟩, rfl⟩

theorem encloses_of_grouped {layout : Layout} {padded : Bool} {x r : BindRule}
    (h : grouped layout padded x = .ok r) : Encloses padded x r := by
  cases x with
  | leaf c =>
    rw [grouped] at h
    split at h
    · obtain ⟨rfl, fits⟩ := wrapped_eq_ok_iff.mp h
      exact .wrapped fits
    next free =>
      obtain rfl := Except.ok.inj h
      simp only [Bool.or_eq_true, not_or, Bool.not_eq_true, bne_eq_false_iff_eq] at free
      exact .condition free.1 free.2
  | stack s es =>
    rw [grouped] at h
    split at h
    · obtain ⟨rfl, fits⟩ := wrapped_eq_ok_iff.mp h
      exact .wrapped fits
    next free =>
      obtain rfl := Except.ok.inj h
      simp only [Bool.or_eq_true, not_or, Bool.not_eq_true, beq_eq_false_iff_ne] at free
      exact .stack free.1 free.2

theorem grouped_of_fits (layout : Layout) (padded : Bool) {x : BindRule} (fits : x.Fits) :
    ∃ r, grouped layout padded x = .ok r := by
  have wraps : wrapped layout padded x = .ok (.stack (settings .and true padded) [x]) :=
    wrapped_eq_ok_iff.mpr ⟨rfl, fits⟩
  cases x with
  | leaf c =>
    rw [grouped]
    split
    · exact ⟨_, wraps⟩
    · exact ⟨_, rfl⟩
  | stack s es =>
    rw [grouped]
    split
    · exact ⟨_, wraps⟩
    · exact ⟨_, rfl⟩

theorem Encloses.composed {padded : Bool} {x r : BindRule} (h : Encloses padded x r)
    (composed : x.Composed) : r.Composed := by
  cases h with
  | condition =>
    rw [composed_leaf_iff] at composed ⊢
    obtain ⟨canonical, permitted, full, valid⟩ := composed
    exact .intro canonical permitted full valid
  | stack =>
    cases composed with
    | @stack kind p q es boolean admitted all =>
      obtain ⟨room, fits⟩ := (admits_iff boolean).mp admitted
      exact composed_stack (p := true) (q := padded) boolean room fits all
  | wrapped fits => exact composed_singleton (by decide) fits composed

theorem Encloses.validate {padded : Bool} {x r : BindRule} (h : Encloses padded x r)
    (valid : x.validate = .ok ()) : r.validate = .ok () := by
  cases h with
  | condition => exact valid
  | stack => exact valid
  | wrapped fits => exact (fits_singleton (by decide) fits).valid

theorem Encloses.fits {padded : Bool} {x r : BindRule} (h : Encloses padded x r)
    (fits : x.Fits) : r.Fits := by
  refine ⟨h.validate fits.valid, ?_⟩
  cases h with
  | condition => exact fits.place
  | stack => exact fits.place
  | wrapped => rfl

/-- However parentheses are put around a rule, they are written around it. -/
theorem Encloses.render {padded : Bool} {x r : BindRule} (h : Encloses padded x r)
    (composed : x.Composed) (valid : x.validate = .ok ()) :
    r.render = enclosed true padded x.render := by
  cases h with
  | condition bare same =>
    obtain ⟨_, _, _, _⟩ := composed_leaf_iff.mp composed
    obtain rfl : _ = false := bare
    obtain rfl : _ = padded := same
    exact render_leaf
  | stack bare word =>
    cases composed with
    | @stack kind p q es boolean admitted all =>
      have full := ((validate_stack_iff boolean).mp valid).1
      obtain rfl : p = false := bare
      have word' : kind ≠ .not := word
      have after := render_stack (p := true) (q := padded) boolean full
      rw [if_neg word', String.empty_append] at after
      rw [render_stack boolean full, if_neg word', String.empty_append]
      exact after
  | wrapped =>
    rw [render_singleton (by decide), if_neg (by decide), String.empty_append]

end BindRule

/-! ### What is made of each kind of tree -/

namespace Grammar

def Connective.kind : Connective → StackKind
  | and => .and
  | or => .or

theorem Connective.kind_ne_list (c : Connective) : c.kind ≠ .list := by
  cases c <;> decide

theorem Connective.kind_ne_not (c : Connective) : c.kind ≠ .not := by
  cases c <;> decide

theorem Connective.joint_kind (c : Connective) : BindRule.joint c.kind = c.joint := by
  cases c <;> rfl

namespace RuleTree

variable {layout : Layout} {r : BindRule}

theorem addAll_eq_ok_iff {ts : List RuleTree} {s s' : Stack Condition} :
    addAll layout s ts = .ok s' ↔
      ∃ xs, List.Forall₂ (fun t x => t.toBindRule layout = .ok x) ts xs ∧
        s.pushAll? xs = .ok s' := by
  induction ts generalizing s with
  | nil =>
    rw [addAll]
    constructor
    · intro h
      obtain rfl := Except.ok.inj h
      exact ⟨[], .nil, rfl⟩
    · rintro ⟨xs, made, pushed⟩
      cases made
      obtain rfl := Except.ok.inj pushed
      rfl
  | cons t ts ih =>
    rw [addAll, bind_eq_ok]
    constructor
    · rintro ⟨x, made, h⟩
      obtain ⟨u, first, others⟩ := bind_eq_ok.mp h
      obtain ⟨xs, made', pushed⟩ := ih.mp others
      exact ⟨x :: xs, .cons made made', bind_eq_ok.mpr ⟨u, mapError_eq_ok.mp first, pushed⟩⟩
    · rintro ⟨_, made, pushed⟩
      cases made with
      | @cons _ x _ xs made made' =>
        obtain ⟨u, first, others⟩ := bind_eq_ok.mp pushed
        exact ⟨x, made, bind_eq_ok.mpr ⟨u, mapError_eq_ok.mpr first, ih.mpr ⟨xs, made', others⟩⟩⟩

theorem toBindRule_condition {t : ConditionTree} :
    (condition t).toBindRule layout = .ok r ↔ ∃ c, t.toCondition false = .ok c ∧ r = .leaf c := by
  rw [toBindRule, bind_eq_ok]
  simp only [pure_eq_ok, @eq_comm _ r]

theorem toBindRule_join {c : Connective} {ts : List RuleTree} :
    (c.join ts).toBindRule layout = .ok r ↔
      ∃ xs : List BindRule, List.Forall₂ (fun t x => t.toBindRule layout = .ok x) ts xs ∧
        (∀ x ∈ xs, x.Fits) ∧
        r = .stack (BindRule.settings c.kind false layout.paddedStacks) xs := by
  have unfolded : (c.join ts).toBindRule layout = (do
      return (← addAll layout (Stack.bindRules c.kind layout) ts).toNode) := by
    cases c <;> exact toBindRule.eq_def ..
  have lawful : (Stack.bindRules c.kind layout).Lawful := Settings.admits_nil
  have admits : ∀ xs : List BindRule,
      Stack.Lawful (⟨(Stack.bindRules c.kind layout).settings, xs⟩ : Stack Condition) ↔
        ∀ x ∈ xs, x.Fits := by
    intro xs
    refine (BindRule.admits_iff c.kind_ne_list).trans (and_iff_right ?_)
    intro negation
    exact absurd negation c.kind_ne_not
  rw [unfolded, bind_eq_ok]
  constructor
  · rintro ⟨s, added, made⟩
    obtain ⟨xs, each, pushed⟩ := addAll_eq_ok_iff.mp added
    obtain ⟨rfl, after⟩ := (Stack.pushAll?_eq_ok_iff lawful).mp pushed
    exact ⟨xs, each, (admits xs).mp after, (pure_eq_ok.mp made).symm⟩
  · rintro ⟨xs, each, fits, rfl⟩
    refine ⟨⟨(Stack.bindRules c.kind layout).settings, xs⟩,
      addAll_eq_ok_iff.mpr ⟨xs, each, ?_⟩, rfl⟩
    exact (Stack.pushAll?_eq_ok_iff lawful).mpr ⟨rfl, (admits xs).mpr fits⟩

theorem toBindRule_negatedGroup {padded : Bool} {inner : RuleTree} :
    (not (group padded inner)).toBindRule layout = .ok r ↔
      ∃ x : BindRule, inner.toBindRule layout = .ok x ∧ x.Fits ∧
        r = .stack (BindRule.settings .not true padded) [x] := by
  have boolean : StackKind.not ≠ .list := by decide
  rw [toBindRule, bind_eq_ok]
  constructor
  · rintro ⟨x, made, h⟩
    obtain ⟨s, pushed, same⟩ := bind_eq_ok.mp h
    obtain ⟨rfl, fits⟩ := (BindRule.pushLawful_empty (p := true) (q := padded) boolean).mp pushed
    exact ⟨x, made, fits, (pure_eq_ok.mp same).symm⟩
  · rintro ⟨x, made, fits, rfl⟩
    exact ⟨x, made, bind_eq_ok.mpr ⟨⟨BindRule.settings .not true padded, [x]⟩,
      (BindRule.pushLawful_empty boolean).mpr ⟨rfl, fits⟩, rfl⟩⟩

theorem toBindRule_not {inner : RuleTree} (other : ∀ padded u, inner ≠ .group padded u) :
    (not inner).toBindRule layout = .ok r ↔
      ∃ x : BindRule, inner.toBindRule layout = .ok x ∧ x.Fits ∧
        r = .stack (BindRule.settings .not false layout.paddedStacks) [x] := by
  have boolean : StackKind.not ≠ .list := by decide
  rw [toBindRule, bind_eq_ok]
  · constructor
    · rintro ⟨x, made, h⟩
      obtain ⟨s, pushed, same⟩ := bind_eq_ok.mp h
      obtain ⟨rfl, fits⟩ :=
        (BindRule.pushLawful_empty (p := false) (q := layout.paddedStacks) boolean).mp pushed
      exact ⟨x, made, fits, (pure_eq_ok.mp same).symm⟩
    · rintro ⟨x, made, fits, rfl⟩
      exact ⟨x, made, bind_eq_ok.mpr ⟨⟨BindRule.settings .not false layout.paddedStacks, [x]⟩,
        (BindRule.pushLawful_empty boolean).mpr ⟨rfl, fits⟩, rfl⟩⟩
  · exact other

theorem toBindRule_group {padded : Bool} {inner : RuleTree} :
    (group padded inner).toBindRule layout = .ok r ↔
      ∃ x, inner.toBindRule layout = .ok x ∧ BindRule.grouped layout padded x = .ok r := by
  rw [toBindRule, bind_eq_ok]

/-! ### What is made of a tree -/

theorem ne_nil_of_several {ts : List RuleTree} (several : 2 ≤ ts.length) : ts ≠ [] := by
  rintro rfl
  simp at several

theorem Formed.composed {Q : ConditionTree → Prop} {t : RuleTree} (formed : t.Formed Q) :
    ∀ r, t.toBindRule layout = .ok r → r.Composed ∧ r.validate = .ok () := by
  induction formed using Formed.lowering_induction with
  | condition t _ =>
    intro r made
    obtain ⟨c, made', rfl⟩ := toBindRule_condition.mp made
    have settled := ConditionTree.settled_of_toCondition made'
    exact ⟨BindRule.composed_leaf_iff.mpr settled, settled.validate⟩
  | group padded t _ ih =>
    intro r made
    obtain ⟨x, inner, grouped⟩ := toBindRule_group.mp made
    obtain ⟨composed, valid⟩ := ih x inner
    have encloses := BindRule.encloses_of_grouped grouped
    exact ⟨encloses.composed composed, encloses.validate valid⟩
  | chain c ts several _ _ ih =>
    intro r made
    obtain ⟨xs, each, fits, rfl⟩ := toBindRule_join.mp made
    have full := ne_nil_of_forall₂ (ne_nil_of_several several) each
    have all := forall_of_forall₂ each fun t ht x hx => (ih t ht x hx).1
    have room : c.kind = .not → xs.length ≤ 1 := fun negation => absurd negation c.kind_ne_not
    exact ⟨BindRule.composed_stack c.kind_ne_list room fits all,
      (BindRule.fits_stack c.kind_ne_list full fits).valid⟩
  | negatedGroup padded t _ ih =>
    intro r made
    obtain ⟨x, inner, fits, rfl⟩ := toBindRule_negatedGroup.mp made
    exact ⟨BindRule.composed_singleton (by decide) fits (ih x inner).1,
      (BindRule.fits_singleton (by decide) fits).valid⟩
  | not t other _ _ ih =>
    intro r made
    obtain ⟨x, inner, fits, rfl⟩ := (toBindRule_not other).mp made
    exact ⟨BindRule.composed_singleton (by decide) fits (ih x inner).1,
      (BindRule.fits_singleton (by decide) fits).valid⟩

theorem Formed.render {t : RuleTree} (formed : t.Formed ConditionTree.Settled) :
    ∀ r, t.toBindRule layout = .ok r → r.render = t.text := by
  induction formed using Formed.lowering_induction with
  | condition t settled =>
    intro r made
    obtain ⟨c, made', rfl⟩ := toBindRule_condition.mp made
    exact settled.render made'
  | group padded t formed ih =>
    intro r made
    obtain ⟨x, inner, grouped⟩ := toBindRule_group.mp made
    obtain ⟨composed, valid⟩ := formed.composed x inner
    rw [(BindRule.encloses_of_grouped grouped).render composed valid, ih x inner]
    rfl
  | chain c ts several _ _ ih =>
    intro r made
    obtain ⟨xs, each, _, rfl⟩ := toBindRule_join.mp made
    have full := ne_nil_of_forall₂ (ne_nil_of_several several) each
    have same : xs.map Node.render = ts.map text :=
      (map_eq_of_forall₂ each fun t ht x hx => (ih t ht x hx).symm).symm
    rw [BindRule.render_stack c.kind_ne_list full, if_neg c.kind_ne_not, String.empty_append, same,
      c.joint_kind, c.text_join]
    rfl
  | negatedGroup padded t _ ih =>
    intro r made
    obtain ⟨x, inner, _, rfl⟩ := toBindRule_negatedGroup.mp made
    rw [BindRule.render_singleton (by decide), if_pos rfl, ih x inner]
    rfl
  | not t other _ _ ih =>
    intro r made
    obtain ⟨x, inner, _, rfl⟩ := (toBindRule_not other).mp made
    rw [BindRule.render_singleton (by decide), if_pos rfl, ih x inner]
    rfl

/-- The settled tree has the same shape, and the same rule is made of it. -/
theorem Formed.settled {Q : ConditionTree → Prop} {t : RuleTree} (formed : t.Formed Q) :
    ∀ r, t.toBindRule layout = .ok r →
      t.settle.Formed ConditionTree.Settled ∧ t.settle.toBindRule layout = .ok r := by
  induction formed using Formed.lowering_induction with
  | condition t _ =>
    intro r made
    obtain ⟨c, made', rfl⟩ := toBindRule_condition.mp made
    exact ⟨.condition (ConditionTree.settled_settle made'),
      toBindRule_condition.mpr ⟨c, ConditionTree.toCondition_settle made', rfl⟩⟩
  | group padded t _ ih =>
    intro r made
    obtain ⟨x, inner, grouped⟩ := toBindRule_group.mp made
    obtain ⟨formed, again⟩ := ih x inner
    exact ⟨.group formed, toBindRule_group.mpr ⟨x, again, grouped⟩⟩
  | chain c ts several members _ ih =>
    intro r made
    obtain ⟨xs, each, fits, rfl⟩ := toBindRule_join.mp made
    obtain ⟨formed, again⟩ := forall₂_map_of_forall₂ each ih
    rw [c.settle_join]
    refine ⟨.chain (by rwa [List.length_map]) ?_ formed, toBindRule_join.mpr ⟨xs, again, fits, rfl⟩⟩
    intro u hu
    obtain ⟨t, ht, rfl⟩ := List.mem_map.mp hu
    rw [c.takes_settle]
    exact members t ht
  | negatedGroup padded t _ ih =>
    intro r made
    obtain ⟨x, inner, fits, rfl⟩ := toBindRule_negatedGroup.mp made
    obtain ⟨formed, again⟩ := ih x inner
    exact ⟨.not rfl (.group formed), toBindRule_negatedGroup.mpr ⟨x, again, fits, rfl⟩⟩
  | not t other member _ ih =>
    intro r made
    obtain ⟨x, inner, fits, rfl⟩ := (toBindRule_not other).mp made
    obtain ⟨formed, again⟩ := ih x inner
    -- Settling makes no group of what is none, so the same case of making a rule applies.
    have other' : ∀ padded u, t.settle ≠ .group padded u := by
      intro padded u
      cases t with
      | group padded v => exact absurd rfl (other padded v)
      | _ => simp [settle]
    exact ⟨.not (by rwa [isMember_settle]) formed,
      (toBindRule_not other').mpr ⟨x, again, fits, rfl⟩⟩

/-- The tree of a condition gives a condition with a bind keyword. -/
def Binds (t : ConditionTree) : Prop :=
  ∃ c, t.toCondition false = .ok c ∧ t.keyword.isBind = true

/-- Where every condition is one of a bind rule, a rule is made of the tree, and it can stand among
others. -/
theorem Formed.exists_rule {t : RuleTree} (formed : t.Formed Binds) (layout : Layout) :
    ∃ r : BindRule, t.toBindRule layout = .ok r ∧ r.Fits := by
  induction formed using Formed.lowering_induction with
  | condition t binds =>
    obtain ⟨c, made, bind⟩ := binds
    refine ⟨.leaf c, toBindRule_condition.mpr ⟨c, made, rfl⟩,
      (ConditionTree.settled_of_toCondition made).validate, ?_⟩
    obtain ⟨_, _, _, _, _, rfl⟩ := ConditionTree.toCondition_eq_ok_iff.mp made
    intro k keyword
    rw [← Option.some.inj keyword]
    exact bind
  | group padded t _ ih =>
    obtain ⟨x, inner, fits⟩ := ih
    obtain ⟨r, grouped⟩ := BindRule.grouped_of_fits layout padded fits
    exact ⟨r, toBindRule_group.mpr ⟨x, inner, grouped⟩,
      (BindRule.encloses_of_grouped grouped).fits fits⟩
  | chain c ts several _ _ ih =>
    obtain ⟨xs, each⟩ := exists_forall₂ ih
    have made := each.imp fun _ _ h => h.1
    have fits := forall_of_forall₂ each fun t ht x hx => hx.2
    exact ⟨_, toBindRule_join.mpr ⟨xs, made, fits, rfl⟩,
      BindRule.fits_stack c.kind_ne_list (ne_nil_of_forall₂ (ne_nil_of_several several) each) fits⟩
  | negatedGroup padded t _ ih =>
    obtain ⟨x, inner, fits⟩ := ih
    exact ⟨_, toBindRule_negatedGroup.mpr ⟨x, inner, fits, rfl⟩,
      BindRule.fits_singleton (by decide) fits⟩
  | not t other _ _ ih =>
    obtain ⟨x, inner, fits⟩ := ih
    exact ⟨_, (toBindRule_not other).mpr ⟨x, inner, fits, rfl⟩,
      BindRule.fits_singleton (by decide) fits⟩

end RuleTree

end Grammar

/-! ### Whole bind rules -/

namespace BindRule

/-- A rule that is made of a settled tree is read from the text of the tree. -/
theorem read_text {t : Grammar.RuleTree} (formed : t.Formed ConditionTree.Settled)
    {layout : Layout} {r : BindRule} (made : t.toBindRule layout = .ok r) :
    BindRule.read t.text layout = .ok r := by
  have quotable : t.Formed ConditionTree.Quotable :=
    formed.mono fun _ => ConditionTree.Settled.quotable
  have parsed : wholeRule.readAll t.text.toList = .ok t :=
    wholeRule_readAll_iff.mpr
      ⟨[], t.text.toList, [], by simp, isGap_nil, isGap_nil, quotable.written⟩
  unfold BindRule.read
  exact bind_eq_ok.mpr ⟨t, mapError_eq_ok.mpr (readText_eq_ok.mpr parsed), made⟩

theorem exists_tree_of_read {text : String} {layout : Layout} {r : BindRule}
    (h : BindRule.read text layout = .ok r) :
    ∃ t : Grammar.RuleTree, wholeRule.readText text.toList = .ok t ∧ t.Formed (fun _ => True) ∧
      t.toBindRule layout = .ok r := by
  obtain ⟨t, read, made⟩ := bind_eq_ok.mp h
  have parsed := mapError_eq_ok.mp read
  obtain ⟨_, _, _, _, _, _, written⟩ := wholeRule_readAll_iff.mp (readText_eq_ok.mp parsed)
  exact ⟨t, parsed, written.shaped, made⟩

theorem read_render {text : String} {layout : Layout} {r : BindRule}
    (h : BindRule.read text layout = .ok r) : BindRule.read r.render layout = .ok r := by
  obtain ⟨t, _, formed, made⟩ := exists_tree_of_read h
  obtain ⟨settled, again⟩ := formed.settled r made
  rw [settled.render r again]
  exact read_text settled again

end BindRule

end DirectoryAccess
