import DirectoryAccess.Proofs.Condition.Quotable

/-!
# Conditions of typed values are sound or void

A typed value, or a list of values, gives a condition for each operator. Where the value is valid
and its keyword permits the operator, the condition is valid; otherwise nothing is left of it. No
value gives a condition that is only half there.
-/
namespace DirectoryAccess

theorem toOption_map_eq_some_iff {ε β : Type} {x : Except ε Unit} {b c : β} :
    x.toOption.map (fun _ => b) = some c ↔ x = .ok () ∧ b = c := by
  cases x <;> simp [Except.toOption]

theorem isSome_toOption_iff {ε : Type} {x : Except ε Unit} :
    x.toOption.isSome = true ↔ x = .ok () := by
  cases x <;> simp [Except.toOption]

theorem FitsQuotes.sound_value {t : String} (h : FitsQuotes t) :
    (Expression.value t).isEmpty = false ∧ (Expression.value t).validate = .ok () := by
  have visible : t.isEmpty = false := by simpa using h.full
  exact ⟨visible, Expression.validate_value_eq_ok_iff.mpr ⟨visible, h.unquoted⟩⟩

/-! ### Conditions of operands -/

namespace Condition

/-- The condition is the valid comparison of the keyword with the expression, spaced by the
layout. -/
structure Compares (c : Condition) (k : Keyword) (op : Comparison) (e : Expression)
    (layout : Layout) : Prop where
  valid : c.validate = .ok ()
  keyword : c.keyword = some k
  operator : c.operator = some op
  expression : c.expression = some e
  parenthesized : c.parenthesized = k.isTarget
  padded : c.padded = layout.paddedRules

theorem compares_new {k : Keyword} {op : Comparison} {e : Expression} (layout : Layout)
    (permitted : k.permits op = true) (full : e.isEmpty = false) (sound : e.validate = .ok ()) :
    (new k op e layout).Compares k op e layout := by
  refine ⟨?_, rfl, rfl, rfl, rfl, rfl⟩
  exact Condition.validate_eq_ok_iff.mpr ⟨permitted, full, sound⟩

/-- A comparison with one value is read from what it is written as if the value is. -/
theorem read_value_iff {k : Keyword} {op : Comparison} {text : String} (layout : Layout)
    (permitted : k.permits op = true) (fits : FitsQuotes text) :
    Condition.read (new k op (.value text) layout).render = .ok (new k op (.value text) layout) ↔
      Expression.read k [text] .whole = .ok (.value text) := by
  have values : Grammar.WritesValues [text] (Expression.value text).render.toList :=
    Grammar.ConditionTree.writesValues_single fits.unquoted
  rw [read_new values]
  constructor
  · rintro ⟨e, read, _, _, _, same⟩
    cases same
    exact read
  · intro read
    exact ⟨.value text, read, permitted, fits.sound_value.1, fits.sound_value.2, rfl⟩

end Condition

/-- The permitted operators are listed in the order of their ordinals. -/
theorem Keyword.pairwise_permitted (k : Keyword) :
    k.permitted.Pairwise (fun p q => p.ordinal < q.ordinal) := by
  rcases k with k | k <;> cases k <;> decide

namespace Operand

/-- The expression, if there is one, can stand in a condition. -/
def Sound (o : Operand) : Prop :=
  ∀ e ∈ o.expression, e.isEmpty = false ∧ e.validate = .ok ()

theorem sound_single {k : Keyword} {text : Option String} (h : ∀ t ∈ text, FitsQuotes t) :
    (single k text).Sound := by
  intro e he
  obtain ⟨t, present, rfl⟩ := Option.map_eq_some_iff.mp he
  exact (h t present).sound_value

variable {o : Operand} {k : Keyword} {op : Comparison} {e : Expression}

theorem condition_eq_new (layout : Layout) (keyword : o.keyword = some k)
    (expression : o.expression = some e) (permitted : k.permits op = true) :
    o.condition op layout = .new k op e layout := by
  unfold condition
  rw [keyword, expression]
  exact if_pos permitted

theorem condition_eq_void (layout : Layout)
    (missing : ¬ ∃ k, o.keyword = some k ∧ k.permits op = true ∧ o.expression.isSome = true) :
    o.condition op layout = .void := by
  unfold condition
  split
  · next k e keyword expression =>
    refine if_neg fun permitted => missing ⟨k, keyword, permitted, ?_⟩
    rw [expression]
    rfl
  · rfl

theorem mem_permitted : op ∈ o.permitted ↔ ∃ k, o.keyword = some k ∧ k.permits op = true := by
  unfold permitted
  cases o.keyword with
  | none => simp
  | some k => simp [Keyword.permits]

theorem pairwise_permitted (o : Operand) :
    o.permitted.Pairwise (fun p q => p.ordinal < q.ordinal) := by
  unfold permitted
  cases o.keyword with
  | none => exact .nil
  | some k => exact k.pairwise_permitted

end Operand

/-! ### Lists -/

namespace Stack

variable {α : Type} [LawfulListable α]

/-- A list that is valid has enough values for a condition, if it needs one at least. -/
theorem sound_toOperand {s : Stack α} (populated : 1 ≤ s.settings.minimum) :
    s.toOperand.Sound := by
  intro e he
  obtain ⟨valid, rfl⟩ := toOption_map_eq_some_iff.mp he
  rw [LawfulListable.isEmpty_toExpression, LawfulListable.validate_toExpression]
  refine ⟨?_, valid⟩
  have enough := ((validate_eq_ok_iff s).mp valid).1
  have some' : s.elements ≠ [] := List.length_pos_iff.mp (Nat.lt_of_lt_of_le populated enough)
  simpa [isEmpty] using some'

theorem sound_run {s : Stack α} (populated : 1 ≤ s.settings.minimum)
    (ops : List (Operation α)) : (s.run ops).toOperand.Sound := by
  refine sound_toOperand ?_
  rwa [(keeps_run s ops).settings]

omit [LawfulListable α] in
theorem isSome_expression [Listable α] (s : Stack α) :
    s.toOperand.expression.isSome = true ↔ s.validate = .ok () := by
  rw [← isSome_toOption_iff]
  exact Bool.coe_iff_coe.mpr Option.isSome_map

end Stack

/-! ### Typed values -/

/-- A value that can be compared with a keyword, of any of the types that there are, or a list. -/
inductive Comparand where
  | name (d : DistinguishedName)
  | identifier (o : ObjectIdentifier)
  | attributeType (a : AttributeType)
  | filter (f : Filter)
  | scope (s : SearchScope)
  | operation (o : FilterOperation)
  | addresses (l : AddressList)
  | host (h : HostName)
  | authentication (a : Authentication)
  | attributeMatch (m : AttributeMatch)
  | inheritance (i : Inheritance)
  | weekdays (w : Weekdays)
  | time (t : TimeOfDay)
  | strength (s : Strength)
  | names (s : Stack DistinguishedName)
  | identifiers (s : Stack ObjectIdentifier)
  | attributes (s : Stack AttributeType)
  | operations (s : Stack FilterOperation)

namespace Comparand

def toOperand : Comparand → Operand
  | name d => d.toOperand
  | identifier o => o.toOperand
  | attributeType a => a.toOperand
  | filter f => f.toOperand
  | scope s => s.toOperand
  | operation o => o.toOperand
  | addresses l => l.toOperand
  | host h => h.toOperand
  | authentication a => a.toOperand
  | attributeMatch m => m.toOperand
  | inheritance i => i.toOperand
  | weekdays w => w.toOperand
  | time t => t.toOperand
  | strength s => s.toOperand
  | names s => s.toOperand
  | identifiers s => s.toOperand
  | attributes s => s.toOperand
  | operations s => s.toOperand

/-- What the value's own check says, or that the value is not void where there is no check. -/
def Valid : Comparand → Prop
  | name d => d.validate = .ok ()
  | identifier o => o.validate = .ok ()
  | attributeType a => a.validate = .ok ()
  | filter f => f.validate = .ok ()
  | operation o => o.validate = .ok ()
  | addresses l => l.validate = .ok ()
  | host h => h.validate = .ok ()
  | attributeMatch m => m.validate = .ok ()
  | inheritance i => i.validate = .ok ()
  | weekdays w => w.isVoid = false
  | time t => t.isVoid = false
  | scope _ | authentication _ | strength _ => True
  | names s => s.validate = .ok ()
  | identifiers s => s.validate = .ok ()
  | attributes s => s.validate = .ok ()
  | operations s => s.validate = .ok ()

/-- The value has been made of any texts, and the list by any operations on an empty one. -/
def Made : Comparand → Prop
  | name d => d.Made
  | identifier o => o.Made
  | attributeType a => a.Made
  | filter f => f.Made
  | operation o => o.Made
  | addresses l => l.Made
  | host h => h.Made
  | attributeMatch m => m.Made
  | inheritance i => i.Made
  | scope _ | authentication _ | weekdays _ | time _ | strength _ => True
  | names s => ∃ k layout ops, s = (Stack.distinguishedNames k layout).run ops
  | identifiers s => ∃ k layout ops, s = (Stack.objectIdentifiers k layout).run ops
  | attributes s => ∃ layout ops, s = (Stack.attributeTypes layout).run ops
  | operations s => ∃ layout ops, s = (Stack.filterOperations layout).run ops

/-- There is an expression just where the value is valid. -/
theorem isSome_expression_iff (v : Comparand) :
    v.toOperand.expression.isSome = true ↔ v.Valid := by
  cases v with
  | name d =>
    cases named : d.name <;> simp [toOperand, Valid, DistinguishedName.toOperand, Operand.single,
      DistinguishedName.validate, DistinguishedName.isVoid, named]
  | identifier o =>
    cases named : o.dotted <;> simp [toOperand, Valid, ObjectIdentifier.toOperand, Operand.single,
      ObjectIdentifier.validate, ObjectIdentifier.isVoid, named]
  | attributeType a =>
    cases named : a.name <;> simp [toOperand, Valid, AttributeType.toOperand, Operand.single,
      AttributeType.validate, AttributeType.isVoid, named]
  | filter f =>
    cases present : f.text <;> simp [toOperand, Valid, Filter.toOperand, Operand.single,
      Filter.validate, Filter.isVoid, present]
  | addresses l =>
    cases void : l.isVoid <;> simp [toOperand, Valid, AddressList.toOperand, Operand.single,
      AddressList.validate, void]
  | host h =>
    cases named : h.name <;> simp [toOperand, Valid, HostName.toOperand, Operand.single,
      HostName.validate, HostName.isVoid, named]
  | weekdays w =>
    cases void : w.isVoid <;> simp [toOperand, Valid, Weekdays.toOperand, Operand.single, void]
  | time t =>
    cases clock : t.clock <;> simp [toOperand, Valid, TimeOfDay.toOperand, Operand.single,
      TimeOfDay.isVoid, clock]
  | operation o =>
    simp [toOperand, Valid, FilterOperation.toOperand, Operand.single, isSome_toOption_iff]
  | attributeMatch m =>
    simp [toOperand, Valid, AttributeMatch.toOperand, Operand.single, isSome_toOption_iff]
  | inheritance i =>
    simp [toOperand, Valid, Inheritance.toOperand, isSome_toOption_iff]
  | scope | authentication | strength => exact iff_of_true rfl trivial
  | names s | identifiers s | attributes s | operations s => exact s.isSome_expression

/-- What a value is written as can be quoted, whatever it has been made of. -/
theorem Made.sound {v : Comparand} (made : v.Made) : v.toOperand.Sound := by
  cases v with
  | name d =>
    refine Operand.sound_single fun t ht => ?_
    obtain ⟨name, named, rfl⟩ := Option.map_eq_some_iff.mp ht
    exact DistinguishedName.Made.fitsQuotes made
      (by simp [DistinguishedName.validate, DistinguishedName.isVoid, named])
  | identifier o =>
    refine Operand.sound_single fun t ht => ?_
    have fits := ObjectIdentifier.Made.fitsQuotes made
      (by simp [ObjectIdentifier.validate, ObjectIdentifier.isVoid, Option.mem_def.mp ht])
    rwa [ObjectIdentifier.render, Option.mem_def.mp ht] at fits
  | attributeType a =>
    refine Operand.sound_single fun t ht => ?_
    have fits := AttributeType.Made.fitsQuotes made
      (by simp [AttributeType.validate, AttributeType.isVoid, Option.mem_def.mp ht])
    rwa [AttributeType.render, Option.mem_def.mp ht] at fits
  | filter f =>
    refine Operand.sound_single fun t ht => ?_
    have fits := Filter.Made.fitsQuotes made
      (by simp [Filter.validate, Filter.isVoid, Option.mem_def.mp ht])
    rwa [Filter.render, Option.mem_def.mp ht] at fits
  | host h =>
    refine Operand.sound_single fun t ht => ?_
    have fits := HostName.Made.fitsQuotes made
      (by simp [HostName.validate, HostName.isVoid, Option.mem_def.mp ht])
    rwa [HostName.render, Option.mem_def.mp ht] at fits
  | operation o =>
    refine Operand.sound_single fun t ht => ?_
    obtain ⟨valid, rfl⟩ := toOption_map_eq_some_iff.mp ht
    exact FilterOperation.Made.fitsQuotes made valid
  | attributeMatch m =>
    refine Operand.sound_single fun t ht => ?_
    obtain ⟨valid, rfl⟩ := toOption_map_eq_some_iff.mp ht
    exact AttributeMatch.Made.fitsQuotes made valid
  | inheritance i =>
    intro e he
    obtain ⟨valid, rfl⟩ := toOption_map_eq_some_iff.mp he
    exact (Inheritance.Made.fitsQuotes made valid).sound_value
  | addresses l =>
    refine Operand.sound_single fun t ht => ?_
    cases void : l.isVoid with
    | true => simp [void] at ht
    | false =>
      obtain rfl : l.render = t := by simpa [void] using ht
      exact AddressList.Made.fitsQuotes made void
  | weekdays w =>
    refine Operand.sound_single fun t ht => ?_
    cases void : w.isVoid with
    | true => simp [void] at ht
    | false =>
      obtain rfl : w.render = t := by simpa [void] using ht
      exact Weekdays.fitsQuotes void
  | time t =>
    refine Operand.sound_single fun text ht => ?_
    obtain ⟨clock, _, rfl⟩ := Option.map_eq_some_iff.mp ht
    exact clock.fitsQuotes
  | scope s => exact Operand.sound_single (by simpa using s.fitsQuotes)
  | authentication a => exact Operand.sound_single (by simpa using a.fitsQuotes)
  | strength s => exact Operand.sound_single (by simpa using s.fitsQuotes)
  | names =>
    obtain ⟨k, layout, ops, rfl⟩ := made
    exact Stack.sound_run (Nat.le_refl 1) ops
  | identifiers =>
    obtain ⟨k, layout, ops, rfl⟩ := made
    exact Stack.sound_run (Nat.le_refl 1) ops
  | attributes =>
    obtain ⟨layout, ops, rfl⟩ := made
    exact Stack.sound_run (Nat.le_refl 1) ops
  | operations =>
    obtain ⟨layout, ops, rfl⟩ := made
    exact Stack.sound_run (Nat.le_refl 1) ops

/-- A value that has been made of any input gives, for each operator, a valid condition or the void
one: a valid one where the value is valid and its keyword permits the operator. Its conditions are
listed for just the permitted operators, in the order of their ordinals. -/
theorem condition_sound_or_void {v : Comparand} (made : v.Made) (op : Comparison)
    (layout : Layout) :
    (∀ k, v.toOperand.keyword = some k → k.permits op = true → v.Valid →
      ∃ e, v.toOperand.expression = some e ∧
        (v.toOperand.condition op layout).Compares k op e layout) ∧
    ((¬ ∃ k, v.toOperand.keyword = some k ∧ k.permits op = true ∧ v.Valid) →
      v.toOperand.condition op layout = .void) ∧
    ∃ ops : List Comparison, ops.Pairwise (fun p q => p.ordinal < q.ordinal) ∧
      (∀ p, p ∈ ops ↔ ∃ k, v.toOperand.keyword = some k ∧ k.permits p = true) ∧
      v.toOperand.conditions layout = ops.map (fun p => (p, v.toOperand.condition p layout)) := by
  refine ⟨fun k keyword permitted valid => ?_, fun missing => ?_, v.toOperand.permitted,
    v.toOperand.pairwise_permitted, fun p => Operand.mem_permitted, rfl⟩
  · obtain ⟨e, expression⟩ := Option.isSome_iff_exists.mp (v.isSome_expression_iff.mpr valid)
    obtain ⟨full, sound⟩ := made.sound e expression
    refine ⟨e, expression, ?_⟩
    rw [Operand.condition_eq_new layout keyword expression permitted]
    exact Condition.compares_new layout permitted full sound
  · refine Operand.condition_eq_void layout ?_
    simpa only [isSome_expression_iff] using missing

/-- A host with a star, written tight: it can be ruled out, but hosts are not ordered. -/
theorem condition_sound_or_void_host :
    let host : HostName := .ofText " *.example.com "
    let tight : Layout := { paddedRules := false }
    (Comparand.host host).Made ∧
      (∃ e, host.toOperand.expression = some e ∧
        (host.toOperand.condition .unequal tight).Compares (.bind .dns) .unequal e tight) ∧
      host.toOperand.condition .less tight = .void ∧
      (host.toOperand.condition .unequal tight).render = "dns!=\"*.example.com\"" := by
  intro host tight
  have made : (Comparand.host host).Made := ⟨_, rfl⟩
  have valid : (Comparand.host host).Valid := by
    show host.validate = .ok ()
    decide +kernel
  have unordered : ¬ ∃ k, host.toOperand.keyword = some k ∧ k.permits .less = true ∧
      (Comparand.host host).Valid := by
    rintro ⟨k, keyword, permitted, _⟩
    obtain rfl : .bind .dns = k := Option.some.inj keyword
    revert permitted
    decide
  refine ⟨made, ?_, ?_, by decide +kernel⟩
  · exact (condition_sound_or_void made .unequal tight).1 (.bind .dns) rfl (by decide) valid
  · exact (condition_sound_or_void made .less tight).2.1 unordered

end Comparand

end DirectoryAccess
