import DirectoryAccess.Proofs.Condition.MatchReading

/-!
# Comparisons with one value are read back

Each type of values is written and read in its own way. Whatever a value has been made of, the
condition that compares with it is read from what it is written as just when the value is valid;
nothing that is written depends on how a text was spelt when the value was made of it.
-/
namespace DirectoryAccess

/-! ### What the value parsers make of valid values -/

theorem Filter.Made.read_render {f : Filter} (made : f.Made) (valid : f.validate = .ok ()) :
    Filter.read f.render = .ok f := by
  obtain ⟨text, rfl⟩ := made
  have read : Filter.read text = .ok (ofText text) := by
    unfold ofText at valid ⊢
    unfold Filter.read ofText?
    cases body : body? text with
    | ok body => rfl
    | error e =>
      rw [body] at valid
      cases valid
  exact Filter.read_render read

theorem HostName.Made.read_render {h : HostName} (made : h.Made) (valid : h.validate = .ok ()) :
    HostName.read h.render = .ok h := by
  obtain ⟨text, rfl⟩ := made
  have read : HostName.read text = .ok (ofText text) := by
    unfold ofText at valid ⊢
    unfold HostName.read
    cases named : name? text with
    | ok name => rfl
    | error e =>
      rw [named] at valid
      cases valid
  exact HostName.read_render read

theorem AddressList.Made.read_render {l : AddressList} (made : l.Made)
    (valid : l.isVoid = false) : AddressList.read l.render = .ok l := by
  obtain ⟨own, inserted⟩ := made.inserted
  exact read_of_inserted (by simpa [isVoid] using valid) own inserted

theorem Weekdays.read_of_not_void {w : Weekdays} (valid : w.isVoid = false) :
    Weekdays.read w.render = .ok w :=
  read_of_full (by simpa [isVoid, EnumSet.isEmpty, toList] using valid)

theorem Inheritance.Made.readMatch_render {i : Inheritance} {m : AttributeMatch} (made : i.Made)
    (value : i.value = some m) (valid : i.validate = .ok ()) :
    Expression.readMatch m.keyword i.render = .ok i.render := by
  have read := made.read_render value valid
  have start : (Text.after? "parent[".toList i.render.toList).isSome = true := by
    rw [toList_render value valid, Text.after?_append]
    rfl
  unfold Expression.readMatch
  rw [if_pos start]
  exact map_eq_ok.mpr ⟨_, read, render_of_read read⟩

/-- One operation is read as a list with this operation alone, which is kept as a value. -/
theorem FilterOperation.Made.read_render {o : FilterOperation} (made : o.Made)
    (valid : o.validate = .ok ()) :
    Expression.read FilterOperation.theKeyword [o.render] .whole = .ok (.value o.render) := by
  obtain ⟨op, terms, rfl⟩ := made
  have holds := holds_of_terms valid
  generalize ofFilters op (terms.map fun t => .ofTexts t.1 t.2) = o at holds
  obtain ⟨list, operates⟩ : ∃ list, Stack.Operates list .comma [o] :=
    ⟨_, rfl, by simp, by simpa using holds, .inl rfl⟩
  have written : list.render = o.render := by
    rw [operates.render_eq, List.map_singleton, String.intercalate_singleton]
  have read := Expression.read_render_operations (k := theKeyword) rfl operates
  rcases Expression.ofList_operates operates with ⟨_, _, kept⟩ | kept
  · rwa [kept, written] at read
  · rw [operates.same] at kept
    cases kept

/-! ### Conditions -/

namespace Comparand

/-- One value alone: no list, and no match without levels of inheritance. -/
def Single : Comparand → Prop
  | attributeMatch _ | names _ | identifiers _ | attributes _ | operations _ => False
  | _ => True

variable {v : Comparand} {k : Keyword} {e : Expression}

/-- The text that a value gives to its conditions is read as that text again. -/
theorem Made.readAlone (made : v.Made) (single : v.Single)
    (keyword : v.toOperand.keyword = some k) (expression : v.toOperand.expression = some e) :
    e.ReadAlone k := by
  have valid : v.Valid := v.isSome_expression_iff.mp (by rw [expression]; rfl)
  cases v with
  | attributeMatch | names | identifiers | attributes | operations => exact single.elim
  | name d => exact Operand.readAlone_name made keyword expression
  | identifier o => exact Operand.readAlone_identifier made keyword expression
  | attributeType a => exact Operand.readAlone_attribute made keyword expression
  | scope s => exact Operand.readAlone_scope keyword expression
  | strength s => exact Operand.readAlone_strength keyword expression
  | time t => exact Operand.readAlone_time keyword expression
  | filter f =>
    obtain ⟨rfl, t, present, rfl⟩ := Operand.of_single keyword expression
    have read := Expression.readScalar_filter (Filter.Made.read_render made valid)
    rw [Filter.render, present, Option.getD_some] at read
    exact Operand.readAlone_scalar (by decide) read
  | host h =>
    obtain ⟨rfl, t, present, rfl⟩ := Operand.of_single keyword expression
    have read := Expression.readScalar_host (HostName.Made.read_render made valid)
    rw [HostName.render, present, Option.getD_some] at read
    exact Operand.readAlone_scalar (by decide) read
  | authentication a =>
    obtain ⟨rfl, _, present, rfl⟩ := Operand.of_single keyword expression
    obtain rfl := Option.some.inj present
    exact Operand.readAlone_scalar (by decide) (Expression.readScalar_authentication a)
  | addresses l =>
    obtain ⟨rfl, t, present, rfl⟩ := Operand.of_single keyword expression
    have filled : l.isVoid = false := by
      cases void : l.isVoid <;> simp [void] at present ⊢
    obtain rfl : l.render = t := by simpa [filled] using present
    have read := Expression.readScalar_addresses (AddressList.Made.read_render made filled)
    exact Operand.readAlone_scalar (by decide) read
  | weekdays w =>
    obtain ⟨rfl, t, present, rfl⟩ := Operand.of_single keyword expression
    have filled : w.isVoid = false := valid
    obtain rfl : w.render = t := by simpa [filled] using present
    have read := Expression.readScalar_weekdays (Weekdays.read_of_not_void filled)
    exact Operand.readAlone_scalar (by decide) read
  | operation o =>
    obtain ⟨rfl, _, present, rfl⟩ := Operand.of_single keyword expression
    obtain ⟨sound, rfl⟩ := toOption_map_eq_some_iff.mp present
    exact ⟨_, rfl, FilterOperation.Made.read_render made sound⟩
  | inheritance i =>
    obtain ⟨sound, rfl⟩ := toOption_map_eq_some_iff.mp expression
    obtain ⟨m, value, _, sound', _⟩ := Inheritance.validate_eq_ok_iff.mp sound
    obtain ⟨kind, _, _⟩ := AttributeMatch.validate_eq_ok_iff.mp sound'
    obtain rfl : m.keyword = k := by
      have own : i.value.map (·.keyword) = some k := keyword
      rw [value] at own
      exact Option.some.inj own
    refine Operand.readAlone_scalar (by simp [kind]) ?_
    unfold Expression.readScalar
    rw [kind]
    exact Inheritance.Made.readMatch_render made value sound

/-- The comparison with a single value is read from what it is written as, as the same condition,
just when the value is valid. -/
theorem Made.reread_iff_valid (made : v.Made) (single : v.Single)
    (keyword : v.toOperand.keyword = some k) {op : Comparison} (permitted : k.permits op = true)
    (layout : Layout) :
    Condition.read (v.toOperand.condition op layout).render =
        .ok (v.toOperand.condition op layout) ↔
      v.Valid := by
  rw [← isSome_expression_iff]
  constructor
  · intro read
    by_contra missing
    have void : v.toOperand.condition op layout = .void := by
      refine Operand.condition_eq_void layout ?_
      rintro ⟨_, _, _, present⟩
      exact missing present
    rw [void] at read
    cases Condition.settled_of_read read
  · intro present
    obtain ⟨e, expression⟩ := Option.isSome_iff_exists.mp present
    obtain ⟨text, rfl, read⟩ := made.readAlone single keyword expression
    obtain ⟨full, sound⟩ := made.sound _ expression
    rw [Operand.condition_eq_new layout keyword expression permitted]
    refine Condition.Settled.read_render ?_
    exact .intro (Expression.canonical_value (Expression.validate_value_eq_ok_iff.mp sound).2 read)
      permitted full sound

/-- There is nothing in the value; those of some types always have something. -/
def isVoid : Comparand → Bool
  | name d => d.isVoid
  | identifier o => o.isVoid
  | attributeType a => a.isVoid
  | filter f => f.isVoid
  | operation o => o.filters.isEmpty
  | addresses l => l.isVoid
  | host h => h.isVoid
  | inheritance i => i.isVoid
  | weekdays w => w.isVoid
  | time t => t.isVoid
  | scope _ | authentication _ | strength _ | attributeMatch _ => false
  | names s => s.isEmpty
  | identifiers s => s.isEmpty
  | attributes s => s.isEmpty
  | operations s => s.isEmpty

/-- Only an inheritance can be neither void nor valid. -/
theorem Made.valid_iff (made : v.Made) (single : v.Single) :
    v.Valid ↔ v.isVoid = false ∧ ∀ i, v = .inheritance i → i.validate = .ok () := by
  cases v with
  | attributeMatch | names | identifiers | attributes | operations => exact single.elim
  | name d => simp [Valid, isVoid, DistinguishedName.validate]
  | identifier o => simp [Valid, isVoid, ObjectIdentifier.validate]
  | attributeType a => simp [Valid, isVoid, AttributeType.validate]
  | filter f => simp [Valid, isVoid, Filter.validate]
  | addresses l => simp [Valid, isVoid, AddressList.validate]
  | host h => simp [Valid, isVoid, HostName.validate]
  | weekdays | time | scope | authentication | strength => simp [Valid, isVoid]
  | operation o =>
    obtain ⟨op, terms, rfl⟩ := made
    simpa [Valid, isVoid] using FilterOperation.validate_ofFilters_iff op _
  | inheritance i =>
    constructor
    · intro valid
      refine ⟨?_, ?_⟩
      · obtain ⟨m, value, _⟩ := Inheritance.validate_eq_ok_iff.mp valid
        simp [isVoid, Inheritance.isVoid, value]
      · rintro _ ⟨⟩
        exact valid
    · rintro ⟨_, valid⟩
      exact valid i rfl

/-- The comparison with a single value is read from what it is written as, as the same condition,
unless the value is void or is an inheritance that is not valid. -/
theorem condition_reread_iff (made : v.Made) (single : v.Single)
    (keyword : v.toOperand.keyword = some k) {op : Comparison} (permitted : k.permits op = true)
    (layout : Layout) :
    Condition.read (v.toOperand.condition op layout).render =
        .ok (v.toOperand.condition op layout) ↔
      v.isVoid = false ∧ ∀ i, v = .inheritance i → i.validate = .ok () := by
  rw [made.reread_iff_valid single keyword permitted layout, made.valid_iff single]

/-- Two addresses, one of them pushed twice, ruled out by a condition that is written tight. -/
theorem condition_reread_addresses :
    let l : AddressList := [" 10.0.0.* ", "::1", "10.0.0.*"].foldl .push {}
    let tight : Layout := { paddedRules := false }
    (l.toOperand.condition .unequal tight).render = "ip!=\"10.0.0.*,::1\"" ∧
      Condition.read (l.toOperand.condition .unequal tight).render =
        .ok (l.toOperand.condition .unequal tight) := by
  intro l tight
  have made : (Comparand.addresses l).Made := ⟨_, rfl⟩
  have filled : (Comparand.addresses l).isVoid = false := by
    show l.isVoid = false
    decide +kernel
  refine ⟨by decide +kernel, ?_⟩
  exact (condition_reread_iff made trivial rfl (by decide) tight).mpr ⟨filled, by rintro _ ⟨⟩⟩

/-- A match at no level is not void, but it is not valid either: nothing is left of its
condition. -/
theorem inheritance_without_levels_not_read :
    let i : Inheritance := .ofLevels (.userAttr "manager" (.bindType .userDn)) []
    (Comparand.inheritance i).Made ∧ i.isVoid = false ∧
      i.toOperand.keyword = some (.bind .userAttr) ∧
      Keyword.permits (.bind .userAttr) .equal = true ∧
      (i.toOperand.condition .equal).render = "" ∧
      ¬ ∃ c, Condition.read (i.toOperand.condition .equal).render = .ok c := by
  intro i
  have written : (i.toOperand.condition .equal).render = "" := by decide +kernel
  refine ⟨⟨_, [], ?_, rfl⟩, by decide, rfl, by decide, written, ?_⟩
  · intro m hm
    obtain rfl := Option.some.inj hm
    exact ⟨"manager", rfl⟩
  · rintro ⟨c, read⟩
    have refused : (Condition.read "").toBool = false := by decide +kernel
    rw [written] at read
    rw [read] at refused
    cases refused

end Comparand

end DirectoryAccess
