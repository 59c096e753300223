import DirectoryAccess.Condition.Reading
import DirectoryAccess.Proofs.Grammar.ConditionReading
import DirectoryAccess.Proofs.Values.Lists
import DirectoryAccess.Proofs.Values.Matches
import DirectoryAccess.Proofs.Values.Operations
import DirectoryAccess.Proofs.Values.Scalars

/-!
# Conditions are read from what they are written as

A condition that is read has a canonical expression. Its own tree, with the texts of that expression
between the quotes, is written as the condition is and gives the same condition again.
-/
namespace DirectoryAccess

open Grammar

/-! ### Expressions -/

namespace Expression

/-- The form in which a single value is kept is a fixed point of reading it. -/
theorem readScalar_again {k : Keyword} {text written : String}
    (h : readScalar k text = .ok written) : readScalar k written = .ok written := by
  unfold readScalar at h ⊢
  cases kind : k.valueKind with
  | scope =>
    rw [kind] at h
    obtain ⟨s, _, rfl⟩ := map_eq_ok.mp h
    exact map_eq_ok.mpr ⟨s, s.read_name, rfl⟩
  | filter =>
    rw [kind] at h
    obtain ⟨f, read, rfl⟩ := map_eq_ok.mp h
    exact map_eq_ok.mpr ⟨f, Filter.read_render read, rfl⟩
  | address =>
    rw [kind] at h
    obtain ⟨l, read, rfl⟩ := map_eq_ok.mp h
    exact map_eq_ok.mpr ⟨l, AddressList.read_render read, rfl⟩
  | hostName =>
    rw [kind] at h
    obtain ⟨n, read, rfl⟩ := map_eq_ok.mp h
    exact map_eq_ok.mpr ⟨n, HostName.read_render read, rfl⟩
  | authentication =>
    rw [kind] at h
    obtain ⟨a, _, rfl⟩ := map_eq_ok.mp h
    exact map_eq_ok.mpr ⟨a, a.read_name, rfl⟩
  | userAttribute =>
    rw [kind] at h
    exact readMatch_again h
  | weekdays =>
    rw [kind] at h
    obtain ⟨w, read, rfl⟩ := map_eq_ok.mp h
    exact map_eq_ok.mpr ⟨w, Weekdays.read_render read, rfl⟩
  | strength =>
    rw [kind] at h
    obtain ⟨s, _, rfl⟩ := map_eq_ok.mp h
    exact map_eq_ok.mpr ⟨s, s.read_render, rfl⟩
  | time =>
    rw [kind] at h
    obtain ⟨t, read, rfl⟩ := map_eq_ok.mp h
    exact map_eq_ok.mpr ⟨t, TimeOfDay.read_render read, rfl⟩
  | distinguishedNames => rfl
  | objectIdentifiers => rfl
  | attributeTypes => rfl
  | filterOperations => rfl

theorem read_scalar {k : Keyword} {q : Quoting} {vs : List String}
    (scalar : k.valueKind ≠ .distinguishedNames ∧ k.valueKind ≠ .objectIdentifiers ∧
      k.valueKind ≠ .attributeTypes ∧ k.valueKind ≠ .filterOperations) :
    Expression.read k vs q = (do return .value (← readScalar k (← onlyValue k vs))) := by
  unfold Expression.read
  dsimp only
  split
  · next kind => exact absurd kind scalar.1
  · next kind => exact absurd kind scalar.2.1
  · next kind => exact absurd kind scalar.2.2.1
  · next kind => exact absurd kind scalar.2.2.2
  · rfl

theorem read_scalar_eq_ok_iff {k : Keyword} {q : Quoting} {text written : String}
    (scalar : k.valueKind ≠ .distinguishedNames ∧ k.valueKind ≠ .objectIdentifiers ∧
      k.valueKind ≠ .attributeTypes ∧ k.valueKind ≠ .filterOperations) :
    Expression.read k [text] q = .ok (.value written) ↔ readScalar k text = .ok written := by
  rw [read_scalar scalar, bind_eq_ok]
  constructor
  · rintro ⟨_, only, h⟩
    obtain rfl := Except.ok.inj only
    obtain ⟨_, read, made⟩ := bind_eq_ok.mp h
    obtain rfl := value.inj (pure_eq_ok.mp made)
    exact read
  · intro read
    exact ⟨text, rfl, bind_eq_ok.mpr ⟨written, read, rfl⟩⟩

theorem validate_value_eq_ok_iff {text : String} :
    (value text).validate = .ok () ↔ text.isEmpty = false ∧ '"' ∉ text.toList := by
  unfold Expression.validate
  dsimp only
  cases text.isEmpty with
  | true => simp
  | false =>
    cases quote : text.toList.contains '"' with
    | true => simpa using List.contains_iff_mem.mp quote
    | false => simpa using quote

theorem canonical_scalar {k : Keyword} {q : Quoting} {vs : List String} {e : Expression}
    (scalar : k.valueKind ≠ .distinguishedNames ∧ k.valueKind ≠ .objectIdentifiers ∧
      k.valueKind ≠ .attributeTypes ∧ k.valueKind ≠ .filterOperations)
    (h : Expression.read k vs q = .ok e) (valid : e.validate = .ok ()) : e.Canonical k := by
  rw [read_scalar scalar] at h
  obtain ⟨text, _, h₁⟩ := bind_eq_ok.mp h
  obtain ⟨written, read, made⟩ := bind_eq_ok.mp h₁
  obtain rfl := pure_eq_ok.mp made
  have unquoted := (validate_value_eq_ok_iff.mp valid).2
  refine canonical_value unquoted ?_
  rw [read_scalar scalar]
  refine bind_eq_ok.mpr ⟨written, rfl, bind_eq_ok.mpr ⟨written, readScalar_again read, rfl⟩⟩

theorem canonical_of_read {k : Keyword} {vs : List String} {e : Expression}
    (h : Expression.read k vs (.ofCount vs.length) = .ok e) (valid : e.validate = .ok ()) :
    e.Canonical k := by
  by_cases names : k.valueKind = .distinguishedNames
  · exact (parted_names names).canonical h
  by_cases identifiers : k.valueKind = .objectIdentifiers
  · exact (parted_identifiers identifiers).canonical h
  by_cases attributes : k.valueKind = .attributeTypes
  · exact (parted_attributes attributes).canonical h
  by_cases operations : k.valueKind = .filterOperations
  · exact canonical_operations operations h
  exact canonical_scalar ⟨names, identifiers, attributes, operations⟩ h valid

end Expression

/-! ### Trees of conditions -/

/-- A condition whose expression is canonical, and which is valid. Its flags are free. -/
inductive Condition.Settled : Condition → Prop
  | intro {k : Keyword} {op : Comparison} {e : Expression} {parenthesized padded : Bool}
    (canonical : e.Canonical k) (permitted : k.permits op = true) (full : e.isEmpty = false)
    (valid : e.validate = .ok ()) : Settled ⟨some k, some op, some e, parenthesized, padded⟩

theorem Condition.validate_eq_ok_iff {k : Keyword} {op : Comparison} {e : Expression} {p q : Bool} :
    Condition.validate ⟨some k, some op, some e, p, q⟩ = .ok () ↔
      k.permits op = true ∧ e.isEmpty = false ∧ e.validate = .ok () := by
  unfold Condition.validate
  dsimp only
  cases k.permits op <;> cases e.isEmpty <;> simp

theorem Condition.Settled.validate {c : Condition} (h : c.Settled) : c.validate = .ok () := by
  obtain ⟨_, permitted, full, valid⟩ := h
  exact Condition.validate_eq_ok_iff.mpr ⟨permitted, full, valid⟩

namespace Grammar.ConditionTree

/-- A keyword, an operator and what stands behind it, with or without blanks around the operator. -/
def comparisonText (k : Keyword) (op : Comparison) (padded : Bool) (body : String) : String :=
  let gap := if padded then " " else ""
  k.name ++ gap ++ op.symbol ++ gap ++ body

/-- What a condition without parentheses is written as. -/
def text (t : ConditionTree) : String :=
  let gap := if t.padded then " " else ""
  t.keyword.name ++ gap ++ t.operator.symbol ++ gap ++ " || ".intercalate (t.values.map quoted)

/-- What quotes can hold: one value or several, and no value with a double quote. -/
structure Quotable (t : ConditionTree) : Prop where
  full : t.values ≠ []
  unquoted : ∀ v ∈ t.values, '"' ∉ v.toList

/-- The values are the texts of an expression that is canonical for the keyword. -/
def Settled (t : ConditionTree) : Prop :=
  ∃ e : Expression, e.Canonical t.keyword ∧ t.values = e.texts

theorem writesQuoted {v : String} (h : '"' ∉ v.toList) : WritesQuoted v (quoted v).toList :=
  ⟨toList_quoted v, h⟩

/-- The values in their quotes, with the same sign between any two of them. -/
theorem writesValues_sign {sign : List Char} (bars : WritesSign "||" sign) {vs : List String}
    (full : vs ≠ []) (h : ∀ v ∈ vs, '"' ∉ v.toList) :
    WritesValues vs (sign.intercalate (vs.map (fun v => (quoted v).toList))) := by
  have listed : Reader.Listed (WritesSign "||") WritesQuoted (vs.map id)
      (sign.intercalate (vs.map (fun v => (quoted v).toList))) :=
    Reader.listed_intercalate bars full fun v hv => writesQuoted (h v hv)
  rwa [List.map_id] at listed

theorem writesValues_single {v : String} (h : '"' ∉ v.toList) :
    WritesValues [v] (quoted v).toList := by
  have bars : WritesSign "||" ['|', '|'] := ⟨[], [], by decide, isGap_nil, isGap_nil⟩
  have free : ∀ w ∈ [v], '"' ∉ w.toList := by simpa using h
  simpa using writesValues_sign bars (by simp) free

theorem writesValues {vs : List String} (full : vs ≠ []) (h : ∀ v ∈ vs, '"' ∉ v.toList) :
    WritesValues vs (" || ".intercalate (vs.map quoted)).toList := by
  rw [String.toList_intercalate, Text.toList_bars, List.map_map]
  exact writesValues_sign ⟨[' '], [' '], by decide, isGap_blank, isGap_blank⟩ full h

/-- A comparison in front of any texts that write its values is a spelling of the condition. -/
theorem spelled_of_values {k : Keyword} {op : Comparison} {vs : List String} {padded : Bool}
    {body : String} (values : WritesValues vs body.toList) :
    (of k op vs padded).Spelled (comparisonText k op padded body).toList := by
  cases padded with
  | true =>
    have split : (comparisonText k op true body).toList = k.name.toList ++ ([' '] ++
        (op.symbol.toList ++ ([' '] ++ body.toList))) := by
      have blank : " ".toList = [' '] := by decide
      simp [comparisonText, blank]
    rw [split]
    exact .intro (namesKeyword_name k) isGap_blank isGap_blank values
  | false =>
    have split : (comparisonText k op false body).toList = k.name.toList ++ ([] ++
        (op.symbol.toList ++ ([] ++ body.toList))) := by
      simp [comparisonText]
    rw [split]
    exact .intro (namesKeyword_name k) isGap_nil isGap_nil values

theorem Quotable.spelled_text {t : ConditionTree} (h : t.Quotable) : t.Spelled t.text.toList := by
  have spelled : (of t.keyword t.operator t.values t.padded).Spelled t.text.toList :=
    spelled_of_values (writesValues h.full h.unquoted)
  rwa [← t.eq_of] at spelled

theorem Quotable.written {t : ConditionTree} (h : t.Quotable) : t.Written t.text.toList :=
  h.spelled_text.written

theorem Settled.quotable {t : ConditionTree} (h : t.Settled) : t.Quotable := by
  obtain ⟨e, canonical, same⟩ := h
  exact ⟨same ▸ canonical.full, same ▸ canonical.unquoted⟩

/-- When a tree of a condition gives a condition, and which. -/
theorem toCondition_eq_ok_iff {t : ConditionTree} {p : Bool} {c : Condition} :
    t.toCondition p = .ok c ↔
      ∃ e, Expression.read t.keyword t.values (.ofCount t.values.length) = .ok e ∧
        t.keyword.permits t.operator = true ∧ e.isEmpty = false ∧ e.validate = .ok () ∧
        c = ⟨some t.keyword, some t.operator, some e, p, t.padded⟩ := by
  unfold toCondition Condition.new?
  rw [bind_eq_ok, t.quoting_eq]
  constructor
  · rintro ⟨e, read, h₁⟩
    obtain ⟨c', made, h₂⟩ := bind_eq_ok.mp h₁
    obtain ⟨_, valid, same⟩ := bind_eq_ok.mp (mapError_eq_ok.mp made)
    obtain rfl := pure_eq_ok.mp same
    obtain rfl := pure_eq_ok.mp h₂
    obtain ⟨permitted, full, sound⟩ := Condition.validate_eq_ok_iff.mp valid
    exact ⟨e, mapError_eq_ok.mp read, permitted, full, sound, rfl⟩
  · rintro ⟨e, read, permitted, full, sound, rfl⟩
    refine ⟨e, mapError_eq_ok.mpr read, bind_eq_ok.mpr ⟨Condition.new t.keyword t.operator e, ?_,
      rfl⟩⟩
    exact mapError_eq_ok.mpr
      (bind_eq_ok.mpr ⟨(), Condition.validate_eq_ok_iff.mpr ⟨permitted, full, sound⟩, rfl⟩)

/-- The tree with its values as they are kept once they are read. -/
def settle (t : ConditionTree) : ConditionTree :=
  match Expression.read t.keyword t.values t.quoting with
  | .ok e => .of t.keyword t.operator e.texts t.padded
  | .error _ => t

theorem settle_eq {t : ConditionTree} {e : Expression}
    (h : Expression.read t.keyword t.values (.ofCount t.values.length) = .ok e) :
    t.settle = .of t.keyword t.operator e.texts t.padded := by
  have read : Expression.read t.keyword t.values t.quoting = .ok e := t.quoting_eq ▸ h
  unfold settle
  rw [read]

theorem settled_settle {t : ConditionTree} {p : Bool} {c : Condition}
    (h : t.toCondition p = .ok c) : t.settle.Settled := by
  obtain ⟨e, read, _, _, valid, _⟩ := toCondition_eq_ok_iff.mp h
  rw [settle_eq read]
  exact ⟨e, Expression.canonical_of_read read valid, rfl⟩

theorem toCondition_settle {t : ConditionTree} {p : Bool} {c : Condition}
    (h : t.toCondition p = .ok c) : t.settle.toCondition p = .ok c := by
  obtain ⟨e, read, permitted, full, valid, rfl⟩ := toCondition_eq_ok_iff.mp h
  have canonical := Expression.canonical_of_read read valid
  rw [settle_eq read]
  exact toCondition_eq_ok_iff.mpr ⟨e, canonical.reread, permitted, full, valid, rfl⟩

theorem Settled.render {t : ConditionTree} {p : Bool} {c : Condition} (settled : t.Settled)
    (h : t.toCondition p = .ok c) : c.render = enclosed p t.padded t.text := by
  obtain ⟨e, canonical, same⟩ := settled
  obtain ⟨e', read, _, _, _, rfl⟩ := toCondition_eq_ok_iff.mp h
  rw [same, canonical.reread] at read
  obtain rfl := Except.ok.inj read
  unfold Condition.render text
  simp only [Option.map_some, Option.getD_some, canonical.written, same]

theorem settled_of_toCondition {t : ConditionTree} {p : Bool} {c : Condition}
    (h : t.toCondition p = .ok c) : c.Settled := by
  obtain ⟨e, read, permitted, full, valid, rfl⟩ := toCondition_eq_ok_iff.mp h
  exact .intro (Expression.canonical_of_read read valid) permitted full valid

end Grammar.ConditionTree

theorem Condition.Settled.exists_tree {c : Condition} (h : c.Settled) :
    ∃ t : ConditionTree, t.Settled ∧ t.toCondition c.parenthesized = .ok c := by
  obtain @⟨k, op, e, p, q, canonical, permitted, full, valid⟩ := h
  refine ⟨.of k op e.texts q, ⟨e, canonical, rfl⟩, ?_⟩
  exact ConditionTree.toCondition_eq_ok_iff.mpr ⟨e, canonical.reread, permitted, full, valid, rfl⟩

/-! ### Whole conditions -/

theorem writesTarget_enclosed {t : ConditionTree} {padded : Bool} {body : String}
    (written : t.Written body.toList) : WritesTarget t (enclosed true padded body).toList := by
  cases padded with
  | true =>
    have opening : "( ".toList = ['(', ' '] := by decide
    have closing : " )".toList = [' ', ')'] := by decide
    refine ⟨[' '], body.toList, [' '], ?_, isGap_blank, written, isGap_blank⟩
    simp [enclosed, opening, closing]
  | false =>
    have opening : "(".toList = ['('] := by decide
    have closing : ")".toList = [')'] := by decide
    refine ⟨[], body.toList, [], ?_, isGap_nil, written, isGap_nil⟩
    simp [enclosed, opening, closing]

namespace Condition

/-- What is read from a written form of a tree is what is made of the tree. -/
theorem read_enclosed {t : ConditionTree} {p padded : Bool} {body : String}
    (written : t.Written body.toList) {c : Condition} :
    Condition.read (enclosed p padded body) = .ok c ↔ t.toCondition p = .ok c := by
  have parsed : wholeCondition.readAll (enclosed p padded body).toList = .ok (t, p) := by
    refine wholeCondition_readAll_iff.mpr
      ⟨[], (enclosed p padded body).toList, [], by simp, isGap_nil, isGap_nil, ?_⟩
    cases p with
    | true => exact writesTarget_enclosed written
    | false => exact written
  unfold Condition.read
  rw [bind_eq_ok]
  constructor
  · rintro ⟨⟨t', p'⟩, read, made⟩
    have same := readText_eq_ok.mp (mapError_eq_ok.mp read)
    rw [parsed] at same
    cases same
    exact made
  · intro made
    exact ⟨(t, p), mapError_eq_ok.mpr (readText_eq_ok.mpr parsed), made⟩

/-- A comparison whose right side writes some values is read as the comparison with what these are
read as. -/
theorem read_new {k : Keyword} {op : Comparison} {e : Expression} {layout : Layout}
    {vs : List String} (values : WritesValues vs e.render.toList) {c : Condition} :
    Condition.read (new k op e layout).render = .ok c ↔
      ∃ e', Expression.read k vs (.ofCount vs.length) = .ok e' ∧ k.permits op = true ∧
        e'.isEmpty = false ∧ e'.validate = .ok () ∧
        c = ⟨some k, some op, some e', k.isTarget, layout.paddedRules⟩ := by
  have spelled : (ConditionTree.of k op vs layout.paddedRules).Spelled _ :=
    ConditionTree.spelled_of_values values
  exact (read_enclosed spelled.written).trans ConditionTree.toCondition_eq_ok_iff

theorem Settled.read_render {c : Condition} (h : c.Settled) : Condition.read c.render = .ok c := by
  obtain ⟨t, settled, made⟩ := h.exists_tree
  rw [settled.render made]
  exact (read_enclosed settled.quotable.written).mpr made

theorem settled_of_read {text : String} {c : Condition} (h : Condition.read text = .ok c) :
    c.Settled := by
  obtain ⟨⟨t, p⟩, _, made⟩ := bind_eq_ok.mp h
  exact ConditionTree.settled_of_toCondition made

end Condition

end DirectoryAccess
