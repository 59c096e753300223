import DirectoryAccess.Client.Strength
import DirectoryAccess.Client.TimeOfDay
import DirectoryAccess.Directory.SearchScope
import DirectoryAccess.Proofs.Rules.Grouping
import DirectoryAccess.Proofs.Values.LaidOut

/-!
# Conditions that follow a layout

A condition is built with a layout from a typed value, or from a list of such values that is built
with the same layout. Its tree is settled unless the layout puts tight bars between the values.
-/
namespace DirectoryAccess

open Grammar

/-! ### Values that are made of texts -/

def DistinguishedName.Made (d : DistinguishedName) : Prop :=
  ∃ k text, d = ofText k text

def ObjectIdentifier.Made (o : ObjectIdentifier) : Prop :=
  ∃ k text, o = ofText k text

def AttributeType.Made (a : AttributeType) : Prop :=
  ∃ text, a = ofText text

def FilterOperation.Made (o : FilterOperation) : Prop :=
  ∃ (op : AttributeOperation) (terms : List (String × String)),
    o = ofFilters op (terms.map (fun t => .ofTexts t.1 t.2))

theorem Text.getLast?_dropStart (start cs : List Char) :
    ∀ c ∈ (dropStart start (trim cs)).getLast?, isBlank c = false := by
  intro c hc
  apply (isTrimmed_trim cs).2
  unfold dropStart at hc
  cases rest : after? start (trim cs) with
  | none =>
    rw [rest] at hc
    exact hc
  | some ds =>
    rw [rest, Option.getD_some] at hc
    rw [after?_eq_some_iff.mp rest, List.getLast?_append, Option.mem_def.mp hc]
    rfl

theorem trim_render_name {k : Keyword} {text name : String}
    (h : DistinguishedName.bareName? k text = .ok name) :
    Text.trim (DistinguishedName.scheme.toList ++ name.toList) =
      DistinguishedName.scheme.toList ++ name.toList := by
  obtain ⟨same, _, full, _⟩ := bareName?_eq_ok_iff.mp h
  have letters : DistinguishedName.scheme.toList = ['l', 'd', 'a', 'p', ':', '/', '/', '/'] := by
    decide
  refine Text.IsTrimmed.trim_eq ⟨?_, ?_⟩
  · rw [letters]
    simp only [List.cons_append, List.head?_cons, Option.mem_def, Option.some.injEq, forall_eq']
    decide
  · intro c hc
    have ends := Text.getLast?_dropStart DistinguishedName.scheme.toList text.toList
    rw [← String.toList_ofList (l := Text.dropStart _ _), ← same] at ends
    have visible : name.toList ≠ [] := by
      intro empty
      rw [String.toList_eq_nil_iff.mp empty] at full
      cases full
    rw [List.getLast?_append_of_ne_nil _ visible] at hc
    exact ends c hc

theorem DistinguishedName.Made.namePart_render {d : DistinguishedName} (made : d.Made)
    (valid : d.validate = .ok ()) : namePart d.keyword (Element.render d) = .ok d := by
  obtain ⟨k, text, rfl⟩ := made
  unfold ofText at valid ⊢
  cases read : bareName? k text with
  | error e =>
    rw [read] at valid
    cases valid
  | ok name =>
    -- the scheme is put in front of the name, and taken off again when the text is read
    have trimmed : Text.trim (Element.render (⟨k, some name⟩ : DistinguishedName)).toList =
        scheme.toList ++ name.toList := by
      rw [DistinguishedName.toList_render]
      exact trim_render_name read
    refine namePart_eq_ok_iff.mpr ⟨name, trimmed, ?_, rfl⟩
    obtain ⟨_, sound⟩ := bareName?_eq_ok_iff.mp read
    refine bareName?_eq_ok_iff.mpr ⟨?_, sound⟩
    rw [Text.toList_trimmed, Text.trim_trim]
    show name = String.ofList (Text.dropStart scheme.toList
      (Text.trim (Element.render (⟨k, some name⟩ : DistinguishedName)).toList))
    rw [trimmed, Text.dropStart, Text.after?_append, Option.getD_some, String.ofList_toList]

theorem ObjectIdentifier.Made.identifierPart_render {o : ObjectIdentifier} (made : o.Made)
    (valid : o.validate = .ok ()) : identifierPart o.keyword (Element.render o) = .ok o := by
  obtain ⟨k, text, rfl⟩ := made
  unfold ofText at valid ⊢
  cases read : dotted? k text with
  | error e =>
    rw [read] at valid
    cases valid
  | ok dotted =>
    have part : identifierPart k text = .ok ⟨k, some dotted⟩ :=
      identifierPart_eq_ok_iff.mpr ⟨dotted, read, rfl⟩
    refine identifierPart_congr ?_ part
    show Text.trim (Element.render (⟨k, some dotted⟩ : ObjectIdentifier)).toList = _
    rw [(identifierPart_eq_ok part).1, Text.trim_trim]

theorem AttributeType.Made.attributePart_render {a : AttributeType} (made : a.Made)
    (valid : a.validate = .ok ()) : attributePart (Element.render a) = .ok a := by
  obtain ⟨text, rfl⟩ := made
  obtain ⟨named, same⟩ := isName_of_validate valid
  rw [same]
  refine attributePart_eq_ok_iff.mpr ?_
  show isName (Text.trim (String.ofList (Text.trim text.toList)).toList) = true ∧ _
  rw [String.toList_ofList, Text.trim_trim]
  refine ⟨named, ?_⟩
  show _ = (⟨some (String.ofList (Text.trim (String.ofList (Text.trim text.toList)).toList))⟩ :
    AttributeType)
  rw [String.toList_ofList, Text.trim_trim]

/-! ### Operands -/

namespace Operand

/-- A typed value, or a list of typed values that is filled by pushes and follows the layout. What
is refused is left out. -/
inductive LaidOut (layout : Layout) : Operand → Prop
  | names (k : Keyword) {xs : List (Node DistinguishedName)}
    (made : ∀ d, .leaf d ∈ xs → d.Made) :
    LaidOut layout ((Stack.distinguishedNames k layout).pushAll xs).toOperand
  | identifiers (k : Keyword) {xs : List (Node ObjectIdentifier)}
    (made : ∀ o, .leaf o ∈ xs → o.Made) :
    LaidOut layout ((Stack.objectIdentifiers k layout).pushAll xs).toOperand
  | attributes {xs : List (Node AttributeType)} (made : ∀ a, .leaf a ∈ xs → a.Made) :
    LaidOut layout ((Stack.attributeTypes layout).pushAll xs).toOperand
  | operations {xs : List (Node FilterOperation)} (made : ∀ o, .leaf o ∈ xs → o.Made) :
    LaidOut layout ((Stack.filterOperations layout).pushAll xs).toOperand
  | name {d : DistinguishedName} (made : d.Made) : LaidOut layout d.toOperand
  | identifier {o : ObjectIdentifier} (made : o.Made) : LaidOut layout o.toOperand
  | attributeType {a : AttributeType} (made : a.Made) : LaidOut layout a.toOperand
  | scope (s : SearchScope) : LaidOut layout s.toOperand
  | strength (s : Strength) : LaidOut layout s.toOperand
  | time (t : TimeOfDay) : LaidOut layout t.toOperand

theorem of_list {α : Type} [Listable α] {s : Settings} {xs : List (Node α)} {k : Keyword}
    {e : Expression} (keyword : (Stack.pushAll ⟨s, []⟩ xs).toOperand.keyword = some k)
    (expression : (Stack.pushAll ⟨s, []⟩ xs).toOperand.expression = some e) :
    s.category.keyword = some k ∧ (Stack.pushAll ⟨s, []⟩ xs).validate = .ok () ∧
      e = Listable.toExpression (Stack.pushAll ⟨s, []⟩ xs) := by
  have settings := (Stack.keeps_pushAll ⟨s, []⟩ xs).settings
  refine ⟨?_, ?_⟩
  · have category : (Stack.pushAll ⟨s, []⟩ xs).settings.category.keyword = some k := keyword
    rwa [settings] at category
  · unfold Stack.toOperand at expression
    cases valid : (Stack.pushAll ⟨s, []⟩ xs).validate with
    | error r =>
      rw [valid] at expression
      cases expression
    | ok _ =>
      rw [valid] at expression
      exact ⟨rfl, (Option.some.inj expression).symm⟩

variable {layout : Layout} {k : Keyword} {e : Expression}

theorem follows_names {j : Keyword} {xs : List (Node DistinguishedName)}
    (made : ∀ d, .leaf d ∈ xs → d.Made)
    (keyword : ((Stack.distinguishedNames j layout).pushAll xs).toOperand.keyword = some k)
    (expression : ((Stack.distinguishedNames j layout).pushAll xs).toOperand.expression = some e) :
    ∃ text, e.Follows layout k text := by
  obtain ⟨own, valid, rfl⟩ := of_list keyword expression
  obtain rfl : j = k := Option.some.inj own
  refine Expression.follows_of_pushAll (s := (Stack.distinguishedNames j).settings)
    (p := namePart j) rfl rfl rfl ?_ ?_ ?_ valid
  · intro d read
    obtain ⟨_, _, bare, _⟩ := namePart_eq_ok_iff.mp read
    exact parted_names (bareName?_eq_ok_iff.mp bare).2.1
  · intro d hd sound place
    obtain rfl := place d.keyword rfl
    exact (made d hd).namePart_render sound
  · intro as
    simp [Listable.toExpression, Expression.hasBars, Stack.size]

theorem follows_identifiers {j : Keyword} {xs : List (Node ObjectIdentifier)}
    (made : ∀ o, .leaf o ∈ xs → o.Made)
    (keyword : ((Stack.objectIdentifiers j layout).pushAll xs).toOperand.keyword = some k)
    (expression : ((Stack.objectIdentifiers j layout).pushAll xs).toOperand.expression = some e) :
    ∃ text, e.Follows layout k text := by
  obtain ⟨own, valid, rfl⟩ := of_list keyword expression
  obtain rfl : j = k := Option.some.inj own
  refine Expression.follows_of_pushAll (s := (Stack.objectIdentifiers j).settings)
    (p := identifierPart j) rfl rfl rfl ?_ ?_ ?_ valid
  · intro o read
    obtain ⟨_, dotted, _⟩ := identifierPart_eq_ok_iff.mp read
    exact parted_identifiers (dotted?_eq_ok_iff.mp dotted).2.1
  · intro o ho sound place
    obtain rfl := place o.keyword rfl
    exact (made o ho).identifierPart_render sound
  · intro as
    simp [Listable.toExpression, Expression.hasBars, Stack.size]

theorem follows_attributes {xs : List (Node AttributeType)}
    (made : ∀ a, .leaf a ∈ xs → a.Made)
    (keyword : ((Stack.attributeTypes layout).pushAll xs).toOperand.keyword = some k)
    (expression : ((Stack.attributeTypes layout).pushAll xs).toOperand.expression = some e) :
    ∃ text, e.Follows layout k text := by
  obtain ⟨own, valid, rfl⟩ := of_list keyword expression
  obtain rfl : .target .targetAttr = k := Option.some.inj own
  refine Expression.follows_of_pushAll (s := Stack.attributeTypes.settings)
    (p := attributePart) rfl rfl rfl ?_ ?_ ?_ valid
  · intro _ _
    exact parted_attributes rfl
  · intro a ha sound _
    exact (made a ha).attributePart_render sound
  · intro as
    simp [Listable.toExpression, Expression.hasBars, Stack.size]

theorem follows_operations {xs : List (Node FilterOperation)}
    (made : ∀ o, .leaf o ∈ xs → o.Made)
    (keyword : ((Stack.filterOperations layout).pushAll xs).toOperand.keyword = some k)
    (expression : ((Stack.filterOperations layout).pushAll xs).toOperand.expression = some e) :
    ∃ text, e.Follows layout k text := by
  obtain ⟨own, _, rfl⟩ := of_list keyword expression
  obtain rfl : FilterOperation.theKeyword = k := Option.some.inj own
  obtain ⟨os, same, lawful, known⟩ :=
    Stack.exists_leaves_of_pushAll (s := (Stack.filterOperations layout).settings) rfl xs
  have holds : ∀ o ∈ os, ∃ fs, o.Holds fs := by
    intro o ho
    obtain ⟨_, sound, _⟩ := lawful.proper _ (List.mem_map_of_mem ho)
    obtain ⟨op, terms, rfl⟩ := made o (known o ho)
    exact FilterOperation.holds_of_terms sound
  refine ⟨",".intercalate (os.map FilterOperation.render), ?_⟩
  show (Expression.filterOperations ((Stack.filterOperations layout).pushAll xs)).Follows _ _ _
  have pushed : (Stack.filterOperations layout).pushAll xs =
      ⟨(Stack.filterOperations layout).settings, os.map .leaf⟩ := same
  rw [pushed]
  exact Expression.follows_operations holds

theorem of_single {j : Keyword} {text : Option String} (keyword : (single j text).keyword = some k)
    (expression : (single j text).expression = some e) :
    j = k ∧ ∃ t, text = some t ∧ e = .value t := by
  refine ⟨Option.some.inj keyword, ?_⟩
  obtain ⟨t, present, rfl⟩ := Option.map_eq_some_iff.mp expression
  exact ⟨t, present, rfl⟩

/-- A value that could stand in a list is read alone as well. -/
theorem read_part {α : Type} [LawfulListable α] {p : String → Except ReadError α} {s : Settings}
    {a : α} (parted : Expression.Parted k p s) (again : p (Element.render a) = .ok a)
    (capacity : s.capacity = none) (uniqueness : s.uniqueness = .unrestricted)
    (suits : s.Suits (.leaf a)) :
    Expression.read k [Element.render a] .whole = .ok (.value (Element.render a)) := by
  have plain : ∀ b ∈ [a], Plain p b := by simpa using parted.plain again
  have lawful : Stack.Lawful (⟨s, [a].map .leaf⟩ : Stack α) :=
    (Settings.admits_iff_of_unrestricted capacity uniqueness).mpr (by simpa using suits)
  have read := Stack.readParts_intercalate (by simp) plain lawful
  rw [List.map_singleton, String.intercalate_singleton] at read
  rw [parted.reads, String.intercalate_singleton, read]
  rfl

theorem checkPlace_own {α : Type} [Element α] {s : Settings} {a : α}
    (own : s.category = .values k) (keyword : Element.keyword a = some k) :
    s.checkPlace (.leaf a) = .ok () := by
  refine Settings.checkPlace_eq_ok_iff.mpr fun j hj => ?_
  obtain rfl : k = j := Option.some.inj (keyword.symm.trans hj)
  rw [own]
  exact if_pos rfl

theorem read_name {d : DistinguishedName} (made : d.Made) (valid : d.validate = .ok ()) :
    Expression.read d.keyword [d.render] .whole = .ok (.value d.render) := by
  have again := made.namePart_render valid
  obtain ⟨_, _, bare, _⟩ := namePart_eq_ok_iff.mp again
  have parted := parted_names (bareName?_eq_ok_iff.mp bare).2.1
  exact read_part (a := d) parted again rfl rfl ⟨rfl, valid, checkPlace_own rfl rfl⟩

theorem read_identifier {o : ObjectIdentifier} (made : o.Made) (valid : o.validate = .ok ()) :
    Expression.read o.keyword [o.render] .whole = .ok (.value o.render) := by
  have again := made.identifierPart_render valid
  obtain ⟨_, dotted, _⟩ := identifierPart_eq_ok_iff.mp again
  have parted := parted_identifiers (dotted?_eq_ok_iff.mp dotted).2.1
  exact read_part (a := o) parted again rfl rfl ⟨rfl, valid, checkPlace_own rfl rfl⟩

theorem read_attribute {a : AttributeType} (made : a.Made) (valid : a.validate = .ok ()) :
    Expression.read (.target .targetAttr) [a.render] .whole = .ok (.value a.render) :=
  read_part (a := a) (parted_attributes rfl) (made.attributePart_render valid) rfl rfl
    ⟨rfl, valid, rfl⟩

theorem readAlone_name {d : DistinguishedName} (made : d.Made)
    (keyword : d.toOperand.keyword = some k) (expression : d.toOperand.expression = some e) :
    e.ReadAlone k := by
  obtain ⟨rfl, t, present, rfl⟩ := of_single keyword expression
  obtain ⟨name, named, rfl⟩ := Option.map_eq_some_iff.mp present
  have valid : d.validate = .ok () := by
    simp [DistinguishedName.validate, DistinguishedName.isVoid, named]
  exact ⟨_, rfl, read_name made valid⟩

theorem readAlone_identifier {o : ObjectIdentifier} (made : o.Made)
    (keyword : o.toOperand.keyword = some k) (expression : o.toOperand.expression = some e) :
    e.ReadAlone k := by
  obtain ⟨rfl, t, present, rfl⟩ := of_single keyword expression
  have valid : o.validate = .ok () := by
    simp [ObjectIdentifier.validate, ObjectIdentifier.isVoid, present]
  have read := read_identifier made valid
  rw [ObjectIdentifier.render, present, Option.getD_some] at read
  exact ⟨t, rfl, read⟩

theorem readAlone_attribute {a : AttributeType} (made : a.Made)
    (keyword : a.toOperand.keyword = some k) (expression : a.toOperand.expression = some e) :
    e.ReadAlone k := by
  obtain ⟨rfl, t, present, rfl⟩ := of_single keyword expression
  have valid : a.validate = .ok () := by
    simp [AttributeType.validate, AttributeType.isVoid, present]
  have read := read_attribute made valid
  rw [AttributeType.render, present, Option.getD_some] at read
  exact ⟨t, rfl, read⟩

/-- A value of a kind that has no lists is read from the form in which it is kept. -/
theorem readAlone_scalar {text : String}
    (scalar : k.valueKind ≠ .distinguishedNames ∧ k.valueKind ≠ .objectIdentifiers ∧
      k.valueKind ≠ .attributeTypes ∧ k.valueKind ≠ .filterOperations)
    (read : Expression.readScalar k text = .ok text) : (Expression.value text).ReadAlone k :=
  ⟨text, rfl, (Expression.read_scalar_eq_ok_iff scalar).mpr read⟩

theorem readAlone_scope {s : SearchScope} (keyword : s.toOperand.keyword = some k)
    (expression : s.toOperand.expression = some e) : e.ReadAlone k := by
  obtain ⟨rfl, _, present, rfl⟩ := of_single keyword expression
  obtain rfl := Option.some.inj present
  exact readAlone_scalar (by decide) (Expression.readScalar_scope s)

theorem readAlone_strength {s : Strength} (keyword : s.toOperand.keyword = some k)
    (expression : s.toOperand.expression = some e) : e.ReadAlone k := by
  obtain ⟨rfl, _, present, rfl⟩ := of_single keyword expression
  obtain rfl := Option.some.inj present
  exact readAlone_scalar (by decide) (Expression.readScalar_strength s)

theorem readAlone_time {t : TimeOfDay} (keyword : t.toOperand.keyword = some k)
    (expression : t.toOperand.expression = some e) : e.ReadAlone k := by
  obtain ⟨rfl, _, present, rfl⟩ := of_single keyword expression
  obtain ⟨clock, _, rfl⟩ := Option.map_eq_some_iff.mp present
  exact readAlone_scalar (by decide) (Expression.readScalar_clock clock)

theorem LaidOut.follows {o : Operand} (h : o.LaidOut layout) (keyword : o.keyword = some k)
    (expression : o.expression = some e) : ∃ text, e.Follows layout k text := by
  cases h with
  | names _ made => exact follows_names made keyword expression
  | identifiers _ made => exact follows_identifiers made keyword expression
  | attributes made => exact follows_attributes made keyword expression
  | operations made => exact follows_operations made keyword expression
  | name made => exact (readAlone_name made keyword expression).follows
  | identifier made => exact (readAlone_identifier made keyword expression).follows
  | attributeType made => exact (readAlone_attribute made keyword expression).follows
  | scope s => exact (readAlone_scope keyword expression).follows
  | strength s => exact (readAlone_strength keyword expression).follows
  | time t => exact (readAlone_time keyword expression).follows

end Operand

/-! ### Conditions -/

namespace Condition

/-- A comparison with a value, or with a list of values, that follows the layout. -/
def LaidOut (layout : Layout) (c : Condition) : Prop :=
  ∃ (o : Operand) (op : Comparison), o.LaidOut layout ∧ c = o.condition op layout

/-- Two bars stand between values of the condition. -/
def hasBars (c : Condition) : Bool :=
  c.expression.any Expression.hasBars

/-- The tree with which a condition is written, and when that tree is settled. -/
structure Spelt (layout : Layout) (c : Condition) (t : ConditionTree) : Prop where
  tree : c.tree = .condition t
  keyword : c.keyword = some t.keyword
  parentheses : c.parenthesized = t.keyword.isTarget
  padded : t.padded = c.padded
  quotable : t.Quotable
  written : c.render = enclosed c.parenthesized c.padded t.text
  settled : (layout.paddedStacks = true ∨ c.hasBars = false) →
    t.Settled ∧ ∀ p, ∃ d, t.toCondition p = .ok d
  lost : layout.paddedStacks = false → c.hasBars = true → ¬ t.Settled

variable {layout : Layout} {c : Condition}

theorem LaidOut.exists_parts (h : c.LaidOut layout) (valid : c.validate = .ok ()) :
    ∃ k op e text, c = new k op e layout ∧ e.Follows layout k text := by
  obtain ⟨o, op, laidOut, rfl⟩ := h
  unfold Operand.condition at valid ⊢
  cases keyword : o.keyword with
  | none =>
    rw [keyword] at valid
    cases valid
  | some k =>
    cases expression : o.expression with
    | none =>
      rw [keyword, expression] at valid
      cases valid
    | some e =>
      rw [keyword, expression] at valid
      dsimp only at valid ⊢
      split at valid
      · next permitted =>
        obtain ⟨text, follows⟩ := laidOut.follows keyword expression
        exact ⟨k, op, e, text, if_pos permitted, follows⟩
      · cases valid

theorem LaidOut.exists_tree (h : c.LaidOut layout) (valid : c.validate = .ok ()) :
    ∃ t, c.Spelt layout t := by
  obtain ⟨k, op, e, text, rfl, follows⟩ := h.exists_parts valid
  obtain ⟨permitted, full, sound⟩ := validate_eq_ok_iff.mp valid
  refine ⟨.of k op [text] layout.paddedRules, ?_⟩
  constructor
  case keyword | parentheses | padded => rfl
  case tree =>
    show Grammar.RuleTree.condition (.of k op e.texts layout.paddedRules) = _
    rw [follows.texts]
  case quotable => exact ⟨by simp, by simpa using follows.unquoted sound⟩
  case written =>
    show enclosed _ _ _ = enclosed _ _ _
    unfold ConditionTree.text
    rw [ConditionTree.values_of, List.map_singleton, String.intercalate_singleton,
      ← follows.written]
    rfl
  case settled =>
    intro spaced
    obtain ⟨f, canonical, texts, full', sound'⟩ := follows.kept full sound spaced
    refine ⟨⟨f, canonical, texts.symm⟩, fun p => ?_⟩
    refine ⟨⟨some k, some op, some f, p, layout.paddedRules⟩, ?_⟩
    refine ConditionTree.toCondition_eq_ok_iff.mpr ⟨f, ?_, permitted, full', sound', rfl⟩
    rw [← texts]
    exact canonical.reread
  case lost =>
    rintro tight bars ⟨f, canonical, texts⟩
    exact follows.lost tight bars f canonical texts.symm

end Condition

end DirectoryAccess
