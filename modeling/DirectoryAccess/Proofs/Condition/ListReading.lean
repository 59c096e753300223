import DirectoryAccess.Proofs.Condition.Comparands

/-!
# Lists are read back

The values of a list are quoted together or one by one, with blanks around the bars between them or
without. Quoted one by one they are always read as the list again; quoted together they are, unless
a value that another one follows without a blank ends in a bar.
-/
namespace DirectoryAccess

open Grammar

namespace Grammar.ConditionTree

/-- Values in their quotes may have blanks around the bars or not. -/
theorem writesValues_bars (padded : Bool) {vs : List String} (full : vs ≠ [])
    (h : ∀ v ∈ vs, '"' ∉ v.toList) :
    WritesValues vs ((Delimiter.written padded .doubleBar).intercalate (vs.map quoted)).toList := by
  have bars : WritesSign "||" (Delimiter.written padded .doubleBar).toList := by
    cases padded with
    | true => exact ⟨[' '], [' '], by decide, isGap_blank, isGap_blank⟩
    | false => exact ⟨[], [], by decide, isGap_nil, isGap_nil⟩
  rw [String.toList_intercalate, List.map_map]
  exact writesValues_sign bars full h

end Grammar.ConditionTree

namespace Stack

/-- The text of the comparison with the list is read, as the same comparison, with a list that is
quoted alike and has the same elements. -/
def ReadsBack {α : Type} [Listable α] (s : Stack α) (op : Comparison) (layout : Layout) : Prop :=
  ∃ (c : Condition) (t : Stack α),
    Condition.read (s.toOperand.condition op layout).render = .ok c ∧ c.keyword = s.keyword ∧
      c.operator = some op ∧ c.expression = some (Listable.toExpression t) ∧
      t.settings.quoting = s.settings.quoting ∧ t.elements = s.elements

section Lists

variable {α : Type} [LawfulListable α] {k : Keyword} {p : String → Except ReadError α}
  {s : Settings} {as : List α} {op : Comparison} (layout : Layout)

/-- Several values of a list with these settings, which are read one by one from what they are
written as. -/
structure Several (k : Keyword) (p : String → Except ReadError α) (s : Settings) (as : List α) :
    Prop where
  parted : Expression.Parted k p s
  own : s.category = .values k
  several : 1 < as.length
  again : ∀ a ∈ as, p (Element.render a) = .ok a
  lawful : (⟨s, as.map .leaf⟩ : Stack α).Lawful
  minimum : s.minimum = 1

namespace Several

variable (h : Several k p s as) (padded : Bool) (q : Quoting)

/-- The values under other settings of spacing and quotes. -/
def list (s : Settings) (as : List α) (padded : Bool) (q : Quoting) : Stack α :=
  ⟨{ s with padded, quoting := q }, as.map .leaf⟩

include h

theorem full : as ≠ [] := by
  rintro rfl
  have := h.several
  simp at this

theorem plain : ∀ a ∈ as, Plain p a :=
  fun a ha => h.parted.plain (h.again a ha)

theorem validate_list : (list s as padded q).validate = .ok () := by
  refine (validate_eq_ok_iff _).mpr ⟨?_, fun x hx => (h.lawful.proper x hx).2.1⟩
  show s.minimum ≤ (as.map Node.leaf).length
  have := h.several
  rw [h.minimum, List.length_map]
  omega

theorem isEmpty_list : (list s as padded q).isEmpty = false := by
  have := h.full
  simpa [list, Stack.isEmpty] using this

theorem render_list : (list s as padded q).render =
    (Delimiter.written padded .doubleBar).intercalate
      (as.map (fun a => q.value (Element.render a))) := by
  have delimiter : s.delimiter = .doubleBar := by
    have bars := h.parted.barred.bars
    revert bars
    cases s.delimiter <;> cases s.padded <;> decide
  rw [← delimiter]
  exact render_leaves (s := { s with padded, quoting := q }) h.parted.barred.list
    h.parted.barred.bare as

theorem condition_list (permitted : k.permits op = true) :
    (list s as padded q).toOperand.condition op layout =
      .new k op (Listable.toExpression (list s as padded q)) layout := by
  refine Operand.condition_eq_new layout ?_ ?_ permitted
  · show s.category.keyword = some k
    rw [h.own]
    rfl
  · exact toOption_map_eq_some_iff.mpr ⟨h.validate_list padded q, rfl⟩

/-- Where the texts between the quotes are read as the values again, the condition is. -/
theorem readsBack_of_read {vs : List String} (permitted : k.permits op = true)
    (values : WritesValues vs (Listable.toExpression (list s as padded q)).render.toList)
    (read : Expression.read k vs (.ofCount vs.length) =
      .ok (Listable.toExpression (list s as s.padded q))) :
    (list s as padded q).ReadsBack op layout := by
  refine ⟨⟨some k, some op, some (Listable.toExpression (list s as s.padded q)), k.isTarget,
    layout.paddedRules⟩, list s as s.padded q, ?_, ?_, rfl, rfl, rfl, rfl⟩
  · rw [h.condition_list layout padded q permitted]
    refine (Condition.read_new values).mpr ⟨_, read, permitted, ?_, ?_, rfl⟩
    · rw [LawfulListable.isEmpty_toExpression]
      exact h.isEmpty_list s.padded q
    · rw [LawfulListable.validate_toExpression]
      exact h.validate_list s.padded q
  · show some k = s.category.keyword
    rw [h.own]
    rfl

theorem writes_whole : WritesValues [(list s as padded .whole).render]
    (Listable.toExpression (list s as padded .whole)).render.toList := by
  have unquoted : '"' ∉ (list s as padded .whole).render.toList := by
    rw [h.render_list padded .whole]
    refine Text.not_mem_intercalate (by cases padded <;> decide) ?_
    exact List.forall_mem_map.mpr fun a ha => (h.plain a ha).unquoted
  rw [LawfulListable.render_toExpression]
  exact ConditionTree.writesValues_single unquoted

/-- Values that are quoted one by one are read one by one. -/
theorem readsBack_each (permitted : k.permits op = true) :
    (list s as padded .each).ReadsBack op layout := by
  have unquoted : ∀ v ∈ as.map Element.render, '"' ∉ v.toList := by
    simpa using fun a ha => (h.plain a ha).unquoted
  have values : WritesValues (as.map Element.render)
      (Listable.toExpression (list s as padded .each)).render.toList := by
    rw [LawfulListable.render_toExpression]
    show WritesValues _ (list s as padded .each).render.toList
    have written := ConditionTree.writesValues_bars padded (by simpa using h.full) unquoted
    rw [List.map_map] at written
    rw [h.render_list padded .each]
    exact written
  refine h.readsBack_of_read layout padded .each permitted values ?_
  have each : Quoting.ofCount (as.map Element.render).length = .each := by
    rw [List.length_map]
    exact if_pos h.several
  rw [each, h.parted.reads, readParts_intercalate h.full h.plain h.lawful]
  rfl

/-- Values that are quoted together are read back if the text between the quotes comes apart into
them. -/
theorem readsBack_whole (permitted : k.permits op = true)
    (read : readParts p ⟨s, []⟩ ((Delimiter.written padded .doubleBar).intercalate
      (as.map Element.render)) = .ok ⟨s, as.map .leaf⟩) :
    (list s as padded .whole).ReadsBack op layout := by
  refine h.readsBack_of_read layout padded .whole permitted (h.writes_whole padded) ?_
  have one : Quoting.ofCount [(list s as padded .whole).render].length = .whole := rfl
  have rendered : (list s as padded .whole).render =
      (Delimiter.written padded .doubleBar).intercalate (as.map Element.render) :=
    h.render_list padded .whole
  rw [one, h.parted.reads, String.intercalate_singleton, rendered, read]
  match as, h.several with
  | a :: b :: as, _ => rfl

theorem readsBack_of_apart (permitted : k.permits op = true)
    (apart : padded = true ∨ q = .each ∨
      ∀ a ∈ as.dropLast, (Element.render a).toList.getLast? ≠ some '|') :
    (list s as padded q).ReadsBack op layout := by
  cases q with
  | each => exact h.readsBack_each layout padded permitted
  | whole =>
    refine h.readsBack_whole layout padded permitted ?_
    cases padded with
    | true => exact readParts_intercalate h.full h.plain h.lawful
    | false =>
      have clear : ∀ a ∈ as.dropLast, (Element.render a).toList.getLast? ≠ some '|' := by
        simpa using apart
      refine readParts_eq_ok_iff.mpr ⟨as, ?_, rfl, h.lawful⟩
      have bars : (Delimiter.written false .doubleBar).toList = ['|', '|'] := by decide
      have pieces : Text.splitDouble '|' ((Delimiter.written false .doubleBar).intercalate
          (as.map Element.render)) = as.map Element.render := by
        unfold Text.splitDouble
        rw [String.toList_intercalate, bars, Text.piecesAtDouble_tight]
        · simp
        · simpa using h.full
        · simpa using fun a ha => (h.plain a ha).single
        · rw [List.map_map, ← List.map_dropLast]
          exact List.forall_mem_map.mpr clear
      rw [pieces, List.forall₂_map_left_iff, List.forall₂_same]
      exact h.again

end Several

/-- Values that have been pushed, if more than one of them is not refused. -/
theorem several_of_pushAll {padded : Bool} {xs : List (Node α)} (flat : s.nesting = false)
    (own : s.category = .values k) (minimum : s.minimum = 1)
    (parted : ∀ a, p (Element.render a) = .ok a → Expression.Parted k p s)
    (again : ∀ a, .leaf a ∈ xs → Element.validate a = .ok () →
      (∀ j ∈ Element.keyword a, j = k) → p (Element.render a) = .ok a)
    (several : 1 < (pushAll ⟨{ s with padded }, []⟩ xs).size) :
    ∃ as, pushAll ⟨{ s with padded }, []⟩ xs = ⟨{ s with padded }, as.map .leaf⟩ ∧
      Several k p s as := by
  obtain ⟨as, same, lawful, again'⟩ :=
    Expression.exists_again_of_pushAll (s := { s with padded }) flat own again
  rw [same] at several
  have several' : 1 < as.length := by simpa [size] using several
  obtain ⟨a, ha⟩ := List.exists_mem_of_length_pos (Nat.zero_lt_of_lt several')
  exact ⟨as, same, parted a (again' a ha), own, several', again',
    ⟨lawful.room, lawful.proper, lawful.distinct⟩, minimum⟩

end Lists

/-! ### Names, identifiers and attribute types -/

variable {l : Layout} {k : Keyword}

theorem several_names {xs : List (Node DistinguishedName)} (made : ∀ d, .leaf d ∈ xs → d.Made)
    (several : 1 < ((distinguishedNames k l).pushAll xs).size) :
    ∃ ds, (distinguishedNames k l).pushAll xs = ⟨(distinguishedNames k l).settings, ds.map .leaf⟩ ∧
      Several k (namePart k) (distinguishedNames k).settings ds := by
  refine several_of_pushAll (s := (distinguishedNames k).settings) rfl rfl rfl ?_ ?_ several
  · intro d read
    obtain ⟨_, _, bare, _⟩ := namePart_eq_ok_iff.mp read
    exact parted_names (bareName?_eq_ok_iff.mp bare).2.1
  · intro d hd sound place
    obtain rfl := place d.keyword rfl
    exact (made d hd).namePart_render sound

theorem several_identifiers {xs : List (Node ObjectIdentifier)}
    (made : ∀ o, .leaf o ∈ xs → o.Made)
    (several : 1 < ((objectIdentifiers k l).pushAll xs).size) :
    ∃ os, (objectIdentifiers k l).pushAll xs = ⟨(objectIdentifiers k l).settings, os.map .leaf⟩ ∧
      Several k (identifierPart k) (objectIdentifiers k).settings os := by
  refine several_of_pushAll (s := (objectIdentifiers k).settings) rfl rfl rfl ?_ ?_ several
  · intro o read
    obtain ⟨_, dotted, _⟩ := identifierPart_eq_ok_iff.mp read
    exact parted_identifiers (dotted?_eq_ok_iff.mp dotted).2.1
  · intro o ho sound place
    obtain rfl := place o.keyword rfl
    exact (made o ho).identifierPart_render sound

theorem several_attributes {xs : List (Node AttributeType)} (made : ∀ a, .leaf a ∈ xs → a.Made)
    (several : 1 < ((attributeTypes l).pushAll xs).size) :
    ∃ as, (attributeTypes l).pushAll xs = ⟨(attributeTypes l).settings, as.map .leaf⟩ ∧
      Several (.target .targetAttr) attributePart attributeTypes.settings as := by
  refine several_of_pushAll (s := attributeTypes.settings) rfl rfl rfl ?_ ?_ several
  · intro _ _
    exact parted_attributes rfl
  · intro a ha sound _
    exact (made a ha).attributePart_render sound

/-- The keywords with lists of several values between bars ask for agreement or rule it out. -/
theorem permits_of_parted {op : Comparison} (equality : op = .equal ∨ op = .unequal)
    (kind : k.valueKind = .distinguishedNames ∨ k.valueKind = .objectIdentifiers ∨
      k.valueKind = .attributeTypes) : k.permits op = true := by
  rcases equality with rfl | rfl
  · exact k.permits_equal
  · rcases k with k | k <;> cases k <;> revert kind <;> decide

theorem kind_of_several {ds : List DistinguishedName}
    (h : Several k (namePart k) (distinguishedNames k).settings ds) :
    k.valueKind = .distinguishedNames := by
  obtain ⟨d, hd⟩ := List.exists_mem_of_ne_nil ds h.full
  obtain ⟨_, _, bare, _⟩ := namePart_eq_ok_iff.mp (h.again d hd)
  exact (bareName?_eq_ok_iff.mp bare).2.1

theorem elements_of_ofList {s : Stack DistinguishedName} {t : Stack DistinguishedName}
    (h : Expression.ofList s .whole = .distinguishedNames t) : s.elements = t.elements := by
  unfold Expression.ofList at h
  split at h
  · cases h
  · obtain rfl := Expression.distinguishedNames.inj h
    rfl

/-- Names between tight bars are read back only if the bars of the list are the first ones. -/
theorem apart_of_readsBack {ds : List DistinguishedName} {op : Comparison} {layout : Layout}
    (h : Several k (namePart k) (distinguishedNames k).settings ds)
    (permitted : k.permits op = true)
    (back : (Several.list (distinguishedNames k).settings ds false .whole).ReadsBack op layout) :
    ∀ d ∈ ds.dropLast, (Element.render d).toList.getLast? ≠ some '|' := by
  obtain ⟨c, t, read, _, _, expression, _, elements⟩ := back
  rw [h.condition_list layout false .whole permitted,
    Condition.read_new (h.writes_whole false)] at read
  obtain ⟨e, taken, _, _, _, rfl⟩ := read
  obtain rfl : e = .distinguishedNames t := Option.some.inj expression
  have one : Quoting.ofCount
      [(Several.list (distinguishedNames k).settings ds false .whole).render].length = .whole := rfl
  rw [one, h.parted.reads, String.intercalate_singleton] at taken
  obtain ⟨list, parts, made⟩ := bind_eq_ok.mp taken
  obtain ⟨fs, pieces, rfl, _⟩ := readParts_eq_ok_iff.mp parts
  have same : fs.map Node.leaf = ds.map Node.leaf :=
    (elements_of_ofList (pure_eq_ok.mp made)).trans elements
  obtain rfl : fs = ds := List.map_injective_iff.mpr (fun _ _ eq => Node.leaf.inj eq) same
  -- each piece of the text, blanks aside, is what the name is written as
  have rendered : (Several.list (distinguishedNames k).settings fs false .whole).render =
      "||".intercalate (fs.map Element.render) := h.render_list false .whole
  have bars : "||".toList = ['|', '|'] := by decide
  rw [rendered] at pieces
  unfold Text.splitDouble at pieces
  rw [String.toList_intercalate, bars, List.forall₂_map_left_iff, List.map_map] at pieces
  have trims : List.Forall₂ (fun piece name => Text.trim piece = name)
      (Text.piecesAtDouble '|' (['|', '|'].intercalate (fs.map (String.toList ∘ Element.render))))
      (fs.map (String.toList ∘ Element.render)) := by
    rw [List.forall₂_map_right_iff]
    refine pieces.imp fun piece d read => ?_
    have trimmed := (namePart_eq_ok read).1
    rw [String.toList_ofList] at trimmed
    exact trimmed.symm
  have apart := Text.apart_of_pieces_tight
    (List.forall_mem_map.mpr fun d hd => (h.plain d hd).single) trims
  rw [← List.map_dropLast] at apart
  exact fun d hd => apart _ (List.mem_map_of_mem hd)

/-- A list of several names is read back in every layout and either quoting, unless it has tight
bars in one pair of quotes and a name in front of these bars ends in a bar. Lists of several
identifiers or attribute types are always read back. -/
theorem readsBack_iff_apart {op : Comparison} (equality : op = .equal ∨ op = .unequal)
    (l layout : Layout) (q : Quoting) :
    (∀ (k : Keyword) (xs : List (Node DistinguishedName)), (∀ d, .leaf d ∈ xs → d.Made) →
      1 < ((distinguishedNames k l).pushAll xs).size →
      ((((distinguishedNames k l).pushAll xs).setQuoting q).ReadsBack op layout ↔
        l.paddedStacks = true ∨ q = .each ∨
          ∀ d ∈ ((distinguishedNames k l).pushAll xs).leaves.dropLast,
            d.render.toList.getLast? ≠ some '|')) ∧
    (∀ (k : Keyword) (xs : List (Node ObjectIdentifier)), (∀ o, .leaf o ∈ xs → o.Made) →
      1 < ((objectIdentifiers k l).pushAll xs).size →
      (((objectIdentifiers k l).pushAll xs).setQuoting q).ReadsBack op layout) ∧
    ∀ xs : List (Node AttributeType), (∀ a, .leaf a ∈ xs → a.Made) →
      1 < ((attributeTypes l).pushAll xs).size →
      (((attributeTypes l).pushAll xs).setQuoting q).ReadsBack op layout := by
  refine ⟨fun k xs made several => ?_, fun k xs made several => ?_, fun xs made several => ?_⟩
  · obtain ⟨ds, pushed, h⟩ := several_names made several
    have permitted := permits_of_parted equality (.inl (kind_of_several h))
    rw [pushed, leaves_of_leaves]
    show (Several.list (distinguishedNames k).settings ds l.paddedStacks q).ReadsBack op layout ↔ _
    refine ⟨fun back => ?_, h.readsBack_of_apart layout _ q permitted⟩
    cases padded : l.paddedStacks with
    | true => exact .inl rfl
    | false =>
      cases q with
      | each => exact .inr (.inl rfl)
      | whole =>
        rw [padded] at back
        exact .inr (.inr (apart_of_readsBack h permitted back))
  · obtain ⟨os, pushed, h⟩ := several_identifiers made several
    have clear : ∀ o ∈ os, (Element.render o).toList.getLast? ≠ some '|' := by
      intro o ho last
      obtain ⟨written, _, free⟩ := identifierPart_eq_ok (h.again o ho)
      rw [written] at last
      exact free '|' (by decide) (by decide) (List.mem_of_getLast? last)
    have kind : k.valueKind = .objectIdentifiers := by
      obtain ⟨o, ho⟩ := List.exists_mem_of_ne_nil os h.full
      obtain ⟨_, dotted, _⟩ := identifierPart_eq_ok_iff.mp (h.again o ho)
      exact (dotted?_eq_ok_iff.mp dotted).2.1
    rw [pushed]
    exact h.readsBack_of_apart layout _ q (permits_of_parted equality (.inr (.inl kind)))
      (.inr (.inr fun o ho => clear o (List.dropLast_subset os ho)))
  · obtain ⟨as, pushed, h⟩ := several_attributes made several
    have clear : ∀ a ∈ as, (Element.render a).toList.getLast? ≠ some '|' := by
      intro a ha last
      have named := (attributePart_eq_ok_iff.mp (h.again a ha)).1
      rw [(h.plain a ha).trimmed.trim_eq] at named
      exact not_mem_of_isName named (by decide) (by decide) (List.mem_of_getLast? last)
    rw [pushed]
    exact h.readsBack_of_apart layout _ q (permits_of_parted equality (.inr (.inr rfl)))
      (.inr (.inr fun a ha => clear a (List.dropLast_subset as ha)))

/-- Lists with tight bars: names of which only the last ends in a bar, identifiers, and attribute
types that are quoted one by one. -/
theorem readsBack_tight_lists :
    let tight : Layout := { paddedStacks := false }
    let names : List (Node DistinguishedName) :=
      [.leaf (.userDn "cn=a"), .leaf (.userDn "cn=b|")]
    let identifiers : List (Node ObjectIdentifier) :=
      [.leaf (.control "1.2"), .leaf (.control "2.5.4")]
    let attributes : List (Node AttributeType) := [.leaf (.ofText "cn"), .leaf (.ofText "sn")]
    (((distinguishedNames (.bind .userDn) tight).pushAll names).setQuoting .whole).ReadsBack
        .unequal tight ∧
      (((objectIdentifiers (.target .targetControl) tight).pushAll identifiers).setQuoting
        .whole).ReadsBack .unequal tight ∧
      (((attributeTypes tight).pushAll attributes).setQuoting .each).ReadsBack .unequal tight := by
  intro tight names identifiers attributes
  have madeNames : ∀ d, .leaf d ∈ names → d.Made := by
    simpa [names] using ⟨⟨_, _, rfl⟩, ⟨_, _, rfl⟩⟩
  have madeIdentifiers : ∀ o, .leaf o ∈ identifiers → o.Made := by
    simpa [identifiers] using ⟨⟨_, _, rfl⟩, ⟨_, _, rfl⟩⟩
  have madeAttributes : ∀ a, .leaf a ∈ attributes → a.Made := by
    simpa [attributes] using ⟨⟨_, rfl⟩, ⟨_, rfl⟩⟩
  have whole := readsBack_iff_apart (.inr rfl) tight tight .whole
  have each := readsBack_iff_apart (.inr rfl) tight tight .each
  refine ⟨(whole.1 _ names madeNames (by decide +kernel)).mpr ?_,
    whole.2.1 _ identifiers madeIdentifiers (by decide +kernel),
    each.2.2 attributes madeAttributes (by decide +kernel)⟩
  exact .inr (.inr (by decide +kernel))

/-- A name that ends in a bar takes the first of the two tight bars behind it, and what follows is
no name any more. -/
theorem names_with_bar_not_readsBack :
    let tight : Layout := { paddedStacks := false }
    let names : List (Node DistinguishedName) :=
      [.leaf (.userDn "cn=a|"), .leaf (.userDn "cn=b")]
    let list := ((distinguishedNames (.bind .userDn) tight).pushAll names).setQuoting .whole
    (∀ d, .leaf d ∈ names → d.Made) ∧ list.size = 2 ∧
      (list.toOperand.condition .equal {}).render =
        "userdn = \"ldap:///cn=a|||ldap:///cn=b\"" ∧
      ¬ list.ReadsBack .equal {} := by
  intro tight names list
  have written : (list.toOperand.condition .equal {}).render =
      "userdn = \"ldap:///cn=a|||ldap:///cn=b\"" := by
    decide +kernel
  refine ⟨by simpa [names] using ⟨⟨_, _, rfl⟩, ⟨_, _, rfl⟩⟩, by decide +kernel, written, ?_⟩
  rintro ⟨c, t, read, _⟩
  have refused : (Condition.read "userdn = \"ldap:///cn=a|||ldap:///cn=b\"").toBool = false := by
    decide +kernel
  rw [written] at read
  rw [read] at refused
  cases refused

end Stack

end DirectoryAccess
