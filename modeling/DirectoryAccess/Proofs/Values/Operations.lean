import DirectoryAccess.Proofs.Grammar.OperationReading
import DirectoryAccess.Proofs.Stack.FirstOccurrences
import DirectoryAccess.Proofs.Values.Matches
import DirectoryAccess.Proofs.Values.Scalars

/-!
# Filter operations are read from what they are written as

An operation keeps the terms that are valid, so a text is in general read as less than it says; what
is kept is read again from its written form.
-/
namespace DirectoryAccess

open Grammar Grammar.Reader

/-! ### Attribute filters -/

namespace AttributeFilter

/-- The two texts that a valid attribute filter is written with. -/
structure Spelt (f : AttributeFilter) (name body : List Char) : Prop where
  same : f = ⟨⟨some (String.ofList name)⟩, ⟨some (String.ofList body)⟩⟩
  named : AttributeType.isNameFrom Char.isAlpha name = true
  trimmed : Text.trim name = name ∧ Text.trim body = body
  bodied : Filter.IsBody body

theorem validate_eq_ok_iff {f : AttributeFilter} :
    f.validate = .ok () ↔ f.attributeType.validate = .ok () ∧ f.attributeType ≠ .every ∧
      f.filter.validate = .ok () := by
  unfold validate
  rw [bind_eq_ok]
  dsimp only
  simp only [unless_throw_eq_ok]
  constructor
  · rintro ⟨_, named, concrete, bodied⟩
    exact ⟨named, concrete, bodied⟩
  · rintro ⟨named, concrete, bodied⟩
    exact ⟨(), named, concrete, bodied⟩

theorem spelt_of_ofTexts {name filter : String} (h : (ofTexts name filter).validate = .ok ()) :
    (ofTexts name filter).Spelt (Text.trim name.toList) (Text.trim filter.toList) := by
  obtain ⟨named, concrete, bodied⟩ := validate_eq_ok_iff.mp h
  obtain ⟨isName, named_eq⟩ := AttributeType.isName_of_validate named
  have body : ∃ b, Filter.body? filter = .ok b := by
    cases read : Filter.body? filter with
    | ok b => exact ⟨b, rfl⟩
    | error e =>
      have empty : (ofTexts name filter).filter = ⟨none⟩ := by
        show (⟨(Filter.body? filter).toOption⟩ : Filter) = _
        rw [read]
        rfl
      rw [empty] at bodied
      cases bodied
  obtain ⟨b, read⟩ := body
  obtain ⟨rfl, isBody⟩ := Filter.body?_eq_ok_iff.mp read
  have filter_eq : (ofTexts name filter).filter =
      ⟨some (String.ofList (Text.trim filter.toList))⟩ := by
    show (⟨(Filter.body? filter).toOption⟩ : Filter) = _
    rw [read]
    rfl
  refine ⟨?_, ?_, ⟨Text.trim_trim _, Text.trim_trim _⟩, isBody⟩
  · show (⟨.ofText name, (ofTexts name filter).filter⟩ : AttributeFilter) = _
    rw [named_eq, filter_eq]
  · unfold AttributeType.isName at isName
    simp only [Bool.or_eq_true, beq_iff_eq] at isName
    refine isName.resolve_left fun star => concrete ?_
    show AttributeType.ofText name = _
    rw [named_eq, star]
    rfl

theorem Spelt.ofTexts_eq {f : AttributeFilter} {name body : List Char} (h : f.Spelt name body) :
    ofTexts (String.ofList name) (String.ofList body) = f := by
  obtain ⟨rfl, named, ⟨trimName, trimBody⟩, bodied⟩ := h
  have isName : AttributeType.isName name = true := by
    unfold AttributeType.isName
    rw [named, Bool.or_true]
  have read : Filter.body? (String.ofList body) = .ok (String.ofList body) := by
    refine Filter.body?_eq_ok_iff.mpr ?_
    rw [String.toList_ofList, trimBody]
    exact ⟨rfl, bodied⟩
  unfold ofTexts AttributeType.ofText Filter.ofText
  dsimp only
  rw [String.toList_ofList, trimName, if_pos isName, read]
  rfl

theorem Spelt.validate {f : AttributeFilter} {name body : List Char} (h : f.Spelt name body) :
    f.validate = .ok () := by
  obtain ⟨rfl, named, _, _⟩ := h
  refine validate_eq_ok_iff.mpr ⟨rfl, ?_, rfl⟩
  intro star
  obtain rfl : name = ['*'] := by simpa [AttributeType.every, String.ext_iff] using star
  revert named
  decide

theorem Spelt.toList_render {f : AttributeFilter} {name body : List Char}
    (h : f.Spelt name body) : f.render.toList = name ++ ':' :: body := by
  have valid := h.validate
  obtain ⟨rfl, _, _, _⟩ := h
  have colon : ":".toList = [':'] := by decide
  unfold render
  rw [valid]
  simp [AttributeType.render, Filter.render, colon]

theorem Spelt.texts {f : AttributeFilter} {name body : List Char}
    (h : f.Spelt name body) :
    f.attributeType.render = String.ofList name ∧ f.filter.render = String.ofList body := by
  rw [h.same]
  exact ⟨rfl, rfl⟩

theorem Spelt.name_chars {f : AttributeFilter} {name body : List Char} (h : f.Spelt name body) :
    name ≠ [] ∧ ∀ c ∈ name, AttributeType.isNameChar c = true := by
  have named := h.named
  unfold AttributeType.isNameFrom at named
  simp only [Bool.and_eq_true] at named
  refine ⟨?_, List.all_eq_true.mp named.2⟩
  rintro rfl
  simp at named

end AttributeFilter

/-! ### The parentheses of a filter -/

namespace Filter

/-- What the end of a scan for a group says about the parentheses of the whole text. -/
def scanFault? : Option (List Char × List Char) → Option String
  | none => some "unbalanced parentheses"
  | some (_, []) => none
  | some (_, _ :: _) => some "more than one top-level expression"

theorem scanFault?_eq_none_iff {x : Option (List Char × List Char)} :
    scanFault? x = none ↔ ∃ taken, x = some (taken, []) := by
  rcases x with _ | ⟨taken, _ | ⟨d, rest⟩⟩ <;> simp [scanFault?]

theorem scanFault?_extendTaken (c : Char) (x : Option (List Char × List Char)) :
    scanFault? (x.map (extendTaken c)) = scanFault? x := by
  rcases x with _ | ⟨taken, _ | ⟨d, rest⟩⟩ <;> rfl

/-- With the same number of parentheses open, the check goes on just as long as the scan does. -/
theorem parenthesisFault?_eq_scanFault? (depth : Nat) (cs : List Char) :
    parenthesisFault? (depth + 1) cs = scanFault? (balancedStart? (depth + 1) cs) := by
  induction cs generalizing depth with
  | nil => rfl
  | cons c r ih =>
    unfold parenthesisFault? balancedStart?
    dsimp only
    by_cases opening : c = '('
    · rw [if_pos opening, if_pos opening, scanFault?_extendTaken]
      exact ih (depth + 1)
    rw [if_neg opening, if_neg opening]
    by_cases closing : c = ')'
    · rw [if_pos closing, if_pos closing]
      cases depth with
      | zero =>
        -- both are behind the first group here; only the check asks whether the text has ended
        cases r <;> rfl
      | succ depth =>
        dsimp only
        rw [scanFault?_extendTaken]
        exact ih depth
    · rw [if_neg closing, if_neg closing, scanFault?_extendTaken]
      exact ih depth

theorem parenthesisFault?_eq_none_iff {depth : Nat} {cs : List Char} :
    parenthesisFault? (depth + 1) cs = none ↔ Shuts depth cs := by
  rw [parenthesisFault?_eq_scanFault?, scanFault?_eq_none_iff]
  simp only [balancedStart?_eq_some_iff, List.append_nil]
  constructor
  · rintro ⟨_, shuts, rfl⟩
    exact shuts
  · exact fun shuts => ⟨cs, shuts, rfl⟩

/-- The text of a filter is a group that has something in it and no double quote. -/
theorem isBody_iff {body : List Char} :
    IsBody body ↔ IsGroup body ∧ 3 ≤ body.length ∧ '"' ∉ body := by
  have pairs : ∀ r, parenthesisFault? 0 ('(' :: r) = none ↔ Shuts 0 r := fun r => by
    rw [parenthesisFault?, if_pos rfl, parenthesisFault?_eq_none_iff]
  rw [isGroup_iff]
  constructor
  · rintro ⟨⟨head, _, long⟩, free, sound⟩
    cases body with
    | nil => cases head
    | cons c r =>
      obtain rfl : c = '(' := by simpa using head
      exact ⟨⟨r, rfl, (pairs r).mp sound⟩, long, free⟩
  · rintro ⟨⟨r, rfl, shuts⟩, long, free⟩
    have last := (isGroup_iff.mpr ⟨r, rfl, shuts⟩).getLast?
    exact ⟨⟨rfl, last, long⟩, free, (pairs r).mpr shuts⟩

end Filter

/-- What a valid attribute filter is written as is a term of the two texts. -/
theorem AttributeFilter.Spelt.spellsTerm {f : AttributeFilter} {name body : List Char}
    (h : f.Spelt name body) :
    SpellsTerm (f.attributeType.render, f.filter.render) f.render.toList := by
  obtain ⟨full, own⟩ := h.name_chars
  obtain ⟨nameText, bodyText⟩ := h.texts
  unfold SpellsTerm
  rw [h.toList_render]
  simp only [nameText, bodyText, String.toList_ofList]
  exact ⟨trivial, full, own, (Filter.isBody_iff.mp h.bodied).1⟩

/-! ### Operations -/

namespace FilterOperation

/-- The settings of the filters of an operation. -/
def filterSettings : Settings :=
  (new .add).filters.settings

/-- The operation has these filters, at least one, and all of them valid. -/
structure Holds (o : FilterOperation) (fs : List AttributeFilter) : Prop where
  filters : o.filters = ⟨filterSettings, fs.map .leaf⟩
  full : fs ≠ []
  spelt : ∀ f ∈ fs, ∃ name body, f.Spelt name body

def isValid (f : AttributeFilter) : Bool :=
  decide (f.validate = .ok ())

theorem foldl_push_filters (o : FilterOperation) (gs : List AttributeFilter) :
    (gs.foldl push o).operation = o.operation ∧
      (gs.foldl push o).filters = o.filters.pushAll (gs.map .leaf) := by
  induction gs generalizing o with
  | nil => exact ⟨rfl, rfl⟩
  | cons g gs ih => exact ih (o.push g)

theorem ofFilters_filters (op : AttributeOperation) (gs : List AttributeFilter) :
    (ofFilters op gs).operation = op ∧
      (ofFilters op gs).filters = ⟨filterSettings, (gs.filter isValid).map .leaf⟩ := by
  obtain ⟨same, filters⟩ := foldl_push_filters (new op) gs
  have chooses : filterSettings.Chooses (isValid : AttributeFilter → Bool) fun _ _ => false :=
    Settings.chooses_of_unrestricted rfl rfl fun _ => rfl
  have chosen := Stack.pushAll_leaves chooses gs
  rw [firsts_of_never] at chosen
  exact ⟨same, filters.trans chosen⟩

theorem validate_of_mem_ofFilters {op : AttributeOperation} {fs : List AttributeFilter}
    {x : Node AttributeFilter} (hx : x ∈ (ofFilters op fs).filters.elements) :
    x.validate = .ok () := by
  rw [(ofFilters_filters op fs).2] at hx
  obtain ⟨f, hf, rfl⟩ := List.mem_map.mp hx
  exact of_decide_eq_true (List.mem_filter.mp hf).2

/-- Only valid filters are kept, so a single one is enough. -/
theorem validate_ofFilters_iff (op : AttributeOperation) (fs : List AttributeFilter) :
    (ofFilters op fs).validate = .ok () ↔ (ofFilters op fs).filters.isEmpty = false := by
  obtain ⟨_, filters⟩ := ofFilters_filters op fs
  unfold FilterOperation.validate
  rw [Stack.validate_eq_ok_iff, and_iff_left fun x hx => validate_of_mem_ofFilters hx, filters]
  show 1 ≤ ((fs.filter isValid).map Node.leaf).length ↔ List.isEmpty _ = false
  rw [List.isEmpty_eq_false_iff, ← List.length_pos_iff]
  rfl

/-- The check looks for a filter that is not valid, and never finds one. -/
theorem find?_invalid_ofFilters (op : AttributeOperation) (fs : List AttributeFilter) :
    (ofFilters op fs).filters.elements.find? (!·.validate.isOk) = none := by
  apply List.find?_eq_none.mpr
  intro x hx
  rw [validate_of_mem_ofFilters hx]
  decide

theorem checked_ofFilters_eq_ok_iff {op : AttributeOperation} {fs : List AttributeFilter}
    {o : FilterOperation} :
    (ofFilters op fs).checked = .ok o ↔
      o = ofFilters op fs ∧ (ofFilters op fs).validate = .ok () := by
  unfold checked
  rw [find?_invalid_ofFilters]
  dsimp only
  rw [bind_eq_ok]
  simp only [mapError_eq_ok, pure_eq_ok]
  constructor
  · rintro ⟨_, valid, rfl⟩
    exact ⟨rfl, valid⟩
  · rintro ⟨rfl, valid⟩
    exact ⟨(), valid, rfl⟩

/-- An operation that is made of terms keeps those that are valid. -/
theorem holds_of_terms {op : AttributeOperation} {terms : List (String × String)}
    (valid : (ofFilters op (terms.map (fun t => .ofTexts t.1 t.2))).validate = .ok ()) :
    ∃ fs, (ofFilters op (terms.map (fun t => .ofTexts t.1 t.2))).Holds fs := by
  obtain ⟨_, filters⟩ := ofFilters_filters op (terms.map (fun t => .ofTexts t.1 t.2))
  refine ⟨_, filters, ?_, ?_⟩
  · intro none'
    have enough := ((Stack.validate_eq_ok_iff _).mp valid).1
    rw [filters, none'] at enough
    exact absurd enough (by decide)
  · intro f hf
    obtain ⟨mem, valid'⟩ := List.mem_filter.mp hf
    obtain ⟨term, _, rfl⟩ := List.mem_map.mp mem
    exact ⟨_, _, AttributeFilter.spelt_of_ofTexts (of_decide_eq_true valid')⟩

theorem holds_of_ofTree {t : OperationTree} {o : FilterOperation} (h : ofTree t = .ok o) :
    ∃ fs, o.Holds fs := by
  obtain ⟨rfl, valid⟩ := checked_ofFilters_eq_ok_iff.mp h
  exact holds_of_terms valid

theorem Holds.validate {o : FilterOperation} {fs : List AttributeFilter} (h : o.Holds fs) :
    o.validate = .ok () := by
  unfold FilterOperation.validate
  refine (Stack.validate_eq_ok_iff _).mpr ?_
  rw [h.filters]
  refine ⟨?_, ?_⟩
  · have := List.length_pos_iff.mpr h.full
    show 1 ≤ (fs.map Node.leaf).length
    rw [List.length_map]
    exact this
  · intro x hx
    obtain ⟨f, hf, rfl⟩ := List.mem_map.mp hx
    obtain ⟨name, body, spelt⟩ := h.spelt f hf
    exact spelt.validate

theorem Holds.toList_render {o : FilterOperation} {fs : List AttributeFilter} (h : o.Holds fs) :
    o.render.toList = o.operation.name.toList ++
      '=' :: [' ', '&', '&', ' '].intercalate (fs.map (fun f => f.render.toList)) := by
  have equal : "=".toList = ['='] := by decide
  have bars : " && ".toList = [' ', '&', '&', ' '] := by decide
  have filters : o.filters.render = " && ".intercalate (fs.map AttributeFilter.render) := by
    rw [h.filters, render_whole rfl rfl rfl]
    rfl
  unfold render
  rw [h.validate]
  dsimp only
  rw [filters]
  simp only [String.toList_append, equal, String.toList_intercalate, bars, List.map_map,
    List.append_assoc, List.cons_append, List.nil_append]
  rfl

def written (o : FilterOperation) (fs : List AttributeFilter) : OperationTree where
  operation := o.operation
  terms := fs.map (fun f => (f.attributeType.render, f.filter.render))

theorem Holds.writes {o : FilterOperation} {fs : List AttributeFilter} (h : o.Holds fs) :
    SpellsOperation (o.written fs) o.render.toList := by
  refine ⟨_, _, h.toList_render, namesOperation_name o.operation, ?_⟩
  refine listed_intercalate ⟨[' '], [' '], by decide, isGap_blank, isGap_blank⟩ h.full ?_
  intro f hf
  obtain ⟨name, body, spelt⟩ := h.spelt f hf
  exact spelt.spellsTerm

theorem Holds.ofTree_written {o : FilterOperation} {fs : List AttributeFilter} (h : o.Holds fs) :
    ofTree (o.written fs) = .ok o := by
  have terms : (o.written fs).terms.map (fun term => .ofTexts term.1 term.2) = fs := by
    show (fs.map (fun f => (f.attributeType.render, f.filter.render))).map _ = fs
    rw [List.map_map, List.map_eq_iff]
    intro i
    cases found : fs[i]? with
    | none => rfl
    | some f =>
      obtain ⟨name, body, spelt⟩ := h.spelt f (List.mem_of_getElem? found)
      obtain ⟨nameText, bodyText⟩ := spelt.texts
      simp only [Option.map_some, Function.comp_apply, nameText, bodyText]
      rw [spelt.ofTexts_eq]
  have kept : fs.filter isValid = fs := by
    refine List.filter_eq_self.mpr fun f hf => ?_
    obtain ⟨name, body, spelt⟩ := h.spelt f hf
    exact decide_eq_true spelt.validate
  obtain ⟨operation, filters⟩ := ofFilters_filters o.operation fs
  have same : ofFilters o.operation fs = o := by
    rw [kept, ← h.filters] at filters
    cases made : ofFilters o.operation fs with
    | mk op filters' =>
      rw [made] at operation filters
      cases o
      simp only at operation filters
      rw [operation, filters]
  have read : ofFilters o.operation
      ((o.written fs).terms.map fun term => AttributeFilter.ofTexts term.1 term.2) = o := by
    rw [terms, same]
  apply checked_ofFilters_eq_ok_iff.mpr
  exact ⟨read.symm, read.symm ▸ h.validate⟩

theorem Holds.leaves_filters {o : FilterOperation} {fs : List AttributeFilter} (h : o.Holds fs) :
    o.filters.leaves = fs := by
  rw [h.filters, Stack.leaves_of_leaves]

theorem Holds.unquoted {o : FilterOperation} {fs : List AttributeFilter} (h : o.Holds fs) :
    '"' ∉ o.render.toList := by
  rw [h.toList_render]
  simp only [List.mem_append, List.mem_cons, not_or]
  refine ⟨?_, by decide, ?_⟩
  · cases o.operation <;> decide
  · have joined : [' ', '&', '&', ' '].intercalate (fs.map (fun f => f.render.toList)) =
        (" && ".intercalate (fs.map AttributeFilter.render)).toList := by
      rw [String.toList_intercalate, List.map_map]
      rfl
    rw [joined]
    refine Text.not_mem_intercalate (by decide) ?_
    intro p hp
    obtain ⟨f, hf, rfl⟩ := List.mem_map.mp hp
    obtain ⟨name, body, spelt⟩ := h.spelt f hf
    rw [spelt.toList_render]
    simp only [List.mem_append, List.mem_cons, not_or]
    refine ⟨?_, by decide, spelt.bodied.2.1⟩
    intro mem
    have char := spelt.name_chars.2 '"' mem
    revert char
    decide

theorem Holds.getLast? {o : FilterOperation} {fs : List AttributeFilter} (h : o.Holds fs) :
    o.render.toList.getLast? = some ')' := by
  obtain ⟨w, ts, same, _, listed⟩ := h.writes
  rw [same, List.getLast?_append, List.getLast?_cons, listed.getLast? SpellsTerm.getLast?]
  rfl

end FilterOperation

/-! ### Lists of operations -/

namespace Stack

/-- The settings of a list of operations with the given delimiter. -/
def operationSettings (d : Delimiter) : Settings :=
  (filterOperations.setDelimiter d).settings

/-- The list has these operations; only a list of several has semicolons. -/
structure Operates (list : Stack FilterOperation) (d : Delimiter) (os : List FilterOperation) :
    Prop where
  same : list = ⟨operationSettings d, os.map .leaf⟩
  full : os ≠ []
  holds : ∀ o ∈ os, ∃ fs, o.Holds fs
  known : d = .comma ∨ d = .semicolon ∧ 1 < os.length

theorem operates_lawful {d : Delimiter} {os : List FilterOperation}
    (holds : ∀ o ∈ os, ∃ fs, o.Holds fs) :
    (⟨operationSettings d, os.map .leaf⟩ : Stack FilterOperation).Lawful := by
  refine (Settings.admits_iff_of_unrestricted rfl rfl).mpr ?_
  rw [List.forall_mem_map]
  intro o ho
  obtain ⟨fs, h⟩ := holds o ho
  exact ⟨rfl, h.validate, rfl⟩

theorem readOperations_eq_ok_iff {text : String} {list : Stack FilterOperation} :
    readOperations text = .ok list ↔
      ∃ trees sign os,
        wholeFilterOperations.readAll (Text.trimEnd text.toList) = .ok (trees, sign) ∧
        List.Forall₂ (fun t o => FilterOperation.ofTree t = .ok o) trees os ∧
        list = ⟨operationSettings (if sign = some ';' then .semicolon else .comma), os.map .leaf⟩ ∧
        list.Lawful := by
  have filled : ∀ (trees : List OperationTree) (d : Delimiter),
      trees.foldlM pushOperationRead (filterOperations.setDelimiter d) = .ok list ↔
      ∃ os, List.Forall₂ (fun t o => FilterOperation.ofTree t = .ok o) trees os ∧
        list = ⟨operationSettings d, os.map .leaf⟩ ∧ list.Lawful := by
    intro trees d
    unfold pushOperationRead pushRead
    exact fill_eq_ok_iff
  unfold readOperations
  rw [bind_eq_ok]
  constructor
  · rintro ⟨⟨trees, sign⟩, read, pushed⟩
    obtain ⟨os, made, same, lawful⟩ := (filled trees _).mp pushed
    exact ⟨trees, sign, os, readText_eq_ok.mp read, made, same, lawful⟩
  · rintro ⟨trees, sign, os, read, made, same, lawful⟩
    exact ⟨(trees, sign), readText_eq_ok.mpr read, (filled trees _).mpr ⟨os, made, same, lawful⟩⟩

theorem operates_of_readOperations {text : String} {list : Stack FilterOperation}
    (h : readOperations text = .ok list) : ∃ d os, list.Operates d os := by
  obtain ⟨trees, sign, os, read, made, same, _⟩ := readOperations_eq_ok_iff.mp h
  obtain ⟨full, several⟩ := of_wholeFilterOperations read
  have size := made.length_eq
  refine ⟨_, os, same, ?_, ?_, ?_⟩
  · rintro rfl
    exact full (List.length_eq_zero_iff.mp size)
  · intro o ho
    obtain ⟨t, _, tree⟩ := exists_of_forall₂ made ho
    exact FilterOperation.holds_of_ofTree tree
  · by_cases semicolon : sign = some ';'
    · right
      rw [if_pos semicolon]
      refine ⟨rfl, size ▸ several ?_⟩
      rw [semicolon]
      simp
    · left
      rw [if_neg semicolon]

variable {list : Stack FilterOperation} {d : Delimiter} {os : List FilterOperation}

theorem Operates.sign (h : list.Operates d os) :
    ∃ c, d.sign.toList = [c] ∧ (c = ',' ∨ c = ';') ∧ (c = ';' ↔ d = .semicolon) := by
  rcases h.known with rfl | ⟨rfl, _⟩
  · exact ⟨',', by decide, .inl rfl, by decide⟩
  · exact ⟨';', by decide, .inr rfl, by decide⟩

theorem Operates.render_eq (h : list.Operates d os) :
    list.render = d.sign.intercalate (os.map FilterOperation.render) := by
  have bare : ∀ padded, d.written padded = d.sign := by
    rcases h.known with rfl | ⟨rfl, _⟩ <;> intro padded <;> rfl
  rw [h.same, render_whole rfl rfl rfl]
  show (d.written _).intercalate _ = _
  rw [bare]
  rfl

theorem Operates.unquoted (h : list.Operates d os) : '"' ∉ list.render.toList := by
  rw [h.render_eq]
  refine Text.not_mem_intercalate ?_ ?_
  · rcases h.known with rfl | ⟨rfl, _⟩ <;> decide
  · intro p hp
    obtain ⟨o, ho, rfl⟩ := List.mem_map.mp hp
    obtain ⟨fs, holds⟩ := h.holds o ho
    exact holds.unquoted

theorem Operates.toList_render (h : list.Operates d os) :
    list.render.toList = d.sign.toList.intercalate (os.map (fun o => o.render.toList)) := by
  rw [h.render_eq, String.toList_intercalate, List.map_map]
  rfl

theorem Operates.trimEnd_render (h : list.Operates d os) :
    Text.trimEnd list.render.toList = list.render.toList := by
  have last : list.render.toList.getLast? = some ')' := by
    rw [h.toList_render]
    refine Text.getLast?_intercalate (by simpa using h.full) ?_
    intro p hp
    obtain ⟨o, ho, rfl⟩ := List.mem_map.mp hp
    obtain ⟨fs, holds⟩ := h.holds o ho
    exact holds.getLast?
  exact Text.trimEnd_of_getLast? last (by decide)

/-- The sign that is read back chooses the settings that the list has. -/
theorem Operates.same_of_sign (h : list.Operates d os) {c : Char}
    (semicolon : c = ';' ↔ d = .semicolon) :
    list = ⟨operationSettings (if (if 1 < os.length then some c else none) = some ';'
      then .semicolon else .comma), os.map .leaf⟩ := by
  refine h.same.trans ?_
  congr 2
  rcases h.known with rfl | ⟨rfl, several⟩
  · have other : c ≠ ';' := fun same => by simpa using semicolon.mp same
    by_cases several : 1 < os.length
    · rw [if_pos several, if_neg (by simpa using other)]
    · rw [if_neg several, if_neg (by simp)]
  · rw [if_pos several, if_pos (by rw [semicolon.mpr rfl])]

theorem Operates.read_render (h : list.Operates d os) : readOperations list.render = .ok list := by
  obtain ⟨c, single, comma, semicolon⟩ := h.sign
  have holds : ∀ o ∈ os, o.Holds o.filters.leaves := fun o ho => by
    obtain ⟨fs, holds⟩ := h.holds o ho
    rwa [holds.leaves_filters]
  have listed : Listed (· = [c]) SpellsOperation (os.map (fun o => o.written o.filters.leaves))
      list.render.toList := by
    rw [h.toList_render, single]
    exact listed_intercalate (S := (· = [c])) rfl h.full fun o ho => (holds o ho).writes
  have read := wholeFilterOperations_readAll_of_listed comma listed
  rw [← h.trimEnd_render, List.length_map] at read
  refine readOperations_eq_ok_iff.mpr ⟨_, _, os, read, ?_, h.same_of_sign semicolon, ?_⟩
  · rw [List.forall₂_map_left_iff, List.forall₂_same]
    intro o ho
    exact (holds o ho).ofTree_written
  · rw [h.same]
    exact operates_lawful h.holds

end Stack

/-! ### Canonical operations -/

namespace Expression

variable {k : Keyword} (kind : k.valueKind = .filterOperations)

/-- A list with one operation is kept as a single value. -/
theorem ofList_operates {list : Stack FilterOperation} {d : Delimiter} {os : List FilterOperation}
    (h : list.Operates d os) :
    (∃ o, os = [o] ∧ Expression.ofList list .whole = .value list.render) ∨
      Expression.ofList list .whole = .filterOperations list := by
  match os, h with
  | [o], h =>
    refine .inl ⟨o, rfl, ?_⟩
    rw [h.render_eq, List.map_singleton, String.intercalate_singleton, h.same]
    rfl
  | o :: p :: os, h =>
    right
    rw [h.same]
    rfl

include kind

theorem read_operations (text : String) (q : Quoting) :
    Expression.read k [text] q = (do return .ofList (← Stack.readOperations text) .whole) := by
  unfold Expression.read
  rw [kind]
  rfl

theorem exists_operations {vs : List String} {q : Quoting} {e : Expression}
    (h : Expression.read k vs q = .ok e) :
    ∃ text list, Stack.readOperations text = .ok list ∧ e = .ofList list .whole := by
  unfold Expression.read at h
  rw [kind] at h
  obtain ⟨text, _, h₁⟩ := bind_eq_ok.mp h
  obtain ⟨list, read, made⟩ := bind_eq_ok.mp h₁
  exact ⟨text, list, read, (pure_eq_ok.mp made).symm⟩

theorem read_render_operations {list : Stack FilterOperation} {d : Delimiter}
    {os : List FilterOperation} (h : list.Operates d os) :
    Expression.read k [list.render] .whole = .ok (.ofList list .whole) := by
  rw [read_operations kind, h.read_render]
  rfl

theorem canonical_operations {vs : List String} {q : Quoting} {e : Expression}
    (h : Expression.read k vs q = .ok e) : e.Canonical k := by
  obtain ⟨_, list, read, rfl⟩ := exists_operations kind h
  obtain ⟨d, os, operates⟩ := Stack.operates_of_readOperations read
  have again := read_render_operations kind operates
  have whole : list.settings.quoting = .whole := by
    rw [operates.same]
    rfl
  rcases ofList_operates operates with ⟨o, rfl, value⟩ | kept
  · rw [value] at again ⊢
    exact canonical_value operates.unquoted again
  · rw [kept] at again ⊢
    exact canonical_whole whole operates.unquoted again

end Expression

end DirectoryAccess
