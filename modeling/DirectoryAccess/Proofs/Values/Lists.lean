import DirectoryAccess.Proofs.Values.Canonical

/-!
# Names, identifiers and attribute types

The three kinds of values that may be given as several quoted texts. Each value that is read is
plain, so the lists of them are canonical.
-/
namespace DirectoryAccess

open Text (Pads)

theorem hasDouble_of_not_mem {sep : Char} {cs : List Char} (h : sep ∉ cs) :
    Text.hasDouble sep cs = false := by
  induction cs with
  | nil => rfl
  | cons c r ih =>
    have tail := ih fun mem => h (by simp [mem])
    have differ : c ≠ sep := fun same => h (by simp [same])
    cases r with
    | nil => rfl
    | cons d r => simp [Text.hasDouble, differ, tail]

theorem hasDouble_cons {sep c : Char} {cs : List Char} (differ : c ≠ sep) :
    Text.hasDouble sep (c :: cs) = Text.hasDouble sep cs := by
  cases cs with
  | nil => rfl
  | cons d r => simp [Text.hasDouble, differ]

/-! ### Distinguished names -/

def namePart (k : Keyword) (part : String) : Except ReadError DistinguishedName := do
  let word := Text.trimmed part
  if (Text.after? DistinguishedName.scheme.toList word.toList).isNone then
    throw { cause := .noScheme word DistinguishedName.scheme }
  (DistinguishedName.ofText? k word).mapError .ofRuleError

theorem pushNameRead_eq (k : Keyword) :
    Stack.pushNameRead k = fun s part => (do
      let d ← namePart k part
      s.pushRead d) := by
  funext s part
  unfold Stack.pushNameRead namePart
  dsimp only
  split <;> rfl

theorem bareName?_eq_ok_iff {k : Keyword} {text name : String} :
    DistinguishedName.bareName? k text = .ok name ↔
      name = String.ofList
        (Text.dropStart DistinguishedName.scheme.toList (Text.trim text.toList)) ∧
      k.valueKind = .distinguishedNames ∧ name.isEmpty = false ∧ '"' ∉ name.toList ∧
      Text.hasDouble '|' name.toList = false ∧
      ('=' ∈ name.toList ∨
        DistinguishedName.aliases.any (fun a => Text.sameWord a name) = true) := by
  unfold DistinguishedName.bareName?
  dsimp only
  generalize String.ofList _ = bare
  split
  · next other => simp [other]
  next kind =>
  split
  · next empty =>
    simp only [reduceCtorEq, false_iff, not_and]
    rintro rfl _ full
    rw [empty] at full
    cases full
  next full =>
  split
  · next reserved =>
    simp only [reduceCtorEq, false_iff, not_and]
    rintro rfl _ _ unquoted single
    rw [single, Bool.or_false, List.contains_iff_mem] at reserved
    exact absurd reserved unquoted
  next free =>
  split
  · next unknown =>
    simp only [reduceCtorEq, false_iff, not_and]
    rintro rfl _ _ _ _ known
    rcases known with equals | known
    · simp [equals] at unknown
    · simp [known] at unknown
  next known =>
  simp only [Except.ok.injEq]
  constructor
  · rintro rfl
    refine ⟨rfl, by simpa using kind, by simpa using full, ?_, ?_, ?_⟩
    · intro mem
      simp [mem] at free
    · by_contra double
      simp [double] at free
    · by_cases equals : '=' ∈ bare.toList
      · exact .inl equals
      · right
        by_contra other
        simp only [Bool.not_eq_true] at other
        simp [equals, other] at known
  · rintro ⟨rfl, _⟩
    rfl

theorem namePart_eq_ok_iff {k : Keyword} {part : String} {d : DistinguishedName} :
    namePart k part = .ok d ↔
      ∃ name : String, Text.trim part.toList = DistinguishedName.scheme.toList ++ name.toList ∧
        DistinguishedName.bareName? k (Text.trimmed part) = .ok name ∧ d = ⟨k, some name⟩ := by
  unfold namePart DistinguishedName.ofText?
  dsimp only
  rw [unless_throw_eq_ok, mapError_eq_ok, bind_eq_ok]
  simp only [pure_eq_ok, Text.toList_trimmed]
  constructor
  · rintro ⟨present, name, bare, rfl⟩
    obtain ⟨same, _⟩ := bareName?_eq_ok_iff.mp bare
    rw [Text.toList_trimmed, Text.trim_trim] at same
    refine ⟨name, ?_, bare, rfl⟩
    cases start : Text.after? DistinguishedName.scheme.toList (Text.trim part.toList) with
    | none =>
      rw [start] at present
      exact absurd rfl present
    | some rest =>
      have rest_eq : name.toList = rest := by
        rw [same, String.toList_ofList, Text.dropStart, start]
        rfl
      rw [rest_eq]
      exact Text.after?_eq_some_iff.mp start
  · rintro ⟨name, split, bare, rfl⟩
    refine ⟨?_, name, bare, rfl⟩
    rw [split, Text.after?_append]
    simp

theorem DistinguishedName.toList_render (k : Keyword) (name : String) :
    (Element.render (⟨k, some name⟩ : DistinguishedName)).toList =
      DistinguishedName.scheme.toList ++ name.toList :=
  String.toList_append

theorem namePart_eq_ok {k : Keyword} {part : String} {d : DistinguishedName}
    (h : namePart k part = .ok d) :
    (Element.render d).toList = Text.trim part.toList ∧ '"' ∉ (Element.render d).toList ∧
      Text.hasDouble '|' (Element.render d).toList = false := by
  obtain ⟨name, split, bare, rfl⟩ := namePart_eq_ok_iff.mp h
  obtain ⟨_, _, _, unquoted, single, _⟩ := bareName?_eq_ok_iff.mp bare
  have letters : DistinguishedName.scheme.toList = ['l', 'd', 'a', 'p', ':', '/', '/', '/'] := by
    decide
  refine ⟨by rw [DistinguishedName.toList_render, split], ?_, ?_⟩
  · rw [DistinguishedName.toList_render, letters]
    simpa using unquoted
  · rw [DistinguishedName.toList_render, letters]
    simp only [List.cons_append, List.nil_append]
    iterate 8 rw [hasDouble_cons (by decide)]
    exact single

theorem DistinguishedName.render_ne_nil (d : DistinguishedName) :
    (Element.render d).toList ≠ [] := by
  cases d with
  | mk k name => cases name <;> simp [Element.render, DistinguishedName.render,
      DistinguishedName.voidMarker, DistinguishedName.scheme]

/-- A name is plain: what is read depends only on the trimmed part, and that is its written form. -/
theorem plain_name {k : Keyword} {part : String} {d : DistinguishedName}
    (h : namePart k part = .ok d) : Plain (namePart k) d := by
  obtain ⟨written, unquoted, single⟩ := namePart_eq_ok h
  have trimmed : Text.IsTrimmed (Element.render d).toList := written ▸ Text.isTrimmed_trim _
  refine ⟨d.render_ne_nil, trimmed, single, unquoted, fun text pads => ?_⟩
  have same : Text.trimmed text = Text.trimmed part := by
    unfold Text.trimmed
    rw [pads.trim_eq d.render_ne_nil trimmed, written]
  unfold namePart at h ⊢
  rw [same]
  exact h

/-! ### Object identifiers -/

def identifierPart (k : Keyword) (part : String) : Except ReadError ObjectIdentifier :=
  (ObjectIdentifier.ofText? k part).mapError .ofRuleError

theorem pushIdentifierRead_eq (k : Keyword) :
    Stack.pushIdentifierRead k = fun s part => (do
      let o ← identifierPart k part
      s.pushRead o) := by
  funext s part
  rfl

theorem dotted?_eq_ok_iff {k : Keyword} {text dotted : String} :
    ObjectIdentifier.dotted? k text = .ok dotted ↔
      dotted = String.ofList (Text.trim text.toList) ∧ k.valueKind = .objectIdentifiers ∧
      2 ≤ (Text.piecesAt '.' (Text.trim text.toList)).length ∧
      (∀ arc ∈ Text.piecesAt '.' (Text.trim text.toList), ObjectIdentifier.arcFault? arc = none) ∧
      ([['0'], ['1'], ['2']].any
        (fun root => (Text.piecesAt '.' (Text.trim text.toList)).head? == some root)) = true := by
  unfold ObjectIdentifier.dotted?
  dsimp only
  generalize Text.trim text.toList = body
  split
  · next other => simp [other]
  next kind =>
  have kind' := not_not.mp kind
  split
  · next few =>
    simp only [reduceCtorEq, false_iff, not_and]
    intro _ _ enough
    omega
  next enough =>
  split
  · next reason found =>
    simp only [reduceCtorEq, false_iff, not_and]
    intro _ _ _ clean
    obtain ⟨arc, mem, fault⟩ := List.exists_of_findSome?_eq_some found
    rw [clean arc mem] at fault
    cases fault
  next clean =>
  have clean' := List.findSome?_eq_none_iff.mp clean
  split
  · next root =>
    simp only [Except.ok.injEq]
    constructor
    · rintro rfl
      exact ⟨rfl, kind', by omega, clean', root⟩
    · rintro ⟨rfl, _⟩
      rfl
  · next other =>
    simp only [reduceCtorEq, false_iff, not_and]
    intro _ _ _ _ root
    exact other root

theorem isDigit_of_arcFault? {arc : List Char} (h : ObjectIdentifier.arcFault? arc = none) :
    ∀ c ∈ arc, c.isDigit = true := by
  unfold ObjectIdentifier.arcFault? at h
  split at h
  · cases h
  next digits =>
  simp only [Bool.or_eq_true, not_or, Bool.not_eq_true, Bool.not_eq_false'] at digits
  exact List.all_eq_true.mp digits.2

theorem not_mem_of_piecesAt {sep c : Char} {cs : List Char} (apart : c ≠ sep)
    (h : ∀ p ∈ Text.piecesAt sep cs, c ∉ p) : c ∉ cs := by
  rw [← Text.intercalate_piecesAt sep cs]
  intro mem
  generalize Text.piecesAt sep cs = ps at h mem
  induction ps with
  | nil => simp at mem
  | cons p ps ih =>
    cases ps with
    | nil => exact h p (by simp) (by simpa using mem)
    | cons q qs =>
      rw [List.intercalate_cons_cons] at mem
      rcases List.mem_append.mp mem with mem | mem
      · rcases List.mem_append.mp mem with mem | mem
        · exact h p (by simp) mem
        · exact apart (List.mem_singleton.mp mem)
      · exact ih (fun r hr => h r (by simp [hr])) mem

theorem identifierPart_eq_ok_iff {k : Keyword} {part : String} {o : ObjectIdentifier} :
    identifierPart k part = .ok o ↔
      ∃ dotted, ObjectIdentifier.dotted? k part = .ok dotted ∧ o = ⟨k, some dotted⟩ := by
  unfold identifierPart ObjectIdentifier.ofText?
  rw [mapError_eq_ok, bind_eq_ok]
  simp only [pure_eq_ok, eq_comm (b := o)]

/-- An identifier is written as the trimmed part, which has only digits and dots. -/
theorem identifierPart_eq_ok {k : Keyword} {part : String} {o : ObjectIdentifier}
    (h : identifierPart k part = .ok o) :
    (Element.render o).toList = Text.trim part.toList ∧ Text.trim part.toList ≠ [] ∧
      ∀ c : Char, c ≠ '.' → c.isDigit = false → c ∉ Text.trim part.toList := by
  obtain ⟨dotted, read, rfl⟩ := identifierPart_eq_ok_iff.mp h
  obtain ⟨rfl, _, enough, arcs, _⟩ := dotted?_eq_ok_iff.mp read
  refine ⟨String.toList_ofList, ?_, fun c apart noDigit => ?_⟩
  · intro empty
    rw [empty] at enough
    simp [Text.piecesAt] at enough
  · refine not_mem_of_piecesAt apart fun arc harc mem => ?_
    rw [isDigit_of_arcFault? (arcs arc harc) c mem] at noDigit
    cases noDigit

theorem identifierPart_congr {k : Keyword} {part text : String}
    (same : Text.trim text.toList = Text.trim part.toList) {o : ObjectIdentifier}
    (h : identifierPart k part = .ok o) : identifierPart k text = .ok o := by
  obtain ⟨dotted, read, rfl⟩ := identifierPart_eq_ok_iff.mp h
  refine identifierPart_eq_ok_iff.mpr ⟨dotted, ?_, rfl⟩
  rw [dotted?_eq_ok_iff] at read ⊢
  rwa [same]

theorem plain_identifier {k : Keyword} {part : String} {o : ObjectIdentifier}
    (h : identifierPart k part = .ok o) : Plain (identifierPart k) o := by
  obtain ⟨written, full, free⟩ := identifierPart_eq_ok h
  refine ⟨written ▸ full, written ▸ Text.isTrimmed_trim _, ?_, ?_, fun text pads => ?_⟩
  · rw [written]
    exact hasDouble_of_not_mem (free '|' (by decide) (by decide))
  · rw [written]
    exact free '"' (by decide) (by decide)
  · rw [written] at pads
    exact identifierPart_congr (pads.trim_eq full (Text.isTrimmed_trim _)) h

/-! ### Attribute types -/

def attributePart (part : String) : Except ReadError AttributeType := do
  let a := AttributeType.ofText part
  if a.isVoid then throw { cause := .misspelt AttributeType.noun (Text.trimmed part) }
  return a

theorem pushAttributeRead_eq :
    Stack.pushAttributeRead = fun s part => (do
      let a ← attributePart part
      s.pushRead a) := by
  funext s part
  unfold Stack.pushAttributeRead attributePart
  dsimp only
  split <;> rfl

theorem not_mem_of_isName {cs : List Char} (h : AttributeType.isName cs = true) {c : Char}
    (star : c ≠ '*') (foreign : AttributeType.isNameChar c = false) : c ∉ cs := by
  intro mem
  unfold AttributeType.isName AttributeType.isNameFrom at h
  simp only [Bool.or_eq_true, Bool.and_eq_true, beq_iff_eq] at h
  rcases h with rfl | ⟨_, chars⟩
  · exact star (List.mem_singleton.mp mem)
  · rw [List.all_eq_true.mp chars c mem] at foreign
    cases foreign

theorem attributePart_eq_ok_iff {part : String} {a : AttributeType} :
    attributePart part = .ok a ↔ AttributeType.isName (Text.trim part.toList) = true ∧
      a = ⟨some (String.ofList (Text.trim part.toList))⟩ := by
  unfold attributePart AttributeType.ofText
  dsimp only
  rw [unless_throw_eq_ok, pure_eq_ok]
  by_cases named : AttributeType.isName (Text.trim part.toList) = true
  · rw [if_pos named]
    simp [AttributeType.isVoid, named, eq_comm]
  · rw [if_neg named]
    simp [AttributeType.isVoid, named]

theorem isName_ne_nil {cs : List Char} (h : AttributeType.isName cs = true) : cs ≠ [] := by
  rintro rfl
  revert h
  decide

theorem plain_attribute {part : String} {a : AttributeType} (h : attributePart part = .ok a) :
    Plain attributePart a := by
  obtain ⟨named, rfl⟩ := attributePart_eq_ok_iff.mp h
  have render_eq : (Element.render (⟨some (String.ofList (Text.trim part.toList))⟩ :
      AttributeType)).toList = Text.trim part.toList := String.toList_ofList
  refine ⟨?_, ?_, ?_, ?_, fun text pads => ?_⟩
  · rw [render_eq]
    exact isName_ne_nil named
  · rw [render_eq]
    exact Text.isTrimmed_trim _
  · rw [render_eq]
    exact hasDouble_of_not_mem (not_mem_of_isName named (by decide) (by decide))
  · rw [render_eq]
    exact not_mem_of_isName named (by decide) (by decide)
  · rw [render_eq] at pads
    have same : Text.trim text.toList = Text.trim part.toList :=
      pads.trim_eq (isName_ne_nil named) (Text.isTrimmed_trim _)
    rw [attributePart_eq_ok_iff, same]
    exact ⟨named, rfl⟩

/-! ### Reading part by part -/

section Lists

variable {k : Keyword}

theorem parted_names (kind : k.valueKind = .distinguishedNames) :
    Expression.Parted k (namePart k) (Stack.distinguishedNames k).settings := by
  refine ⟨⟨rfl, rfl, rfl⟩, rfl, fun vs q => ?_, plain_name⟩
  unfold Expression.read Stack.readNames
  rw [kind, pushNameRead_eq]
  rfl

theorem parted_identifiers (kind : k.valueKind = .objectIdentifiers) :
    Expression.Parted k (identifierPart k) (Stack.objectIdentifiers k).settings := by
  refine ⟨⟨rfl, rfl, rfl⟩, rfl, fun vs q => ?_, plain_identifier⟩
  unfold Expression.read Stack.readIdentifiers
  rw [kind, pushIdentifierRead_eq]
  rfl

theorem parted_attributes (kind : k.valueKind = .attributeTypes) :
    Expression.Parted k attributePart Stack.attributeTypes.settings := by
  refine ⟨⟨rfl, rfl, rfl⟩, rfl, fun vs q => ?_, plain_attribute⟩
  unfold Expression.read Stack.readAttributes
  rw [kind, pushAttributeRead_eq]
  rfl

end Lists

end DirectoryAccess
