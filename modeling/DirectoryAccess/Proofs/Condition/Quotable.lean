import DirectoryAccess.Proofs.Condition.LaidOut

/-!
# Valid values fit between quotes

Each type of values has a check of its own. What a value that passes it is written as is never empty
and holds no double quote, so it can stand between the quotes of a condition.
-/
namespace DirectoryAccess

/-- The text can stand between double quotes: there is something, and it has no quote that would
end it. -/
structure FitsQuotes (text : String) : Prop where
  full : text.toList ≠ []
  unquoted : '"' ∉ text.toList

theorem FitsQuotes.append_left {s t : String} (unquoted : '"' ∉ s.toList) (h : FitsQuotes t) :
    FitsQuotes (s ++ t) := by
  refine ⟨?_, ?_⟩
  · simp [h.full]
  · simpa using ⟨unquoted, h.unquoted⟩

theorem FitsQuotes.append_right {s t : String} (h : FitsQuotes s) (unquoted : '"' ∉ t.toList) :
    FitsQuotes (s ++ t) := by
  refine ⟨?_, ?_⟩
  · simp [h.full]
  · simpa using ⟨h.unquoted, unquoted⟩

theorem fitsQuotes_of_digits {text : String} (full : text.toList ≠ [])
    (digits : ∀ c ∈ text.toList, c.isDigit = true) : FitsQuotes text := by
  refine ⟨full, fun mem => ?_⟩
  have digit := digits '"' mem
  revert digit
  decide

/-- Texts that fit are joined to one that fits. -/
theorem fitsQuotes_intercalate {sep : String} {ps : List String} (free : '"' ∉ sep.toList)
    (full : ps ≠ []) (h : ∀ p ∈ ps, FitsQuotes p) : FitsQuotes (sep.intercalate ps) := by
  refine ⟨?_, Text.not_mem_intercalate free fun p hp => (h p hp).unquoted⟩
  match ps, full with
  | [p], _ => simpa using (h p (by simp)).full
  | p :: q :: ps, _ =>
    rw [String.intercalate_cons_cons, String.toList_append, String.toList_append]
    have first := (h p (by simp)).full
    simp [first]

theorem Plain.fitsQuotes {α : Type} [Element α] {p : String → Except ReadError α} {a : α}
    (h : Plain p a) : FitsQuotes (Element.render a) :=
  ⟨h.full, h.unquoted⟩

/-! ### Values that lists can hold -/

theorem DistinguishedName.Made.fitsQuotes {d : DistinguishedName} (made : d.Made)
    (valid : d.validate = .ok ()) : FitsQuotes d.render :=
  (plain_name (made.namePart_render valid)).fitsQuotes

theorem ObjectIdentifier.Made.fitsQuotes {o : ObjectIdentifier} (made : o.Made)
    (valid : o.validate = .ok ()) : FitsQuotes o.render :=
  (plain_identifier (made.identifierPart_render valid)).fitsQuotes

theorem AttributeType.Made.fitsQuotes {a : AttributeType} (made : a.Made)
    (valid : a.validate = .ok ()) : FitsQuotes a.render :=
  (plain_attribute (made.attributePart_render valid)).fitsQuotes

theorem FilterOperation.Holds.fitsQuotes {o : FilterOperation} {fs : List AttributeFilter}
    (h : o.Holds fs) : FitsQuotes o.render := by
  refine ⟨fun empty => ?_, h.unquoted⟩
  have last := h.getLast?
  rw [empty] at last
  cases last

theorem FilterOperation.Made.fitsQuotes {o : FilterOperation} (made : o.Made)
    (valid : o.validate = .ok ()) : FitsQuotes o.render := by
  obtain ⟨op, terms, rfl⟩ := made
  obtain ⟨fs, holds⟩ := holds_of_terms valid
  exact holds.fitsQuotes

/-! ### Filters, addresses and hosts -/

def Filter.Made (f : Filter) : Prop :=
  ∃ text, f = ofText text

theorem Filter.Made.fitsQuotes {f : Filter} (made : f.Made) (valid : f.validate = .ok ()) :
    FitsQuotes f.render := by
  obtain ⟨text, rfl⟩ := made
  unfold ofText at valid ⊢
  cases read : body? text with
  | error e =>
    rw [read] at valid
    cases valid
  | ok body =>
    obtain ⟨rfl, isBody⟩ := body?_eq_ok_iff.mp read
    show FitsQuotes (String.ofList (Text.trim text.toList))
    refine ⟨?_, ?_⟩
    · rw [String.toList_ofList]
      intro empty
      have head := isBody.1.1
      rw [empty] at head
      cases head
    · rw [String.toList_ofList]
      exact isBody.2.1

namespace AddressList

/-- The list has been filled by pushes; what was refused is not in it. -/
def Made (l : AddressList) : Prop :=
  ∃ texts : List String, l = texts.foldl push {}

/-- What one push does: nothing, or it adds an address that passes the check unchanged. -/
theorem push_eq_or_inserted (l : AddressList) (text : String) :
    l.push text = l ∨
      ∃ a, AddressList.address? a = .ok a ∧ l.insert? a = .ok (l.push text) := by
  unfold push
  cases pushed : l.push? text with
  | error e => exact .inl rfl
  | ok m =>
    rw [push?_eq] at pushed
    obtain ⟨a, read, inserted⟩ := bind_eq_ok.mp pushed
    exact .inr ⟨a, address?_address read, inserted⟩

/-- The addresses pass the check unchanged, and put into a list one after the other they give the
same list. -/
theorem Made.inserted {l : AddressList} (made : l.Made) :
    (∀ a ∈ l.addresses, AddressList.address? a = .ok a) ∧
      l.addresses.foldlM insert? {} = .ok l := by
  obtain ⟨texts, rfl⟩ := made
  refine List.foldlRecOn (motive := fun l => (∀ a ∈ l.addresses, AddressList.address? a = .ok a) ∧
    l.addresses.foldlM insert? {} = .ok l) texts push ⟨List.forall_mem_nil _, rfl⟩ ?_
  intro l kept text _
  rcases push_eq_or_inserted l text with same | ⟨a, own, inserted⟩
  · rwa [same]
  have alone : [a].foldlM insert? l = .ok (l.push text) := by
    rw [List.foldlM_cons, inserted]
    rfl
  rw [addresses_of_foldlM alone]
  refine ⟨fun b hb => ?_, ?_⟩
  · rcases List.mem_append.mp hb with before | new
    · exact kept.1 b before
    · rwa [List.mem_singleton.mp new]
  · rw [List.foldlM_append, kept.2]
    exact alone

theorem fitsQuotes_of_address? {text address : String}
    (h : AddressList.address? text = .ok address) : FitsQuotes address := by
  obtain ⟨rfl, full, own, _⟩ := address?_eq_ok_iff.mp h
  refine ⟨by rwa [String.toList_ofList], fun mem => ?_⟩
  rw [String.toList_ofList] at mem
  have quote := own '"' mem
  revert quote
  decide

theorem Made.fitsQuotes {l : AddressList} (made : l.Made) (valid : l.isVoid = false) :
    FitsQuotes l.render := by
  have full : l.addresses ≠ [] := by simpa [isVoid] using valid
  unfold render
  rw [if_neg (by simp [valid])]
  exact fitsQuotes_intercalate (by decide) full
    fun a ha => fitsQuotes_of_address? (made.inserted.1 a ha)

end AddressList

namespace HostName

def Made (h : HostName) : Prop :=
  ∃ text, h = ofText text

/-- A star in front is the only part that is no label. -/
theorem mem_labels {labels : List (List Char)} (clean : badLabel? labels = none) :
    ∀ l ∈ labels, l = ['*'] ∨ isLabel l = true := by
  intro l hl
  unfold badLabel? at clean
  split at clean
  · rcases List.mem_cons.mp hl with star | rest
    · exact .inl star
    · right
      simpa using List.find?_eq_none.mp clean l rest
  · right
    simpa using List.find?_eq_none.mp clean l hl

theorem unquoted_of_isLabel {label : List Char} (h : isLabel label = true) : '"' ∉ label := by
  unfold isLabel at h
  simp only [Bool.and_eq_true] at h
  intro mem
  have own := List.all_eq_true.mp h.2 '"' mem
  revert own
  decide

theorem Made.fitsQuotes {h : HostName} (made : h.Made) (valid : h.validate = .ok ()) :
    FitsQuotes h.render := by
  obtain ⟨text, rfl⟩ := made
  unfold ofText at valid ⊢
  cases read : name? text with
  | error e =>
    rw [read] at valid
    cases valid
  | ok name =>
    obtain ⟨rfl, sized, clean⟩ := name?_eq_ok_iff.mp read
    show FitsQuotes (String.ofList (Text.trim text.toList))
    refine ⟨?_, ?_⟩
    · rw [String.toList_ofList]
      intro empty
      exact sized (by rw [empty]; rfl)
    · rw [String.toList_ofList]
      have apart : '"' ≠ '.' := by decide
      refine not_mem_of_piecesAt apart fun label hl => ?_
      rcases mem_labels clean label hl with rfl | own
      · decide
      · exact unquoted_of_isLabel own

end HostName

/-! ### Words and numbers -/

theorem SearchScope.fitsQuotes (s : SearchScope) : FitsQuotes s.name := by
  cases s <;> exact ⟨by decide, by decide⟩

theorem Authentication.fitsQuotes (a : Authentication) : FitsQuotes a.name := by
  cases a <;> exact ⟨by decide, by decide⟩

theorem Strength.fitsQuotes (s : Strength) : FitsQuotes s.render :=
  fitsQuotes_of_digits (Text.toString_ne_nil s.factor) fun _ hc => s.isDigit_of_mem_render hc

theorem ClockTime.fitsQuotes (t : ClockTime) : FitsQuotes t.render := by
  refine fitsQuotes_of_digits ?_ fun c hc => Text.isDigit_of_mem_paddedNumeral hc
  intro empty
  have again := ofDigits?_render t
  rw [empty] at again
  cases again

theorem Weekdays.fitsQuotes {w : Weekdays} (valid : w.isVoid = false) : FitsQuotes w.render := by
  have full : w.toList ≠ [] := by simpa [isVoid, EnumSet.isEmpty, toList] using valid
  unfold render
  rw [if_neg (by simp [valid])]
  refine fitsQuotes_intercalate (by decide) (by simpa using full) fun p hp => ?_
  obtain ⟨d, _, rfl⟩ := List.mem_map.mp hp
  cases d <;> exact ⟨by decide, by decide⟩

/-! ### Matches -/

namespace AttributeMatch

/-- The attribute has been read from a text; what it is matched with is free. -/
def Made (m : AttributeMatch) : Prop :=
  m.attributeType.Made

theorem validate_eq_ok_iff {m : AttributeMatch} :
    m.validate = .ok () ↔
      m.keyword.valueKind = .userAttribute ∧ m.attributeType.validate = .ok () ∧
        FitsQuotes m.value.render := by
  unfold validate
  dsimp only
  rw [unless_throw_eq_ok, not_not, bind_eq_ok]
  refine and_congr_right fun _ => Unique.exists_iff.trans (and_congr_right fun _ => ?_)
  cases m.value with
  | bindType t => cases t <;> exact iff_of_true rfl ⟨by decide, by decide⟩
  | literal text =>
    dsimp only
    split
    · next unsound =>
      refine iff_of_false (by rintro ⟨⟩) fun fits => ?_
      simp only [Bool.or_eq_true, String.isEmpty_iff, List.contains_iff_mem] at unsound
      rcases unsound with rfl | quoted
      · exact fits.full rfl
      · exact fits.unquoted quoted
    · next sound =>
      simp only [Bool.or_eq_true, String.isEmpty_iff, List.contains_iff_mem, not_or] at sound
      exact iff_of_true rfl ⟨mt String.toList_eq_nil_iff.mp sound.1, sound.2⟩

theorem value_of_validate {m : AttributeMatch} (h : m.validate = .ok ()) :
    FitsQuotes m.value.render :=
  (validate_eq_ok_iff.mp h).2.2

theorem Made.fitsQuotes {m : AttributeMatch} (made : m.Made) (valid : m.validate = .ok ()) :
    FitsQuotes m.render := by
  have name := AttributeType.Made.fitsQuotes made (attribute_of_validate valid)
  unfold render
  rw [valid]
  exact (name.append_right (by decide)).append_right (value_of_validate valid).unquoted

end AttributeMatch

namespace Inheritance

/-- A void inheritance or a match at no level, and then levels pushed. -/
def Made (i : Inheritance) : Prop :=
  ∃ (value : Option AttributeMatch) (levels : List Nat),
    (∀ m ∈ value, m.Made) ∧ i = levels.foldl pushLevel { value }

theorem value_pushLevel (i : Inheritance) (n : Nat) : (i.pushLevel n).value = i.value := by
  unfold pushLevel
  cases pushed : i.pushLevel? n with
  | ok j =>
    obtain ⟨_, _, _, rfl⟩ := pushLevel?_eq_ok_iff.mp pushed
    rfl
  | error e => rfl

theorem Made.value {i : Inheritance} (made : i.Made) : ∀ m ∈ i.value, m.Made := by
  obtain ⟨value, levels, known, rfl⟩ := made
  have same : (levels.foldl pushLevel { value }).value = value :=
    List.foldlRecOn (motive := fun i => i.value = value) levels pushLevel rfl
      fun i kept n _ => (value_pushLevel i n).trans kept
  rwa [same]

theorem Made.fitsQuotes {i : Inheritance} (made : i.Made) (valid : i.validate = .ok ()) :
    FitsQuotes i.render := by
  cases value : i.value with
  | none =>
    unfold validate at valid
    rw [value] at valid
    cases valid
  | some m =>
    obtain ⟨full, valid'⟩ := parts_of_validate value valid
    have levels : FitsQuotes (",".intercalate (i.levels.map Level.render)) := by
      refine fitsQuotes_intercalate (by decide) (by simpa using full) fun p hp => ?_
      obtain ⟨l, _, rfl⟩ := List.mem_map.mp hp
      exact fitsQuotes_of_digits (Text.toString_ne_nil l.val) fun c hc =>
        Text.isDigit_of_mem_toString hc
    have written := (made.value m value).fitsQuotes valid'
    unfold render
    rw [value, valid]
    exact ((levels.append_left (by decide)).append_right (by decide)).append_right written.unquoted

end Inheritance

end DirectoryAccess
