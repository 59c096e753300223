import DirectoryAccess.Proofs.Condition.Comparands
import Mathlib.Data.Set.List

/-!
# Matches are written and read back

At levels of inheritance a match is read from exactly the texts that it can be written as, character
for character. Without levels the blanks around the text do not count, so a value that ends in a
blank does not come back.
-/
namespace DirectoryAccess

/-! ### Levels and digits -/

namespace Level

def digit (l : Level) : Char :=
  l.val.digitChar

theorem render_eq (l : Level) : l.render = String.singleton l.digit :=
  Nat.repr_of_lt l.isLt

theorem isDigit_digit (l : Level) : l.digit.isDigit = true := by
  unfold digit
  rw [Nat.isDigit_digitChar]
  exact decide_eq_true l.isLt

theorem digitValue_digit (l : Level) : Text.digitValue l.digit = l.val :=
  Nat.toNat_digitChar_sub_48_of_lt_ten l.isLt

theorem digit_injective : Function.Injective digit := by
  intro l m same
  rw [Fin.ext_iff, ← digitValue_digit, same, digitValue_digit]

theorem exists_digit {c : Char} (h : c.isDigit = true) : ∃ l : Level, l.digit = c :=
  ⟨⟨Text.digitValue c, Text.digitValue_lt h⟩, Text.digitChar_digitValue h⟩

/-- A text of digits names a list of levels. -/
theorem exists_map_digit {digits : List Char} (h : ∀ c ∈ digits, c.isDigit = true) :
    ∃ ls : List Level, ls.map digit = digits := by
  have named : digits ∈ {cs : List Char | ∀ c ∈ cs, c ∈ Set.range digit} :=
    fun c hc => exists_digit (h c hc)
  rwa [← Set.range_list_map] at named

end Level

namespace AttributeType

theorem isName_of_isIdentifier {name : String} (h : isIdentifier name = true) :
    isName name.toList = true := by
  unfold isIdentifier isNameFrom at h
  simp only [Bool.and_eq_true] at h
  obtain ⟨⟨head, last⟩, chars⟩ := h
  have letter : name.toList.head?.any Char.isAlpha = true := by
    cases first : name.toList.head? with
    | none =>
      rw [first] at head
      cases head
    | some c =>
      rw [first, Option.any_some] at head
      have either : c.isAlpha = (c.isUpper || c.isLower) := rfl
      rw [Option.any_some, either, head, Bool.or_true]
  unfold isName isNameFrom
  rw [letter, last, chars]
  simp

theorem ofText_of_isIdentifier {name : String} (h : isIdentifier name = true) :
    ofText name = ⟨some name⟩ := by
  obtain ⟨trimmed, _, _⟩ := Inheritance.trim_of_isIdentifier h
  unfold ofText
  dsimp only
  rw [trimmed, if_pos (isName_of_isIdentifier h), String.ofList_toList]

end AttributeType

namespace MatchValue

/-- Only a literal that is the name of a bind type is taken for something else. -/
theorem ofText_render {v : MatchValue}
    (h : ∀ text, v = .literal text → text ∉ BindType.all.map BindType.name) :
    ofText v.render = v := by
  cases v with
  | bindType t =>
    show ofText t.name = _
    rw [ofText, BindType.ofName?_name]
  | literal text =>
    have none : BindType.ofName? text = none := by
      refine List.find?_eq_none.mpr fun t ht same => h text rfl ?_
      exact List.mem_map.mpr ⟨t, ht, by simpa using same⟩
    show ofText text = _
    rw [ofText, none]

end MatchValue

/-! ### Inheritance -/

namespace Inheritance

/-- The text is the levels in brackets, an identifier and a value that can be quoted. -/
structure Spells (raw : String) (digits : List Char) (name value : String) : Prop where
  some_digit : digits ≠ []
  own : ∀ c ∈ digits, c.isDigit = true
  distinct : digits.Nodup
  identifier : AttributeType.isIdentifier name = true
  quotable : FitsQuotes value
  text : raw = "parent[" ++ ",".intercalate (digits.map String.singleton) ++ "]." ++ name ++ "#" ++
    value

theorem text_eq_iff {raw name value : String} {ls : List Level} :
    raw = "parent[" ++ ",".intercalate ((ls.map Level.digit).map String.singleton) ++ "]." ++
        name ++ "#" ++ value ↔
      raw.toList = "parent[".toList ++ ((",".intercalate (ls.map Level.render)).toList ++
        (']' :: '.' :: (name.toList ++ '#' :: value.toList))) := by
  have closing : "].".toList = [']', '.'] := by decide
  have hash : "#".toList = ['#'] := by decide
  have written : (ls.map Level.digit).map String.singleton = ls.map Level.render := by
    rw [List.map_map]
    exact List.map_congr_left fun l _ => l.render_eq.symm
  rw [written, ← String.toList_inj]
  simp only [String.toList_append, closing, hash, List.append_assoc, List.cons_append,
    List.nil_append]

variable {k : Keyword} {i : Inheritance} {m : AttributeMatch}

/-- For a keyword that takes matches, just the texts that spell an inheritance are read. -/
theorem read_eq_ok_iff_spells (kind : k.valueKind = .userAttribute) {raw : String} :
    read k raw = .ok i ↔ ∃ (ls : List Level) (name value : String),
      Spells raw (ls.map Level.digit) name value ∧
        i = ⟨ls, some ⟨k, ⟨some name⟩, .ofText value⟩⟩ := by
  rw [read_eq_ok_iff]
  constructor
  · rintro ⟨ls, name, value, text, identifier, _, distinct, rfl, valid⟩
    obtain ⟨full, valid'⟩ := parts_of_validate rfl valid
    have fits := AttributeMatch.value_of_validate valid'
    rw [MatchValue.render_ofText] at fits
    refine ⟨ls, name, value, ⟨by simpa using full, ?_, distinct.map Level.digit_injective,
      identifier, fits, text_eq_iff.mpr text⟩, ?_⟩
    · intro c hc
      obtain ⟨l, _, rfl⟩ := List.mem_map.mp hc
      exact l.isDigit_digit
    · rw [AttributeType.ofText_of_isIdentifier identifier]
  · rintro ⟨ls, name, value, spells, rfl⟩
    have named := AttributeType.ofText_of_isIdentifier spells.identifier
    refine ⟨ls, name, value, text_eq_iff.mp spells.text, spells.identifier, spells.quotable.full,
      spells.distinct.of_map _, by rw [named], ?_⟩
    refine validate_eq_ok_iff.mpr ⟨_, rfl, by simpa using spells.some_digit, ?_, spells.identifier⟩
    refine AttributeMatch.validate_eq_ok_iff.mpr ⟨kind, rfl, ?_⟩
    rw [MatchValue.render_ofText]
    exact spells.quotable

theorem nodup_pushLevel (n : Nat) (h : i.levels.Nodup) : (i.pushLevel n).levels.Nodup := by
  unfold pushLevel
  cases pushed : i.pushLevel? n with
  | error e => exact h
  | ok j =>
    obtain ⟨l, _, new, rfl⟩ := pushLevel?_eq_ok_iff.mp pushed
    exact nodup_levels_append.mpr ⟨new, h⟩

theorem Made.nodup (made : i.Made) : i.levels.Nodup := by
  obtain ⟨value, levels, _, rfl⟩ := made
  refine List.foldlRecOn (motive := fun i => i.levels.Nodup) levels pushLevel ?_
    fun i kept n _ => nodup_pushLevel n kept
  exact List.nodup_nil

/-- What a valid inheritance is written as is read, and only a literal can come back as a bind
type. -/
theorem Made.read_render (made : i.Made) (value : i.value = some m) (valid : i.validate = .ok ()) :
    read m.keyword i.render =
      .ok { i with value := some { m with value := .ofText m.value.render } } := by
  obtain ⟨_, same, full, valid', identifier⟩ := validate_eq_ok_iff.mp valid
  obtain rfl := Option.some.inj (value.symm.trans same)
  obtain ⟨kind, present, fits⟩ := AttributeMatch.validate_eq_ok_iff.mp valid'
  obtain ⟨name, named⟩ : ∃ name, m.attributeType = ⟨some name⟩ := by
    cases typed : m.attributeType with
    | mk name =>
      cases name with
      | some name => exact ⟨name, rfl⟩
      | none =>
        rw [typed] at present
        cases present
  rw [named, Option.getD_some] at identifier
  refine (read_eq_ok_iff_spells kind).mpr ⟨i.levels, name, m.value.render, ⟨by simpa using full, ?_,
    made.nodup.map Level.digit_injective, identifier, fits, ?_⟩, ?_⟩
  · intro c hc
    obtain ⟨l, _, rfl⟩ := List.mem_map.mp hc
    exact l.isDigit_digit
  · rw [text_eq_iff, toList_render value valid]
    unfold AttributeMatch.render
    rw [valid', named]
    have hash : "#".toList = ['#'] := by decide
    simp [AttributeType.render, hash]
  · rw [named]

/-- For the two keywords that take matches, just the texts that spell an inheritance are read. What
is read is written as the very same text and has the levels in their order there. Whatever is valid
and has been made of any parts is read from what it is written as, unless its value is a literal
that is the name of a bind type. -/
theorem codec_exact (matching : k = .bind .userAttr ∨ k = .bind .groupAttr) :
    (∀ raw, (∃ i, read k raw = .ok i) ↔ ∃ digits name value, Spells raw digits name value) ∧
    (∀ raw i, read k raw = .ok i → i.render = raw ∧ ∃ digits name value,
      Spells raw digits name value ∧ i.levels.map Fin.val = digits.map Text.digitValue ∧
        i.value = some ⟨k, ⟨some name⟩, .ofText value⟩) ∧
    ∀ (i : Inheritance) (m : AttributeMatch), i.Made → i.value = some m → i.validate = .ok () →
      (∀ text, m.value = .literal text → text ∉ BindType.all.map BindType.name) →
      read m.keyword i.render = .ok i := by
  have kind : k.valueKind = .userAttribute := by
    rcases matching with rfl | rfl <;> rfl
  refine ⟨fun raw => ⟨?_, ?_⟩, fun raw i read => ⟨render_of_read read, ?_⟩, ?_⟩
  · rintro ⟨i, read⟩
    obtain ⟨ls, name, value, spells, _⟩ := (read_eq_ok_iff_spells kind).mp read
    exact ⟨_, name, value, spells⟩
  · rintro ⟨digits, name, value, spells⟩
    obtain ⟨ls, rfl⟩ := Level.exists_map_digit spells.own
    exact ⟨_, (read_eq_ok_iff_spells kind).mpr ⟨ls, name, value, spells, rfl⟩⟩
  · obtain ⟨ls, name, value, spells, rfl⟩ := (read_eq_ok_iff_spells kind).mp read
    refine ⟨_, name, value, spells, ?_, rfl⟩
    rw [List.map_map]
    exact List.map_congr_left fun l _ => (Level.digitValue_digit l).symm
  · intro i m made value valid unlike
    have read := made.read_render value valid
    rw [MatchValue.ofText_render unlike] at read
    rw [read, ← value]

/-- Three levels out of order, and a value with a blank and a number sign of its own. -/
theorem codec_exact_out_of_order :
    let raw := "parent[8,0,2].cn;lang-en# a#b"
    let i : Inheritance := .ofLevels (.groupAttr "manager" (.bindType .userDn)) [3, 12, 1, 3]
    (∃ j, read (.bind .groupAttr) raw = .ok j ∧ j.render = raw) ∧
      i.render = "parent[3,1].manager#USERDN" ∧ read (.bind .groupAttr) i.render = .ok i := by
  intro raw i
  have codec := codec_exact (k := .bind .groupAttr) (.inr rfl)
  have spells : Spells raw ['8', '0', '2'] "cn;lang-en" " a#b" :=
    ⟨by decide, by simp, by decide, by decide, ⟨by decide, by decide⟩, by decide⟩
  obtain ⟨j, read⟩ := (codec.1 raw).mpr ⟨_, _, _, spells⟩
  refine ⟨⟨j, read, (codec.2.1 raw j read).1⟩, by decide +kernel, ?_⟩
  refine codec.2.2 i (.groupAttr "manager" (.bindType .userDn)) ⟨_, [3, 12, 1, 3], ?_, rfl⟩ ?_ ?_ ?_
  · intro m hm
    obtain rfl := Option.some.inj hm
    exact ⟨"manager", rfl⟩
  · rfl
  · decide +kernel
  · rintro text ⟨⟩

end Inheritance

/-! ### Matches without levels -/

theorem AttributeType.Made.exists_name {a : AttributeType} (made : a.Made)
    (valid : a.validate = .ok ()) :
    ∃ name : String, isName name.toList = true ∧ Text.IsTrimmed name.toList ∧
      a = .ofText name := by
  obtain ⟨text, rfl⟩ := made
  obtain ⟨named, same⟩ := isName_of_validate valid
  refine ⟨String.ofList (Text.trim text.toList), ?_, ?_, ?_⟩
  · rwa [String.toList_ofList]
  · rw [String.toList_ofList]
    exact Text.isTrimmed_trim _
  · rw [ofText_trimmed named, same]

theorem FitsQuotes.trimEnd {text : String} (h : FitsQuotes text)
    (full : Text.trimEnd text.toList ≠ []) :
    FitsQuotes (String.ofList (Text.trimEnd text.toList)) := by
  obtain ⟨blanks, split, _⟩ := Text.trimEnd_prefix text.toList
  refine ⟨by rwa [String.toList_ofList], fun mem => h.unquoted ?_⟩
  rw [split]
  rw [String.toList_ofList] at mem
  exact List.mem_append_left _ mem

namespace AttributeMatch

variable {k : Keyword} {a : AttributeType} {text : String}

/-- What comes back of a match is its value without the blanks at the end, if there is more. -/
theorem read_render_eq_ok_iff {m : AttributeMatch} (made : a.Made)
    (valid : validate ⟨k, a, .ofText text⟩ = .ok ()) :
    read k (render ⟨k, a, .ofText text⟩) = .ok m ↔
      Text.trimEnd text.toList ≠ [] ∧
        m = ⟨k, a, .ofText (String.ofList (Text.trimEnd text.toList))⟩ := by
  obtain ⟨name, named, trimmed, rfl⟩ := made.exists_name (attribute_of_validate valid)
  obtain ⟨kind, present, fits⟩ := validate_eq_ok_iff.mp valid
  have free : '#' ∉ name.toList := not_mem_of_isName named (by decide) (by decide)
  have full := isName_ne_nil named
  rw [MatchValue.render_ofText] at fits
  have written : Text.trim (render ⟨k, .ofText name, .ofText text⟩).toList =
      name.toList ++ '#' :: Text.trimEnd text.toList := by
    have start : Text.trimStart (name.toList ++ '#' :: text.toList) =
        name.toList ++ '#' :: text.toList := by
      cases chars : name.toList with
      | nil => exact absurd chars full
      | cons c r => exact List.dropWhile_cons_of_neg (by simp [trimmed.1 c (by simp [chars])])
    rw [toList_render valid, trimmed.trim_eq, Text.trim, start,
      Text.trimEnd_append_cons (by decide)]
  rw [read_eq_ok_iff, written]
  constructor
  · rintro ⟨n, v, split, _, free', valued, rfl, _⟩
    obtain ⟨names, values⟩ := Text.first_unique free free' split
    rw [values, String.ofList_toList, ← String.toList_inj.mp names]
    exact ⟨valued, rfl⟩
  · rintro ⟨some', rfl⟩
    refine ⟨name, String.ofList (Text.trimEnd text.toList), by rw [String.toList_ofList], full,
      free, by rwa [String.toList_ofList], rfl, validate_eq_ok_iff.mpr ⟨kind, present, ?_⟩⟩
    rw [MatchValue.render_ofText]
    exact fits.trimEnd some'

theorem read_render_iff (made : a.Made) (valid : validate ⟨k, a, .ofText text⟩ = .ok ()) :
    read k (render ⟨k, a, .ofText text⟩) = .ok ⟨k, a, .ofText text⟩ ↔
      ∀ c ∈ text.toList.getLast?, Text.isBlank c = false := by
  rw [read_render_eq_ok_iff made valid, ← Text.trimEnd_eq_self_iff]
  constructor
  · rintro ⟨_, same⟩
    have values := congrArg (fun m => m.value.render) same
    simp only [MatchValue.render_ofText] at values
    rw [← String.toList_inj, String.toList_ofList] at values
    exact values.symm
  · intro same
    have fits := value_of_validate valid
    rw [MatchValue.render_ofText] at fits
    rw [same, String.ofList_toList]
    exact ⟨fits.full, rfl⟩

/-- A match in quotes is read as the match alone is. -/
theorem readMatch_render_iff (made : a.Made) (valid : validate ⟨k, a, .ofText text⟩ = .ok ()) :
    Expression.readMatch k (render ⟨k, a, .ofText text⟩) = .ok (render ⟨k, a, .ofText text⟩) ↔
      read k (render ⟨k, a, .ofText text⟩) = .ok ⟨k, a, .ofText text⟩ := by
  obtain ⟨name, named, trimmed, rfl⟩ := made.exists_name (attribute_of_validate valid)
  have written := toList_render valid
  rw [trimmed.trim_eq] at written
  have apart : (Text.after? "parent[".toList
      (render ⟨k, .ofText name, .ofText text⟩).toList).isSome = false := by
    rw [written, not_after?_parent named]
    rfl
  unfold Expression.readMatch
  rw [if_neg (Bool.eq_false_iff.mp apart), map_eq_ok]
  constructor
  · rintro ⟨m, read, same⟩
    obtain ⟨_, rfl⟩ := (read_render_eq_ok_iff made valid).mp read
    obtain ⟨_, _, _, _, _, _, _, valid'⟩ := read_eq_ok_iff.mp read
    rw [← String.toList_inj, written, toList_render valid', trimmed.trim_eq] at same
    have values := List.append_cancel_left same
    rw [read, String.toList_inj.mp (List.cons.inj values).2]
  · intro read
    exact ⟨_, read, rfl⟩

/-- A valid match with any text for its value comes back, alone and in a condition, just when the
text does not end in a blank. -/
theorem rereads_iff_solid_end (made : a.Made) (valid : validate ⟨k, a, .ofText text⟩ = .ok ())
    (layout : Layout) :
    (read k (render ⟨k, a, .ofText text⟩) = .ok ⟨k, a, .ofText text⟩ ↔
      ∀ c ∈ text.toList.getLast?, Text.isBlank c = false) ∧
    (Condition.read
        ((toOperand ⟨k, a, .ofText text⟩).condition .equal layout).render =
          .ok ((toOperand ⟨k, a, .ofText text⟩).condition .equal layout) ↔
      ∀ c ∈ text.toList.getLast?, Text.isBlank c = false) := by
  have alone := read_render_iff made valid
  obtain ⟨kind, _, _⟩ := validate_eq_ok_iff.mp valid
  have permitted : k.permits .equal = true := k.permits_equal
  have condition : (toOperand ⟨k, a, .ofText text⟩).condition .equal layout =
      .new k .equal (.value (render ⟨k, a, .ofText text⟩)) layout := by
    refine Operand.condition_eq_new layout rfl ?_ permitted
    show Option.map Expression.value (Option.map _ (validate _).toOption) = _
    rw [valid]
    rfl
  have scalar : ∀ written, Expression.readScalar k written = Expression.readMatch k written := by
    intro written
    unfold Expression.readScalar
    rw [kind]
  refine ⟨alone, ?_⟩
  have fits : FitsQuotes (render ⟨k, a, .ofText text⟩) :=
    Made.fitsQuotes (m := ⟨k, a, .ofText text⟩) made valid
  rw [condition, Condition.read_value_iff layout permitted fits,
    Expression.read_scalar_eq_ok_iff (by simp [kind]), scalar, readMatch_render_iff made valid,
    alone]

/-- A value with a blank in front and a number sign of its own. -/
theorem rereads_blank_in_front :
    let m : AttributeMatch := .userAttr "manager" (.ofText " a#b")
    m.validate = .ok () ∧ read (.bind .userAttr) m.render = .ok m ∧
      (m.toOperand.condition .equal).render = "userattr = \"manager# a#b\"" ∧
      Condition.read (m.toOperand.condition .equal).render =
        .ok (m.toOperand.condition .equal) := by
  intro m
  have valid : m.validate = .ok () := by decide +kernel
  have solid : ∀ c ∈ " a#b".toList.getLast?, Text.isBlank c = false := by
    intro c last
    obtain rfl : 'b' = c := Option.some.inj last
    decide
  obtain ⟨alone, compared⟩ :=
    rereads_iff_solid_end (k := .bind .userAttr) (a := .ofText "manager") ⟨_, rfl⟩ valid {}
  exact ⟨valid, alone.mpr solid, by decide +kernel, compared.mpr solid⟩

/-- A literal that is the name of a bind type but for a blank behind it comes back as that type. -/
theorem userdn_with_blank_not_reread :
    let m : AttributeMatch := .userAttr "manager" (.ofText "USERDN ")
    m.validate = .ok () ∧ m.render = "manager#USERDN " ∧
      read (.bind .userAttr) m.render = .ok (.userAttr "manager" (.bindType .userDn)) ∧
      (m.toOperand.condition .equal).render = "userattr = \"manager#USERDN \"" ∧
      ¬ Condition.read (m.toOperand.condition .equal).render =
        .ok (m.toOperand.condition .equal) := by
  decide +kernel

end AttributeMatch

end DirectoryAccess
