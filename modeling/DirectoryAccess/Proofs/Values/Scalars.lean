import DirectoryAccess.Condition.Values
import DirectoryAccess.Proofs.Checks
import DirectoryAccess.Proofs.Text.Joining
import DirectoryAccess.Proofs.Text.Numeral

/-!
# Single values are read from what they are written as

For each kind of value that has no lists: the value that is read from a text is read again from its
own written form.
-/
namespace DirectoryAccess

theorem SearchScope.read_name (s : SearchScope) : read s.name = .ok s := by
  unfold read
  rw [ofName?_name]

theorem Authentication.read_name (a : Authentication) : read a.name = .ok a := by
  unfold read
  rw [ofName?_name]

/-! ### Filters -/

namespace Filter

/-- The conditions on the trimmed text of a filter. -/
def IsBody (body : List Char) : Prop :=
  (body.head? = some '(' ∧ body.getLast? = some ')' ∧ 3 ≤ body.length) ∧ '"' ∉ body ∧
    parenthesisFault? 0 body = none

theorem body?_eq_ok_iff {text body : String} :
    body? text = .ok body ↔
      body = String.ofList (Text.trim text.toList) ∧ IsBody (Text.trim text.toList) := by
  unfold body? IsBody
  dsimp only
  generalize Text.trim text.toList = cs
  split
  · next bad =>
    simp only [reduceCtorEq, false_iff, not_and]
    rintro - ⟨head, last, long⟩
    rcases bad with bad | bad | bad
    · exact absurd head bad
    · exact absurd last bad
    · omega
  next shape =>
  simp only [not_or, ne_eq, Classical.not_not, Nat.not_lt] at shape
  split
  · next quote =>
    simp only [reduceCtorEq, false_iff, not_and]
    rintro - - free
    exact absurd (List.contains_iff_mem.mp quote) free
  next free =>
  have free' : '"' ∉ cs := fun mem => free (List.contains_iff_mem.mpr mem)
  split
  · next reason fault =>
    simp [fault]
  · next sound =>
    simp only [Except.ok.injEq, sound, and_true]
    constructor
    · rintro rfl
      exact ⟨rfl, shape, free'⟩
    · rintro ⟨rfl, _⟩
      rfl

theorem read_eq_ok_iff {text : String} {f : Filter} :
    read text = .ok f ↔
      f = ⟨some (String.ofList (Text.trim text.toList))⟩ ∧ IsBody (Text.trim text.toList) := by
  unfold read ofText?
  rw [mapError_eq_ok, bind_eq_ok]
  simp only [pure_eq_ok, body?_eq_ok_iff]
  constructor
  · rintro ⟨_, ⟨rfl, body⟩, rfl⟩
    exact ⟨rfl, body⟩
  · rintro ⟨rfl, body⟩
    exact ⟨_, ⟨rfl, body⟩, rfl⟩

theorem read_render {text : String} {f : Filter} (h : read text = .ok f) :
    read f.render = .ok f := by
  obtain ⟨rfl, body⟩ := read_eq_ok_iff.mp h
  refine read_eq_ok_iff.mpr ?_
  unfold render
  rw [Option.getD_some, String.toList_ofList, Text.trim_trim]
  exact ⟨rfl, body⟩

end Filter

/-! ### Addresses -/

namespace AddressList

theorem address?_eq_ok_iff {text address : String} :
    address? text = .ok address ↔
      address = String.ofList (Text.trim text.toList) ∧ Text.trim text.toList ≠ [] ∧
      (∀ c ∈ Text.trim text.toList, isAddressChar c = true) ∧
      (Text.trim text.toList = ['*'] ∨ '.' ∈ Text.trim text.toList ∨
        ':' ∈ Text.trim text.toList) := by
  unfold address?
  dsimp only
  generalize Text.trim text.toList = cs
  split
  · next empty =>
    simp [List.isEmpty_iff.mp empty]
  next full =>
  have full' : cs ≠ [] := fun e => full (by rw [e]; rfl)
  split
  · next foreign =>
    simp only [Bool.not_eq_true', reduceCtorEq, false_iff, not_and] at foreign ⊢
    intro _ _ own
    rw [List.all_eq_true.mpr own] at foreign
    cases foreign
  next own =>
  simp only [Bool.not_eq_true', Bool.not_eq_false] at own
  split
  · next other =>
    simp only [reduceCtorEq, false_iff, not_and, not_or]
    intro _ _ _
    exact other
  · next known =>
    simp only [Except.ok.injEq]
    constructor
    · rintro rfl
      refine ⟨rfl, full', List.all_eq_true.mp own, ?_⟩
      by_cases star : cs = ['*']
      · exact .inl star
      by_cases dot : '.' ∈ cs
      · exact .inr (.inl dot)
      by_cases colon : ':' ∈ cs
      · exact .inr (.inr colon)
      exact absurd ⟨star, dot, colon⟩ known
    · rintro ⟨rfl, _⟩
      rfl

theorem address?_address {text address : String} (h : address? text = .ok address) :
    address? address = .ok address := by
  obtain ⟨rfl, body⟩ := address?_eq_ok_iff.mp h
  refine address?_eq_ok_iff.mpr ?_
  rw [String.toList_ofList, Text.trim_trim]
  exact ⟨rfl, body⟩

theorem comma_not_mem {text address : String} (h : address? text = .ok address) :
    ',' ∉ address.toList := by
  obtain ⟨rfl, _, own, _⟩ := address?_eq_ok_iff.mp h
  rw [String.toList_ofList]
  intro mem
  have comma := own ',' mem
  revert comma
  decide

/-- The list with one more address, which has to be new. -/
def insert? (l : AddressList) (address : String) : Except RuleError AddressList :=
  if l.addresses.any (fun a => Text.sameWord a address) then .error (.duplicateValue address)
  else .ok { l with addresses := l.addresses ++ [address] }

theorem push?_eq : push? = fun l text => (do
    let address ← address? text
    l.insert? address) := by
  funext l text
  unfold push? insert?
  congr 1

theorem addresses_of_foldlM {as : List String} {l m : AddressList}
    (h : as.foldlM insert? l = .ok m) : m.addresses = l.addresses ++ as := by
  induction as generalizing l with
  | nil =>
    obtain rfl := pure_eq_ok.mp h
    rw [List.append_nil]
  | cons a as ih =>
    rw [List.foldlM_cons] at h
    obtain ⟨n, first, others⟩ := bind_eq_ok.mp h
    unfold insert? at first
    split at first
    · cases first
    · obtain rfl := Except.ok.inj first
      rw [ih others]
      simp

theorem read_eq_ok_iff {text : String} {l : AddressList} :
    read text = .ok l ↔
      ∃ as, List.Forall₂ (fun t a => address? t = .ok a) (Text.split ',' text) as ∧
        as.foldlM insert? {} = .ok l := by
  rw [← foldlM_bind_eq_ok_iff, ← push?_eq]
  unfold read
  split
  · next m passed => rw [passed, Except.ok.injEq, Except.ok.injEq]
  · next e failed => simp [failed]

/-- Addresses that pass the check unchanged, and that can be put into a list one after the other,
are read from what the list is written as. -/
theorem read_of_inserted {l : AddressList} (full : l.addresses ≠ [])
    (own : ∀ a ∈ l.addresses, address? a = .ok a)
    (inserted : l.addresses.foldlM insert? {} = .ok l) :
    read l.render = .ok l := by
  have written : l.render = ",".intercalate l.addresses := by
    unfold render isVoid
    rw [if_neg (by simpa using full)]
  have cut : Text.split ',' l.render = l.addresses := by
    rw [written]
    exact Text.split_intercalate (by decide) full fun a ha => comma_not_mem (own a ha)
  refine read_eq_ok_iff.mpr ⟨l.addresses, ?_, inserted⟩
  rw [cut, List.forall₂_same]
  exact own

theorem read_render {text : String} {l : AddressList} (h : read text = .ok l) :
    read l.render = .ok l := by
  obtain ⟨as, parts, inserted⟩ := read_eq_ok_iff.mp h
  have addresses_eq : l.addresses = as := addresses_of_foldlM inserted
  rw [← addresses_eq] at parts inserted
  refine read_of_inserted ?_ (fun a ha => ?_) inserted
  · intro empty
    rw [empty] at parts
    have none' := List.forall₂_nil_right_iff.mp parts
    exact Text.piecesAt_ne_nil ',' text.toList (List.map_eq_nil_iff.mp none')
  · obtain ⟨_, _, read⟩ := exists_of_forall₂ parts ha
    exact address?_address read

end AddressList

/-! ### Host names -/

namespace HostName

theorem name?_eq_ok_iff {text name : String} :
    name? text = .ok name ↔
      name = String.ofList (Text.trim text.toList) ∧
      ¬ ((Text.trim text.toList).isEmpty ||
        maxBytes < Text.byteLength (Text.trim text.toList)) = true ∧
      badLabel? (Text.piecesAt '.' (Text.trim text.toList)) = none := by
  unfold name?
  dsimp only
  generalize Text.trim text.toList = cs
  split
  · next bad => simp [bad]
  next good =>
  split
  · next label bad => simp [bad]
  · next clean =>
    simp only [Except.ok.injEq, clean, and_true]
    constructor
    · rintro rfl
      exact ⟨rfl, good⟩
    · rintro ⟨rfl, _⟩
      rfl

theorem read_render {text : String} {h : HostName} (read_eq : read text = .ok h) :
    read h.render = .ok h := by
  unfold read at read_eq
  cases named : name? text with
  | error e =>
    rw [named] at read_eq
    cases read_eq
  | ok name =>
    rw [named] at read_eq
    obtain rfl := Except.ok.inj read_eq
    obtain ⟨rfl, body⟩ := name?_eq_ok_iff.mp named
    have again : name? (String.ofList (Text.trim text.toList)) =
        .ok (String.ofList (Text.trim text.toList)) := by
      refine name?_eq_ok_iff.mpr ?_
      rw [String.toList_ofList, Text.trim_trim]
      exact ⟨rfl, body⟩
    unfold read render
    rw [Option.getD_some, again]

end HostName

/-! ### Days -/

namespace Weekdays

theorem ofList_toList (w : Weekdays) : ofList w.toList = w := by
  cases w with
  | mk days =>
    unfold ofList toList
    congr 1
    ext d
    rw [EnumSet.contains_ofList, Bool.eq_iff_iff, List.contains_iff_mem, EnumSet.mem_toList]

theorem read_of_full {w : Weekdays} (full : w.toList ≠ []) : read w.render = .ok w := by
  have written : w.render = ",".intercalate (w.toList.map Day.shortName) := by
    unfold render isVoid EnumSet.isEmpty
    cases listed : w.days.toList with
    | nil => exact absurd listed full
    | cons d ds => rfl
  have free : ∀ p ∈ w.toList.map Day.shortName, ',' ∉ p.toList := by
    intro p hp
    obtain ⟨d, _, rfl⟩ := List.mem_map.mp hp
    cases d <;> decide
  have cut : Text.split ',' w.render = w.toList.map Day.shortName := by
    rw [written]
    exact Text.split_intercalate (by decide) (by simpa using full) free
  unfold read
  refine bind_eq_ok.mpr ⟨w.toList, mapM_eq_ok_iff.mpr ?_, ?_⟩
  · rw [cut, List.forall₂_map_left_iff, List.forall₂_same]
    intro d _
    unfold readDay
    rw [Day.ofName?_shortName]
  · rw [ofList_toList]
    rfl

theorem read_render {text : String} {w : Weekdays} (h : read text = .ok w) :
    read w.render = .ok w := by
  obtain ⟨days, parts, made⟩ := bind_eq_ok.mp h
  obtain rfl := pure_eq_ok.mp made
  refine read_of_full fun empty => ?_
  cases days with
  | nil =>
    have none' := List.forall₂_nil_right_iff.mp (mapM_eq_ok_iff.mp parts)
    exact Text.piecesAt_ne_nil ',' text.toList (List.map_eq_nil_iff.mp none')
  | cons d ds =>
    have mem : d ∈ (ofList (d :: ds)).toList := by
      refine EnumSet.mem_toList.mpr ?_
      show (EnumSet.ofList (d :: ds)).contains d = true
      rw [EnumSet.contains_ofList]
      simp
    rw [empty] at mem
    cases mem

end Weekdays

/-! ### Strengths -/

namespace Strength

variable (s : Strength)

theorem isDigit_of_mem_render {c : Char} (h : c ∈ s.render.toList) : c.isDigit = true :=
  Text.isDigit_of_mem_toString h

theorem trimmed_render : Text.trimmed s.render = s.render := by
  have ends : Text.IsTrimmed s.render.toList := by
    refine Text.isTrimmed_of_forall fun c hc => Text.isBlank_of_isAlphanum ?_
    simp [Char.isAlphanum, s.isDigit_of_mem_render hc]
  unfold Text.trimmed
  rw [ends.trim_eq, String.ofList_toList]

/-- A numeral begins with a digit, so it is no word without digits. -/
theorem sameWord_render {word : String}
    (letters : (Text.lower word.toList).all (!·.isDigit) = true) :
    Text.sameWord s.render word = false := by
  rw [Bool.eq_false_iff]
  intro same
  have lower := Text.sameWord_iff.mp same
  cases start : s.render.toList with
  | nil => exact Text.toString_ne_nil s.factor start
  | cons c r =>
    have digit : c.isDigit = true := s.isDigit_of_mem_render (by rw [start]; simp)
    have mem : c ∈ Text.lower word.toList := by
      rw [← lower, start]
      simp [Text.lower, Text.toLower_of_isDigit digit]
    have letter := List.all_eq_true.mp letters c mem
    rw [digit] at letter
    cases letter

theorem read_render : read s.render = .ok s := by
  have named : ofText? s.render = some s := by
    unfold ofText?
    dsimp only
    rw [s.trimmed_render, s.sameWord_render (by decide), s.sameWord_render (by decide),
      s.sameWord_render (by decide), s.sameWord_render (by decide)]
    show (Text.number? (toString s.factor).toList).bind ofNat? = some s
    rw [Text.number?_toString]
    show ofNat? s.factor = some s
    unfold ofNat?
    rw [dif_pos s.le_max]
  unfold read
  rw [named]

end Strength

/-! ### Times of day -/

namespace ClockTime

theorem ofDigits?_render (t : ClockTime) : ofDigits? t.render.toList = some t := by
  have fits : (Nat.toDigits 10 t.number).length ≤ 4 := by
    refine (Nat.length_toDigits_le_iff (by omega) (by omega)).mpr ?_
    have := t.valid
    unfold number
    omega
  have length : t.render.toList.length = 4 := Text.length_paddedNumeral fits
  have digits : ∀ c ∈ t.render.toList, c.isDigit = true :=
    fun c hc => Text.isDigit_of_mem_paddedNumeral hc
  have value : Text.numberOf t.render.toList = 100 * t.hour + t.minute :=
    Text.numberOf_paddedNumeral 4 t.number
  match written : t.render.toList, length with
  | [a, b, c, d], _ =>
    rw [written] at digits value
    have lastTwo : Text.numberOf [c, d] < 100 := by
      have hc := Text.digitValue_lt (digits c (by simp))
      have hd := Text.digitValue_lt (digits d (by simp))
      simp only [Text.numberOf, List.foldl_cons, List.foldl_nil]
      omega
    have split : Text.numberOf [a, b, c, d] =
        100 * Text.numberOf [a, b] + Text.numberOf [c, d] := by
      simp only [Text.numberOf, List.foldl_cons, List.foldl_nil]
      omega
    have minutes : t.minute < 100 := by
      have := t.valid
      omega
    have hour : Text.numberOf [a, b] = t.hour := by omega
    have minute : Text.numberOf [c, d] = t.minute := by omega
    unfold ofDigits?
    dsimp only
    rw [if_pos (List.all_eq_true.mpr digits), hour, minute]
    unfold ofNats?
    rw [dif_pos t.valid]

end ClockTime

theorem TimeOfDay.read_clock (clock : ClockTime) : read clock.render = .ok ⟨some clock⟩ := by
  have trimmed : Text.trim clock.render.toList = clock.render.toList := by
    refine (Text.isTrimmed_of_forall fun c hc => Text.isBlank_of_isAlphanum ?_).trim_eq
    have digit := Text.isDigit_of_mem_paddedNumeral
      (show c ∈ (Text.paddedNumeral 4 clock.number).toList from hc)
    simp [Char.isAlphanum, digit]
  unfold read
  rw [trimmed, ClockTime.ofDigits?_render]

theorem TimeOfDay.read_render {text : String} {t : TimeOfDay} (h : read text = .ok t) :
    read t.render = .ok t := by
  unfold read at h
  split at h
  · next clock _ =>
    obtain rfl := Except.ok.inj h
    exact read_clock clock
  · cases h

/-! ### Texts that a keyword keeps -/

namespace Expression

theorem readScalar_scope (s : SearchScope) :
    readScalar (.target .targetScope) s.name = .ok s.name := by
  show (SearchScope.read s.name).map SearchScope.name = _
  rw [s.read_name]
  rfl

theorem readScalar_filter {f : Filter} (again : Filter.read f.render = .ok f) :
    readScalar (.target .targetFilter) f.render = .ok f.render := by
  show (Filter.read f.render).map Filter.render = _
  rw [again]
  rfl

theorem readScalar_addresses {l : AddressList} (again : AddressList.read l.render = .ok l) :
    readScalar (.bind .ip) l.render = .ok l.render := by
  show (AddressList.read l.render).map AddressList.render = _
  rw [again]
  rfl

theorem readScalar_host {h : HostName} (again : HostName.read h.render = .ok h) :
    readScalar (.bind .dns) h.render = .ok h.render := by
  show (HostName.read h.render).map HostName.render = _
  rw [again]
  rfl

theorem readScalar_authentication (a : Authentication) :
    readScalar (.bind .authMethod) a.name = .ok a.name := by
  show (Authentication.read a.name).map Authentication.name = _
  rw [a.read_name]
  rfl

theorem readScalar_weekdays {w : Weekdays} (again : Weekdays.read w.render = .ok w) :
    readScalar (.bind .dayOfWeek) w.render = .ok w.render := by
  show (Weekdays.read w.render).map Weekdays.render = _
  rw [again]
  rfl

theorem readScalar_strength (s : Strength) :
    readScalar (.bind .ssf) s.render = .ok s.render := by
  show (Strength.read s.render).map Strength.render = _
  rw [s.read_render]
  rfl

theorem readScalar_clock (clock : ClockTime) :
    readScalar (.bind .timeOfDay) clock.render = .ok clock.render := by
  show (TimeOfDay.read clock.render).map TimeOfDay.render = _
  rw [TimeOfDay.read_clock]
  rfl

end Expression

end DirectoryAccess
