import DirectoryAccess.Condition.Values
import DirectoryAccess.Proofs.Checks
import DirectoryAccess.Proofs.Grammar.Reading
import DirectoryAccess.Proofs.Text.Numeral
import DirectoryAccess.Proofs.Text.Trimming
import DirectoryAccess.Proofs.Values.Lists
import Mathlib.Data.List.Nodup

/-!
# Matches are read from what they are written as

An attribute with what it is matched with, and the same at levels of inheritance.
-/
namespace DirectoryAccess

open Grammar Grammar.Reader

/-! ### The grammar of matches -/

namespace Grammar

theorem attributeMatch_eq_read {input rest : List Char} {n v : String} :
    attributeMatch input = .read (n, v) rest ↔
      input = n.toList ++ '#' :: v.toList ∧ rest = [] ∧ n.toList ≠ [] ∧ '#' ∉ n.toList ∧
        v.toList ≠ [] := by
  have hash : "#".toList = ['#'] := by decide
  unfold attributeMatch
  rw [described_eq_read]
  simp only [bind_eq_read, pure_eq_read, run1_eq_read, sign_eq_read, select_eq_read, hash]
  constructor
  · rintro ⟨name, _, ⟨full, rfl, own, -⟩, _, _, rfl, value, _, ⟨all, taken, some'⟩, same, rfl⟩
    obtain ⟨rfl, rfl⟩ := Outcome.read.inj taken
    obtain ⟨rfl, rfl⟩ := Prod.mk.inj same
    split at some'
    · cases some'
    next valued =>
    obtain rfl := Option.some.inj some'
    simp only [String.toList_ofList]
    refine ⟨by simp, trivial, full, ?_, by simpa using valued⟩
    intro mem
    simpa using own '#' mem
  · rintro ⟨rfl, rfl, full, free, valued⟩
    refine ⟨n.toList, '#' :: v.toList, ⟨full, rfl, ?_, ?_⟩, (), v.toList, rfl, v.toList, [],
      ⟨v.toList, rfl, ?_⟩, by simp, rfl⟩
    · intro c hc
      have differs : c ≠ '#' := fun same => free (same ▸ hc)
      simpa using differs
    · intro c hc
      obtain rfl : '#' = c := by simpa using hc
      decide
    · rw [if_neg (by simpa using valued)]

theorem attributeMatch_readText {cs : List Char} {n v : String} :
    attributeMatch.readText cs = .ok (n, v) ↔
      cs = n.toList ++ '#' :: v.toList ∧ n.toList ≠ [] ∧ '#' ∉ n.toList ∧ v.toList ≠ [] := by
  rw [readText_eq_ok, readAll_eq_ok, attributeMatch_eq_read]
  simp

end Grammar

/-! ### Matches -/

theorem AttributeType.isName_of_validate {text : String} (h : (ofText text).validate = .ok ()) :
    isName (Text.trim text.toList) = true ∧
      ofText text = ⟨some (String.ofList (Text.trim text.toList))⟩ := by
  unfold ofText at h ⊢
  dsimp only at h ⊢
  by_cases named : isName (Text.trim text.toList) = true
  · exact ⟨named, if_pos named⟩
  · rw [if_neg named] at h
    cases h

theorem AttributeType.ofText_trimmed {text : String}
    (named : isName (Text.trim text.toList) = true) :
    ofText (String.ofList (Text.trim text.toList)) =
      ⟨some (String.ofList (Text.trim text.toList))⟩ := by
  unfold ofText
  dsimp only
  rw [String.toList_ofList, Text.trim_trim, if_pos named]

namespace AttributeMatch

theorem attribute_of_validate {m : AttributeMatch} (h : m.validate = .ok ()) :
    m.attributeType.validate = .ok () := by
  unfold validate at h
  dsimp only at h
  obtain ⟨_, h₁⟩ := unless_throw_eq_ok.mp h
  obtain ⟨_, named, _⟩ := bind_eq_ok.mp h₁
  exact named

theorem toList_render {k : Keyword} {n v : String}
    (valid : validate ⟨k, .ofText n, .ofText v⟩ = .ok ()) :
    (render ⟨k, .ofText n, .ofText v⟩).toList = Text.trim n.toList ++ '#' :: v.toList := by
  obtain ⟨_, named⟩ := AttributeType.isName_of_validate (attribute_of_validate valid)
  have hash : "#".toList = ['#'] := by decide
  unfold render
  rw [valid]
  dsimp only
  rw [MatchValue.render_ofText, named, String.toList_append, String.toList_append, hash]
  unfold AttributeType.render
  simp

theorem read_eq_ok_iff {k : Keyword} {text : String} {m : AttributeMatch} :
    read k text = .ok m ↔
      ∃ n v : String, Text.trim text.toList = n.toList ++ '#' :: v.toList ∧ n.toList ≠ [] ∧
        '#' ∉ n.toList ∧ v.toList ≠ [] ∧ m = ⟨k, .ofText n, .ofText v⟩ ∧ m.validate = .ok () := by
  unfold read
  rw [bind_eq_ok]
  constructor
  · rintro ⟨⟨n, v⟩, parts, rest⟩
    obtain ⟨split, full, free, valued⟩ := attributeMatch_readText.mp parts
    obtain ⟨_, valid, made⟩ := bind_eq_ok.mp rest
    obtain rfl := pure_eq_ok.mp made
    exact ⟨n, v, split, full, free, valued, rfl, mapError_eq_ok.mp valid⟩
  · rintro ⟨n, v, split, full, free, valued, rfl, valid⟩
    refine ⟨(n, v), attributeMatch_readText.mpr ⟨split, full, free, valued⟩, ?_⟩
    exact bind_eq_ok.mpr ⟨(), mapError_eq_ok.mpr valid, rfl⟩

theorem read_render {k : Keyword} {text : String} {m : AttributeMatch} (h : read k text = .ok m) :
    read k m.render = .ok m := by
  obtain ⟨n, v, split, full, free, valued, rfl, valid⟩ := read_eq_ok_iff.mp h
  obtain ⟨named, made⟩ := AttributeType.isName_of_validate (attribute_of_validate valid)
  have name_ne_nil := isName_ne_nil named
  have written := toList_render valid
  have trimmed : Text.IsTrimmed (Text.trim n.toList ++ '#' :: v.toList) := by
    refine ⟨?_, ?_⟩
    · intro c hc
      rw [List.head?_append_of_ne_nil _ name_ne_nil] at hc
      exact (Text.isTrimmed_trim _).1 c hc
    · intro c hc
      refine (Text.isTrimmed_trim text.toList).2 c ?_
      rw [split]
      simpa [List.getLast?_append, List.getLast?_cons] using hc
  refine read_eq_ok_iff.mpr ⟨String.ofList (Text.trim n.toList), v, ?_, ?_, ?_, valued, ?_, valid⟩
  · rw [written, trimmed.trim_eq, String.toList_ofList]
  · rw [String.toList_ofList]
    exact name_ne_nil
  · rw [String.toList_ofList]
    exact not_mem_of_isName named (by decide) (by decide)
  · rw [AttributeType.ofText_trimmed named, made]

/-- No name of an attribute lets a match begin like an inheritance. -/
theorem not_after?_parent {cs rest : List Char} (named : AttributeType.isName cs = true) :
    Text.after? "parent[".toList (cs ++ '#' :: rest) = none := by
  have start : "parent[".toList = ['p', 'a', 'r', 'e', 'n', 't', '['] := by decide
  have bracket : '[' ∉ cs := not_mem_of_isName named (by decide) (by decide)
  rw [start]
  -- Either the number sign or a character of the name stands where the start goes on otherwise.
  match cs with
  | [] => rfl
  | [a] => simp [Text.after?]
  | [a, b] => simp [Text.after?]
  | [a, b, c] => simp [Text.after?]
  | [a, b, c, d] => simp [Text.after?]
  | [a, b, c, d, e] => simp [Text.after?]
  | [a, b, c, d, e, f] => simp [Text.after?]
  | a :: b :: c :: d :: e :: f :: g :: r =>
    have differs : '[' ≠ g := by
      rintro rfl
      exact bracket (by simp)
    simp [Text.after?, differs]

end AttributeMatch

/-! ### Inheritance -/

theorem Level.ofNat?_eq_some_iff {n : Nat} {l : Level} : ofNat? n = some l ↔ n = l.val := by
  unfold ofNat?
  split
  · next bound =>
    rw [Option.some.injEq, Fin.ext_iff]
  · next large =>
    refine iff_of_false (by rintro ⟨⟩) ?_
    rintro rfl
    exact large l.isLt

namespace Grammar

theorem digit_of_level :
    ∀ l : Level, ∃ c, l.render.toList = [c] ∧ c.isDigit = true ∧ Text.numberOf [c] = l.val ∧
      (c = '0' → l.val = 0) := by
  intro l
  have all : ∀ n : Fin 10, (toString n.val).toList = [n.val.digitChar] ∧
      n.val.digitChar.isDigit = true ∧ Text.numberOf [n.val.digitChar] = n.val ∧
      (n.val.digitChar = '0' → n.val = 0) := by
    decide
  exact ⟨_, all l⟩

theorem level_read (l : Level) {rest : List Char} (ends : Ends Char.isDigit rest) :
    level (l.render.toList ++ rest) = .read l.val rest := by
  obtain ⟨c, written, digit, value, zero⟩ := digit_of_level l
  obtain ⟨taken, dropped⟩ := span_eq_iff.mpr
    (⟨rfl, by simp, ends⟩ : rest = [] ++ rest ∧ (∀ c ∈ [], Char.isDigit c = true) ∧ Ends _ rest)
  unfold level
  refine labelled_eq_read.mpr (select_eq_read.mpr ⟨l.val, ?_, ?_⟩)
  · rw [written]
    show number (c :: rest) = _
    unfold number
    dsimp only
    by_cases null : c = '0'
    · rw [if_pos null, zero null]
    · rw [if_neg null, if_pos digit, ← taken, ← dropped, value]
  · rw [Level.ofNat?_eq_some_iff.mpr rfl]
    rfl

theorem number_of_read {n : Nat} {input rest : List Char} (h : number input = .read n rest) :
    input = (toString n).toList ++ rest := by
  unfold number at h
  split at h
  · cases h
  next c r =>
  split at h
  · next zero =>
    obtain ⟨rfl, rfl⟩ := Outcome.read.inj h
    rw [zero]
    rfl
  next lead =>
  split at h
  · next digit =>
    obtain ⟨rfl, rfl⟩ := Outcome.read.inj h
    have digits : ∀ d ∈ r.takeWhile Char.isDigit, d.isDigit = true :=
      List.all_eq_true.mp List.all_takeWhile
    rw [Text.toString_numberOf lead (List.forall_mem_cons.mpr ⟨digit, digits⟩), List.cons_append,
      List.takeWhile_append_dropWhile]
  · cases h

theorem level_of_read {n : Nat} {input rest : List Char} (h : level input = .read n rest) :
    ∃ l : Level, n = l.val ∧ input = l.render.toList ++ rest := by
  obtain ⟨m, read, found⟩ := select_eq_read.mp (labelled_eq_read.mp h)
  obtain ⟨l, level, rfl⟩ := Option.map_eq_some_iff.mp found
  obtain rfl := Level.ofNat?_eq_some_iff.mp level
  exact ⟨l, rfl, number_of_read read⟩

theorem levels_read {ls : List Level} (full : ls ≠ []) (rest : List Char) :
    levels ("parent[".toList ++ ((",".intercalate (ls.map Level.render)).toList ++ (']' :: rest))) =
      .read (ls.map Fin.val) rest := by
  have comma : ",".toList = [','] := by decide
  have listed : Listed (· = [',']) (fun n cs => ∃ l : Level, n = l.val ∧ cs = l.render.toList)
      (ls.map Fin.val) (",".intercalate (ls.map Level.render)).toList := by
    rw [String.toList_intercalate, comma, List.map_map]
    exact listed_intercalate (S := (· = [','])) rfl full fun l _ => ⟨l, rfl, rfl⟩
  have read : separated level (sign ",")
      ((",".intercalate (ls.map Level.render)).toList ++ (']' :: rest)) =
        .read (ls.map Fin.val) (']' :: rest) := by
    refine listed.separated_read (Ends Char.isDigit) ?_ ?_ ?_ ?_ ?_ ?_
    · rintro _ _ rest ⟨l, rfl, rfl⟩ ends
      exact level_read l ends
    · rintro s n cs rest rfl _
      exact sign_eq_read.mpr (by rw [comma])
    · rintro s rfl
      simp
    · rintro s rest rfl
      simp [Ends]
    · simp [Ends]
    · refine declines_sign ?_
      rw [comma]
      simp [Text.after?]
  unfold levels
  refine bind_eq_read.mpr ⟨(), _, sign_eq_read.mpr rfl, ?_⟩
  refine bind_eq_read.mpr ⟨_, _, commit_eq_read.mpr read, ?_⟩
  exact bind_eq_read.mpr ⟨(), rest, by simp, rfl⟩

/-- The levels that are read are those that are written, and in the same order. -/
theorem levels_eq_read {ns : List Nat} {input rest : List Char} :
    levels input = .read ns rest ↔
      ∃ ls : List Level, ls ≠ [] ∧ ns = ls.map Fin.val ∧ input = "parent[".toList ++
        ((",".intercalate (ls.map Level.render)).toList ++ (']' :: rest)) := by
  have comma : ",".toList = [','] := by decide
  have closing : "]".toList = [']'] := by decide
  constructor
  · intro h
    obtain ⟨_, inner, start, h₁⟩ := bind_eq_read.mp h
    obtain ⟨ms, outer, read, h₂⟩ := bind_eq_read.mp h₁
    obtain ⟨_, _, close, made⟩ := bind_eq_read.mp h₂
    obtain ⟨rfl, rfl⟩ := pure_eq_read.mp made
    have taken : ∃ text, inner = text ++ outer ∧
        Listed (· = [',']) (fun n cs => ∃ l : Level, n = l.val ∧ cs = l.render.toList) ms text := by
      refine listed_of_separated_read ?_ ?_ ?_ (commit_eq_read.mp read)
      · intro input n rest one
        obtain ⟨l, rfl, rfl⟩ := level_of_read one
        exact ⟨_, rfl, l, rfl, rfl⟩
      · intro input u rest between
        exact ⟨_, sign_eq_read.mp between, comma⟩
      · rintro s rfl
        simp
    obtain ⟨text, rfl, listed⟩ := taken
    obtain ⟨ls, full, rfl, rfl⟩ := listed.exists_intercalate
    refine ⟨ls, full, rfl, ?_⟩
    rw [sign_eq_read.mp start, require_eq_read.mp close, closing, String.toList_intercalate, comma,
      List.map_map]
    rfl
  · rintro ⟨ls, full, rfl, rfl⟩
    exact levels_read full rest

/-- What is read of an inheritance: its levels, and what stands in front of the first number sign
and behind it. -/
theorem inheritance_readText {cs : List Char} {ns : List Nat} {n v : String} :
    inheritance.readText cs = .ok (ns, n, v) ↔
      ∃ ls : List Level, ls ≠ [] ∧ ns = ls.map Fin.val ∧
        cs = "parent[".toList ++ ((",".intercalate (ls.map Level.render)).toList ++
          (']' :: '.' :: (n.toList ++ '#' :: v.toList))) ∧
        n.toList ≠ [] ∧ '#' ∉ n.toList ∧ v.toList ≠ [] := by
  have dot : ".".toList = ['.'] := by decide
  rw [readText_eq_ok, readAll_eq_ok]
  unfold inheritance
  simp only [bind_eq_read, pure_eq_read, levels_eq_read, require_eq_read, commit_eq_read, dot]
  constructor
  · rintro ⟨_, _, ⟨ls, full, rfl, rfl⟩, _, _, rfl, ⟨n', v'⟩, _, parts, same, rfl⟩
    obtain ⟨rfl, same'⟩ := Prod.mk.inj same
    obtain ⟨rfl, rfl⟩ := Prod.mk.inj same'
    obtain ⟨rfl, _, named, free, valued⟩ := attributeMatch_eq_read.mp parts
    exact ⟨ls, full, rfl, rfl, named, free, valued⟩
  · rintro ⟨ls, full, rfl, rfl, named, free, valued⟩
    exact ⟨_, _, ⟨ls, full, rfl, rfl⟩, (), _, rfl, (n, v), [],
      attributeMatch_eq_read.mpr ⟨rfl, rfl, named, free, valued⟩, rfl, rfl⟩

end Grammar

namespace Inheritance

/-- A number is pushed if it is one of a level, and a new one. -/
theorem pushLevel?_eq_ok_iff {i j : Inheritance} {n : Nat} :
    i.pushLevel? n = .ok j ↔
      ∃ l : Level, n = l.val ∧ l ∉ i.levels ∧ j = { i with levels := i.levels ++ [l] } := by
  simp only [← Level.ofNat?_eq_some_iff]
  unfold pushLevel?
  cases Level.ofNat? n with
  | none => simp
  | some l =>
    simp only [Option.some.injEq, exists_eq_left']
    split
    · next present =>
      refine iff_of_false (by rintro ⟨⟩) ?_
      rintro ⟨new, _⟩
      exact new present
    · next new =>
      rw [Except.ok.injEq, eq_comm, and_iff_right new]

theorem nodup_levels_append {i : Inheritance} {l : Level} :
    (i.levels ++ [l]).Nodup ↔ l ∉ i.levels ∧ i.levels.Nodup := by
  rw [List.nodup_middle, List.append_nil, List.nodup_cons]

/-- Levels are added, all of them, as long as none comes twice. -/
theorem foldlM_pushLevel?_eq_ok_iff {i j : Inheritance} {ls : List Level}
    (distinct : i.levels.Nodup) :
    (ls.map Fin.val).foldlM pushLevel? i = .ok j ↔
      (i.levels ++ ls).Nodup ∧ j = { i with levels := i.levels ++ ls } := by
  induction ls generalizing i with
  | nil =>
    rw [List.map_nil, List.foldlM_nil, pure_eq_ok, List.append_nil]
    exact ⟨fun same => ⟨distinct, same.symm⟩, fun both => both.2.symm⟩
  | cons l ls ih =>
    have joined : i.levels ++ l :: ls = (i.levels ++ [l]) ++ ls := by simp
    rw [List.map_cons, List.foldlM_cons, bind_eq_ok]
    constructor
    · rintro ⟨u, pushed, others⟩
      obtain ⟨m, same, new, rfl⟩ := pushLevel?_eq_ok_iff.mp pushed
      obtain rfl : l = m := Fin.ext same
      rw [joined]
      exact (ih (nodup_levels_append.mpr ⟨new, distinct⟩)).mp others
    · rw [joined]
      rintro ⟨whole, rfl⟩
      have grown := (List.nodup_append.mp whole).1
      have new := (nodup_levels_append.mp grown).1
      exact ⟨_, pushLevel?_eq_ok_iff.mpr ⟨l, rfl, new, rfl⟩, (ih grown).mpr ⟨whole, rfl⟩⟩

theorem ofLevels?_eq_ok_iff {m : AttributeMatch} {ls : List Level} {i : Inheritance} :
    ofLevels? m (ls.map Fin.val) = .ok i ↔
      ls.Nodup ∧ i = ⟨ls, some m⟩ ∧ i.validate = .ok () := by
  have pushed (j : Inheritance) : (ls.map Fin.val).foldlM pushLevel? { value := some m } = .ok j ↔
      ls.Nodup ∧ j = ⟨ls, some m⟩ := foldlM_pushLevel?_eq_ok_iff List.nodup_nil
  unfold ofLevels?
  simp only [bind_eq_ok, pure_eq_ok, pushed]
  constructor
  · rintro ⟨_, ⟨distinct, rfl⟩, _, valid, rfl⟩
    exact ⟨distinct, rfl, valid⟩
  · rintro ⟨distinct, rfl, valid⟩
    exact ⟨_, ⟨distinct, rfl⟩, (), valid, rfl⟩

theorem validate_eq_ok_iff {i : Inheritance} :
    i.validate = .ok () ↔
      ∃ m, i.value = some m ∧ i.levels ≠ [] ∧ m.validate = .ok () ∧
        AttributeType.isIdentifier (m.attributeType.name.getD "") = true := by
  unfold validate
  cases value : i.value with
  | none => simp
  | some m =>
    dsimp only
    rw [unless_throw_eq_ok, bind_eq_ok]
    constructor
    · rintro ⟨full, _, valid, named⟩
      split at named
      · cases named
      · next identifier =>
        exact ⟨m, rfl, by simpa using full, valid, by simpa using identifier⟩
    · rintro ⟨_, same, full, valid, identifier⟩
      obtain rfl := Option.some.inj same
      exact ⟨by simpa using full, (), valid, if_neg (by simp [identifier])⟩

theorem parts_of_validate {i : Inheritance} {m : AttributeMatch} (value : i.value = some m)
    (h : i.validate = .ok ()) : i.levels ≠ [] ∧ m.validate = .ok () := by
  obtain ⟨_, same, full, valid, _⟩ := validate_eq_ok_iff.mp h
  obtain rfl := Option.some.inj (value.symm.trans same)
  exact ⟨full, valid⟩

/-- A name that begins with a small letter has no blanks around it and no number sign in it. -/
theorem trim_of_isIdentifier {name : String} (h : AttributeType.isIdentifier name = true) :
    Text.trim name.toList = name.toList ∧ '#' ∉ name.toList ∧ name.toList ≠ [] := by
  unfold AttributeType.isIdentifier AttributeType.isNameFrom at h
  simp only [Bool.and_eq_true] at h
  obtain ⟨⟨head, last⟩, chars⟩ := h
  refine ⟨Text.trim_eq_self ?_ ?_, ?_, ?_⟩
  · intro c hc
    rw [Option.mem_def.mp hc] at head
    refine Text.isBlank_of_isAlphanum ?_
    simp only [Option.any_some] at head
    have letter : c.isAlpha = (c.isUpper || c.isLower) := rfl
    simp [Char.isAlphanum, letter, head]
  · intro c hc
    rw [Option.mem_def.mp hc] at last
    exact Text.isBlank_of_isAlphanum (by simpa using last)
  · intro mem
    have own := List.all_eq_true.mp chars '#' mem
    revert own
    decide
  · intro empty
    rw [empty] at head
    cases head

theorem toList_render {i : Inheritance} {m : AttributeMatch} (value : i.value = some m)
    (valid : i.validate = .ok ()) :
    i.render.toList = "parent[".toList ++ ((",".intercalate (i.levels.map Level.render)).toList ++
      (']' :: '.' :: m.render.toList)) := by
  have closing : "].".toList = [']', '.'] := by decide
  unfold render
  rw [value, valid]
  simp only [String.toList_append, closing, List.append_assoc, List.cons_append, List.nil_append]

/-- Which texts are read as which inheritances. -/
theorem read_eq_ok_iff {k : Keyword} {text : String} {i : Inheritance} :
    read k text = .ok i ↔
      ∃ (ls : List Level) (n v : String),
        text.toList = "parent[".toList ++ ((",".intercalate (ls.map Level.render)).toList ++
          (']' :: '.' :: (n.toList ++ '#' :: v.toList))) ∧
        AttributeType.isIdentifier n = true ∧ v.toList ≠ [] ∧ ls.Nodup ∧
        i = ⟨ls, some ⟨k, .ofText n, .ofText v⟩⟩ ∧ i.validate = .ok () := by
  unfold read readBare
  dsimp only
  rw [mapError_eq_ok, unless_throw_eq_ok, bind_eq_ok]
  constructor
  · rintro ⟨_, ⟨ns, n, v⟩, parsed, rest⟩
    obtain ⟨ls, _, rfl, written, _, _, valued⟩ := inheritance_readText.mp parsed
    obtain ⟨identifier, made⟩ := unless_throw_eq_ok.mp rest
    obtain ⟨distinct, rfl, valid⟩ := ofLevels?_eq_ok_iff.mp (mapError_eq_ok.mp made)
    exact ⟨ls, n, v, written, by simpa using identifier, valued, distinct, rfl, valid⟩
  · rintro ⟨ls, n, v, written, identifier, valued, distinct, rfl, valid⟩
    obtain ⟨_, free, named⟩ := trim_of_isIdentifier identifier
    obtain ⟨full, _⟩ := parts_of_validate rfl valid
    refine ⟨?_, (ls.map Fin.val, n, v),
      inheritance_readText.mpr ⟨ls, full, rfl, written, named, free, valued⟩,
      unless_throw_eq_ok.mpr ⟨by simp [identifier], ?_⟩⟩
    · intro empty
      rw [String.isEmpty_iff.mp empty] at written
      simp at written
    · exact mapError_eq_ok.mpr (ofLevels?_eq_ok_iff.mpr ⟨distinct, rfl, valid⟩)

/-- Nothing of a text that is read gets lost. -/
theorem render_of_read {k : Keyword} {text : String} {i : Inheritance} (h : read k text = .ok i) :
    i.render = text := by
  obtain ⟨ls, n, v, written, identifier, _, _, rfl, valid⟩ := read_eq_ok_iff.mp h
  obtain ⟨trimmed, _, _⟩ := trim_of_isIdentifier identifier
  obtain ⟨_, valid'⟩ := parts_of_validate rfl valid
  rw [← String.toList_inj, toList_render rfl valid, AttributeMatch.toList_render valid', trimmed,
    written]

end Inheritance

/-- What a match is read as is read again, be it at levels or not. -/
theorem Expression.readMatch_again {k : Keyword} {text written : String}
    (h : readMatch k text = .ok written) : readMatch k written = .ok written := by
  unfold readMatch at h
  split at h
  · next start =>
    obtain ⟨i, read, rfl⟩ := map_eq_ok.mp h
    rw [Inheritance.render_of_read read] at h ⊢
    unfold readMatch
    rw [if_pos start, h]
  · obtain ⟨m, read, rfl⟩ := map_eq_ok.mp h
    obtain ⟨n, v, _, _, _, _, rfl, valid⟩ := AttributeMatch.read_eq_ok_iff.mp read
    obtain ⟨named, _⟩ :=
      AttributeType.isName_of_validate (AttributeMatch.attribute_of_validate valid)
    unfold readMatch
    rw [AttributeMatch.toList_render valid, AttributeMatch.not_after?_parent named,
      AttributeMatch.read_render read]
    rfl

end DirectoryAccess
