import DirectoryAccess.Grammar.Rule
import DirectoryAccess.Proofs.Grammar.Reading
import DirectoryAccess.Proofs.Text.Trimming

/-!
# Written forms

The ways of writing a condition and a bind rule: words in any case of letters, gaps of any length
where gaps may stand. The relations say nothing about how a text is read; that the grammar reads a
text as a tree just when the text is a written form of the tree is proved afterwards.
-/
namespace DirectoryAccess.Grammar

open Reader (IsGap Ends Repeated Listed)

/-! ### Words, gaps and quotes -/

/-- The text is the word, the case of ASCII letters aside. -/
def Spells (word : String) (cs : List Char) : Prop :=
  Text.lower cs = Text.lower word.toList

instance (word : String) (cs : List Char) : Decidable (Spells word cs) :=
  inferInstanceAs (Decidable (Text.lower cs = Text.lower word.toList))

/-- The text is a spelling of the keyword. -/
def SpellsKeyword (k : Keyword) (cs : List Char) : Prop :=
  cs ≠ [] ∧ (∀ c ∈ cs, isWordChar c = true) ∧ Keyword.ofName? (String.ofList cs) = some k

/-- The text is a name of the keyword, in any case of letters. One keyword has two names. -/
def NamesKeyword (k : Keyword) (cs : List Char) : Prop :=
  Spells k.name cs ∨ k = .target .targetAttrFilters ∧ Spells TargetKeyword.otherName cs

/-- Behind its gaps the text does not go on with one of the characters, in either case. -/
def Clear (stops : List Char) (rest : List Char) : Prop :=
  ∀ c ∈ (rest.dropWhile Text.isGap).head?, c.toLower ∉ stops

/-- The text is the value between double quotes, and the value has no double quote. -/
def WritesQuoted (v : String) (cs : List Char) : Prop :=
  cs = '"' :: (v.toList ++ ['"']) ∧ '"' ∉ v.toList

/-- The text is the sign with gaps around it. -/
def WritesSign (sign : String) (cs : List Char) : Prop :=
  ∃ g h, cs = g ++ (sign.toList ++ h) ∧ IsGap g ∧ IsGap h

/-- The text is the quoted values with double bars between them. -/
def WritesValues (vs : List String) (cs : List Char) : Prop :=
  Listed (WritesSign "||") WritesQuoted vs cs

theorem isGap_nil : IsGap [] := by
  intro c hc
  cases hc

theorem isGap_blank : IsGap [' '] := by
  intro c hc
  rw [List.mem_singleton.mp hc]
  rfl

theorem ends_nil {p : Char → Bool} : Ends p [] := by
  intro c hc
  cases hc

theorem ends_cons {p : Char → Bool} {c : Char} {r : List Char} : Ends p (c :: r) ↔ p c = false := by
  simp [Ends]

/-- Whether a text that is not empty ends a word shows in its own first character. -/
theorem ends_append {p : Char → Bool} {cs rest : List Char} (full : cs ≠ []) :
    Ends p (cs ++ rest) ↔ Ends p cs := by
  cases cs with
  | nil => exact absurd rfl full
  | cons c r => simp [Ends]

theorem spells_self (word : String) : Spells word word.toList :=
  rfl

theorem isBlank_of_isWordChar {c : Char} (h : isWordChar c = true) : Text.isBlank c = false := by
  simp only [isWordChar, Bool.or_eq_true, beq_iff_eq] at h
  rcases h with h | rfl
  · exact Text.isBlank_of_isAlphanum h
  · decide

theorem isWordChar_of_isGap {c : Char} (h : Text.isGap c = true) : isWordChar c = false := by
  rw [Bool.eq_false_iff]
  intro hw
  have := Text.isBlank_of_isGap h
  rw [isBlank_of_isWordChar hw] at this
  cases this

theorem isWordChar_of_toLower {c : Char} (h : isWordChar c.toLower = true) :
    isWordChar c = true := by
  unfold Char.toLower at h
  split at h
  · next capital =>
    have upper : c.isUpper = true := decide_eq_true capital
    have letter : c.isAlpha = (c.isUpper || c.isLower) := rfl
    simp [isWordChar, Char.isAlphanum, letter, upper]
  · exact h

theorem trimmed_of_isWordChar {s : String} (own : ∀ c ∈ s.toList, isWordChar c = true) :
    Text.trimmed s = s := by
  unfold Text.trimmed
  rw [(Text.isTrimmed_of_forall fun c hc => isBlank_of_isWordChar (own c hc)).trim_eq,
    String.ofList_toList]

/-- Which keyword a word names does not depend on the case of its letters. -/
theorem ofName?_congr {s t : String} (h : Text.lower s.toList = Text.lower t.toList)
    (hs : ∀ c ∈ s.toList, isWordChar c = true) (ht : ∀ c ∈ t.toList, isWordChar c = true) :
    Keyword.ofName? s = Keyword.ofName? t := by
  unfold Keyword.ofName? TargetKeyword.ofName? BindKeyword.ofName?
  dsimp only
  rw [trimmed_of_isWordChar hs, trimmed_of_isWordChar ht, Text.sameWord_congr h]
  simp only [Text.findNamed_congr h]

theorem spellsKeyword_of_spells {k : Keyword} {name : String} {cs : List Char}
    (named : Keyword.ofName? name = some k) (full : name.toList ≠ [])
    (own : ((Text.lower name.toList).all isWordChar) = true) (h : Spells name cs) :
    SpellsKeyword k cs := by
  have wordChars : ∀ ds, Text.lower ds = Text.lower name.toList →
      ∀ c ∈ ds, isWordChar c = true := by
    intro ds same c hc
    have mem : c.toLower ∈ Text.lower name.toList := same ▸ List.mem_map_of_mem hc
    exact isWordChar_of_toLower (List.all_eq_true.mp own _ mem)
  refine ⟨?_, wordChars cs h, ?_⟩
  · rintro rfl
    exact full (List.map_eq_nil_iff.mp h.symm)
  · have same : Text.lower (String.ofList cs).toList = Text.lower name.toList := by
      rw [String.toList_ofList]
      exact h
    rw [← named]
    exact ofName?_congr same (wordChars _ same) (wordChars _ rfl)

theorem NamesKeyword.spells {k : Keyword} {cs : List Char} (h : NamesKeyword k cs) :
    SpellsKeyword k cs := by
  rcases h with h | ⟨rfl, h⟩
  · refine spellsKeyword_of_spells (Keyword.ofName?_name k) ?_ ?_ h
    · rcases k with k | k <;> cases k <;> decide
    · rcases k with k | k <;> cases k <;> decide
  · exact spellsKeyword_of_spells (by decide) (by decide) (by decide) h

theorem namesKeyword_name (k : Keyword) : NamesKeyword k k.name.toList :=
  .inl (spells_self k.name)

/-- Up to the case of letters a spelling of a keyword is its name, or the one other name that a
keyword has. -/
theorem SpellsKeyword.lower {k : Keyword} {cs : List Char} (h : SpellsKeyword k cs) :
    Text.lower cs = Text.lower k.name.toList ∨
      Text.lower cs = Text.lower TargetKeyword.otherName.toList := by
  obtain ⟨_, own, named⟩ := h
  have trimmed : Text.trimmed (String.ofList cs) = String.ofList cs :=
    trimmed_of_isWordChar (by rwa [String.toList_ofList])
  unfold Keyword.ofName? TargetKeyword.ofName? BindKeyword.ofName? at named
  dsimp only at named
  rw [trimmed] at named
  split at named
  · next other =>
    right
    have := Text.sameWord_iff.mp other
    rwa [String.toList_ofList] at this
  · left
    cases ht : Text.findNamed TargetKeyword.name TargetKeyword.all (String.ofList cs) with
    | some t =>
      rw [ht] at named
      have := Text.sameWord_iff.mp (Text.sameWord_of_findNamed ht)
      rw [String.toList_ofList] at this
      rw [← Option.some.inj named]
      exact this.symm
    | none =>
      rw [ht] at named
      simp only [Option.map_none, Option.none_or, Option.map_eq_some_iff] at named
      obtain ⟨b, hb, rfl⟩ := named
      have := Text.sameWord_iff.mp (Text.sameWord_of_findNamed hb)
      rw [String.toList_ofList] at this
      exact this.symm

/-- No keyword begins as the word for negation or the word in front of the version does. -/
theorem SpellsKeyword.head_not_mem {k : Keyword} {c : Char} {r : List Char}
    (h : SpellsKeyword k (c :: r)) : c.toLower ∉ ['n', 'v'] := by
  have names : ∀ l : Keyword, ((Text.lower l.name.toList).head?.all (· ∉ ['n', 'v'])) = true := by
    intro l
    rcases l with l | l <;> cases l <;> decide
  have other : ((Text.lower TargetKeyword.otherName.toList).head?.all (· ∉ ['n', 'v'])) = true := by
    decide
  have first : (Text.lower (c :: r)).head? = some c.toLower := by
    simp [Text.lower]
  rcases h.lower with h | h
  · have apart := names k
    rw [← h, first] at apart
    exact of_decide_eq_true apart
  · rw [← h, first] at other
    exact of_decide_eq_true other

/-! ### What may follow -/

theorem clear_nil {stops : List Char} : Clear stops [] := by
  intro c hc
  cases hc

theorem clear_cons {stops : List Char} {c : Char} {r : List Char} (solid : Text.isGap c = false) :
    Clear stops (c :: r) ↔ c.toLower ∉ stops := by
  simp [Clear, solid]

theorem clear_append {stops g rest : List Char} (hg : IsGap g) :
    Clear stops (g ++ rest) ↔ Clear stops rest := by
  unfold Clear
  rw [List.dropWhile_append_of_pos hg]

theorem Clear.mono {stops stops' rest : List Char} (h : Clear stops rest)
    (sub : ∀ c ∈ stops', c ∈ stops) : Clear stops' rest :=
  fun c hc mem => h c hc (sub _ mem)

/-- Where the first letter of a word must not follow, the word with its gap is not read. -/
theorem declines_word_of_clear {α : Type} {p : Reader α} {text : String} {c : Char}
    {r rest : List Char} (spelt : text.toList = c :: r) (h : Clear [c.toLower] rest) :
    Reader.Declines (do Reader.skipGap; Reader.word text; p) rest := by
  refine Reader.declines_bind_of_read (Reader.skipGap_read rest)
    (Reader.declines_bind (Reader.declines_word ?_))
  rw [spelt]
  cases hr : rest.dropWhile Text.isGap with
  | nil => rfl
  | cons d s =>
    have other : d.toLower ∉ [c.toLower] := h d (by rw [hr]; rfl)
    rw [Text.afterWord?, if_neg]
    intro same
    exact other (by simp [same])

theorem declines_sign_of_clear {α : Type} {p : Reader α} {text : String} {c : Char}
    {r rest : List Char} (spelt : text.toList = c :: r) (h : Clear [c.toLower] rest) :
    Reader.Declines (do Reader.skipGap; Reader.sign text; p) rest := by
  refine Reader.declines_bind_of_read (Reader.skipGap_read rest)
    (Reader.declines_bind (Reader.declines_sign ?_))
  rw [spelt]
  cases hr : rest.dropWhile Text.isGap with
  | nil => rfl
  | cons d s =>
    have other : d.toLower ∉ [c.toLower] := h d (by rw [hr]; rfl)
    rw [Text.after?, if_neg]
    rintro rfl
    exact other (by simp)

end DirectoryAccess.Grammar
