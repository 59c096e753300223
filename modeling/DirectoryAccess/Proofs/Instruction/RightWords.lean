import DirectoryAccess.Proofs.Grammar.Recasing
import DirectoryAccess.Proofs.Instruction.Permission
import DirectoryAccess.Proofs.Text.Joining

/-!
# The rights that a written permission names

A permission is written as a word for granting or withholding and, in parentheses, items between
commas. The text is read just when each item is one of the words for rights, in any case of letters
and with any gaps around it. What is read has the rights that the words name together: their order,
their number and their letters make no difference, so a permission is a set of rights.
-/
namespace DirectoryAccess

open Grammar Grammar.Reader

/-! ### Words -/

namespace Grammar.RightWord

theorem sameWord_of_ofText? {s : String} {w : RightWord}
    (letters : ∀ c ∈ s.toList, c.isAlpha = true) (h : ofText? s = some w) :
    Text.sameWord s w.text = true := by
  unfold ofText? at h
  split at h
  · next same =>
    obtain rfl := Option.some.inj h
    exact same
  split at h
  · next same =>
    obtain rfl := Option.some.inj h
    exact same
  · obtain ⟨r, named, rfl⟩ := Option.map_eq_some_iff.mp h
    unfold Right.ofName? at named
    rw [trimmed_of_isWordChar fun c hc => isWordChar_of_isAlpha (letters c hc)] at named
    have same : Text.sameWord r.name s = true := Text.sameWord_of_findNamed named
    rwa [Text.sameWord_comm] at same

/-- What the grammar takes for a word is the word in some case of letters, and nothing else. -/
theorem spellsRight_iff {w : RightWord} {cs : List Char} : SpellsRight w cs ↔ Spells w.text cs := by
  constructor
  · rintro ⟨_, letters, named⟩
    have same := sameWord_of_ofText? (by rwa [String.toList_ofList]) named
    rw [Text.sameWord_iff, String.toList_ofList] at same
    exact same
  · exact w.spells_text.of_lower_eq

end Grammar.RightWord

/-- The words name the right: by itself, or, unless it is the proxy right, with all others. -/
def Covered (words : List RightWord) (r : Right) : Prop :=
  .right r ∈ words ∨ .all ∈ words ∧ r ≠ .proxy

theorem contains_ofRights_filterMap (d : Disposition) (words : List RightWord) (r : Right) :
    (Permission.ofRights d (words.filterMap RightWord.right?)).contains r = true ↔
      .right r ∈ words := by
  show (EnumSet.ofList (words.filterMap RightWord.right?)).contains r = true ↔ _
  rw [EnumSet.contains_ofList, List.contains_iff_mem, List.mem_filterMap]
  constructor
  · rintro ⟨w, mem, own⟩
    cases w with
    | all => cases own
    | none => cases own
    | right s =>
      obtain rfl := Option.some.inj own
      exact mem
  · intro mem
    exact ⟨_, mem, rfl⟩

theorem contains_permissionOf (d : Disposition) (words : List RightWord) (r : Right) :
    (permissionOf d words).contains r = true ↔ Covered words r := by
  have named := contains_ofRights_filterMap d words r
  unfold Covered
  rw [← named]
  unfold permissionOf
  dsimp only
  cases all : words.contains .all with
  | false =>
    have absent : .all ∉ words := by
      rw [← List.contains_iff_mem, all]
      simp
    simp [absent]
  | true =>
    have present : .all ∈ words := List.contains_iff_mem.mp all
    show ((EnumSet.ofList (words.filterMap RightWord.right?)).union Permission.common).contains r =
      true ↔ _
    rw [EnumSet.contains_union, Permission.contains_common, Bool.or_eq_true]
    simp only [present, true_and, bne_iff_ne]
    rfl

theorem disposition_permissionOf (d : Disposition) (words : List RightWord) :
    (permissionOf d words).disposition = some d := by
  unfold permissionOf
  dsimp only
  split <;> rfl

/-- Of the same disposition, words that stand for the same rights make up the same permission. -/
theorem permissionOf_eq_iff (d : Disposition) (words words' : List RightWord) :
    permissionOf d words = permissionOf d words' ↔ ∀ r, Covered words r ↔ Covered words' r := by
  constructor
  · intro same r
    rw [← contains_permissionOf d words, same, contains_permissionOf]
  · intro same
    have disposition : (permissionOf d words).disposition = (permissionOf d words').disposition :=
      (disposition_permissionOf d words).trans (disposition_permissionOf d words').symm
    have rights : (permissionOf d words).rights = (permissionOf d words').rights := by
      ext r
      rw [Bool.eq_iff_iff]
      exact (contains_permissionOf d words r).trans
        ((same r).trans (contains_permissionOf d words' r).symm)
    show Permission.mk (permissionOf d words).disposition (permissionOf d words).rights = _
    rw [disposition, rights]

/-! ### Items between commas -/

/-- The item of a list is the word, in some case of letters and between gaps. -/
def Names (item : List Char) (w : RightWord) : Prop :=
  ∃ g cs h, item = g ++ (cs ++ h) ∧ IsGap g ∧ Spells w.text cs ∧ IsGap h

theorem Names.plain {w : RightWord} {item : List Char} (h : Names item w) :
    ∀ c ∈ item, Text.isGap c = true ∨ c.isAlpha = true := by
  obtain ⟨g, cs, e, rfl, hg, spells, he⟩ := h
  have letters := forall_of_lower_eq isAlpha_congr spells w.spells_text.2.1
  intro c mem
  rcases List.mem_append.mp mem with front | mem
  · exact .inl (hg c front)
  rcases List.mem_append.mp mem with own | back
  · exact .inr (letters c own)
  · exact .inl (he c back)

theorem Names.comma_not_mem {w : RightWord} {item : List Char} (h : Names item w) :
    ',' ∉ item := by
  intro mem
  have plain := h.plain ',' mem
  revert plain
  decide

/-- Items that are words, with commas between them, are a list of the grammar between gaps. -/
theorem listed_of_names {w : RightWord} {words : List RightWord} {item : List Char}
    {items : List (List Char)} (first : Names item w)
    (others : List.Forall₂ Names items words) :
    ∃ h cs e, [','].intercalate (item :: items) = h ++ (cs ++ e) ∧ IsGap h ∧ IsGap e ∧
      Listed (WritesSign ",") SpellsRight (w :: words) cs := by
  induction others generalizing w item with
  | nil =>
    obtain ⟨g, cs, e, rfl, hg, spells, he⟩ := first
    refine ⟨g, cs, e, by simp, hg, he, ?_⟩
    exact ⟨w, [], cs, [], rfl, by simp, RightWord.spellsRight_iff.mpr spells, .nil⟩
  | @cons item' w' items words second others ih =>
    obtain ⟨g, cs, k, rfl, hg, spells, hk⟩ := first
    obtain ⟨h, ds, e, joined, hh, he, listed⟩ := ih second
    have sign : WritesSign "," (k ++ ',' :: h) := ⟨k, h, rfl, hk, hh⟩
    refine ⟨g, cs ++ ((k ++ ',' :: h) ++ ds), e, ?_, hg, he, ?_⟩
    · rw [List.intercalate_cons_cons, joined]
      simp
    · exact listed.cons (RightWord.spellsRight_iff.mpr spells) sign

/-- A list of the grammar between gaps is items that are words, with commas between them. -/
theorem names_of_listed {words : List RightWord} {h cs e : List Char}
    (listed : Listed (WritesSign ",") SpellsRight words cs) (hh : IsGap h) (he : IsGap e) :
    ∃ items, items ≠ [] ∧ h ++ (cs ++ e) = [','].intercalate items ∧
      List.Forall₂ Names items words := by
  obtain ⟨w, others, first, tail, rfl, rfl, spells, repeated⟩ := listed
  -- The gap in front of an item belongs to the comma before it, so the statement is about any gap.
  induction repeated generalizing w h first with
  | nil =>
    refine ⟨[h ++ (first ++ e)], by simp, by simp, .cons ?_ .nil⟩
    exact ⟨h, first, e, rfl, hh, RightWord.spellsRight_iff.mp spells, he⟩
  | @cons w' words piece tail next others ih =>
    obtain ⟨_, ts, rfl, ⟨g, k, rfl, hg, hk⟩, spells'⟩ := next
    obtain ⟨items, full, joined, names⟩ := ih hk w' ts spells'
    refine ⟨(h ++ (first ++ g)) :: items, by simp, ?_, .cons ?_ names⟩
    · obtain ⟨item, items, rfl⟩ := List.exists_cons_of_ne_nil full
      have comma : ",".toList = [','] := by decide
      rw [List.intercalate_cons_cons, ← joined, comma]
      simp
    · exact ⟨h, first, g, rfl, hh, RightWord.spellsRight_iff.mp spells, hg⟩

/-! ### Written permissions -/

/-- A text with the parts of a written permission, whatever its items are. -/
structure PermissionText where
  before : List Char
  word : List Char
  behind : List Char
  items : List (List Char)
  after : List Char

namespace PermissionText

def text (t : PermissionText) : String :=
  String.ofList (t.before ++ (t.word ++ (t.behind ++ '(' ::
    ([','].intercalate t.items ++ ')' :: t.after))))

/-- The text has the word of the disposition, in some case of letters and between gaps, and items
that the commas keep apart. -/
structure Proper (t : PermissionText) (d : Disposition) : Prop where
  before : IsGap t.before
  word : Spells d.name t.word
  behind : IsGap t.behind
  full : t.items ≠ []
  apart : ∀ item ∈ t.items, ',' ∉ item
  after : IsGap t.after

variable {t : PermissionText} {d : Disposition} {words : List RightWord}

theorem read_of_names (proper : t.Proper d) (names : List.Forall₂ Names t.items words) :
    Permission.read t.text = .ok (permissionOf d words) := by
  have listed : ∃ h cs e, [','].intercalate t.items = h ++ (cs ++ e) ∧ IsGap h ∧ IsGap e ∧
      Listed (WritesSign ",") SpellsRight words cs := by
    cases items : t.items with
    | nil => exact absurd items proper.full
    | cons item items =>
      rw [items] at names
      cases names with
      | cons first others => exact listed_of_names first others
  obtain ⟨h, cs, e, joined, hh, he, listed⟩ := listed
  have writes := WritesPermission.intro proper.word proper.behind hh listed he
  have parsed : wholePermission.readAll t.text.toList = .ok (permissionOf d words) := by
    refine wholePermission_readAll_iff.mpr ⟨t.before, _, t.after, ?_, proper.before, proper.after,
      writes⟩
    unfold text
    rw [String.toList_ofList, joined]
    simp
  exact mapError_eq_ok.mpr (readText_eq_ok.mpr parsed)

theorem paren_not_mem_of_isGap {g : List Char} (h : IsGap g) : '(' ∉ g ∧ ')' ∉ g := by
  constructor
  · intro mem
    have gap := h _ mem
    revert gap
    decide
  · intro mem
    have gap := h _ mem
    revert gap
    decide

theorem paren_not_mem_of_disposition {w : List Char} (h : Spells d.name w) : '(' ∉ w := by
  intro mem
  have letters : ∀ c ∈ d.name.toList, c.isAlpha = true := by
    cases d <;> exact List.all_eq_true.mp (by decide)
  have letter := forall_of_lower_eq isAlpha_congr h letters _ mem
  revert letter
  decide

/-- The items of a text that is read are words. -/
theorem names_of_read (proper : t.Proper d) {p : Permission}
    (read : Permission.read t.text = .ok p) :
    ∃ words, List.Forall₂ Names t.items words := by
  have parsed := readText_eq_ok.mp (mapError_eq_ok.mp read)
  obtain ⟨g, _, k, split, hg, hk, writes⟩ := wholePermission_readAll_iff.mp parsed
  obtain @⟨d', words, w, i, h, e, cs, word, behind, before, listed, after⟩ := writes
  refine ⟨words, ?_⟩
  have outer : (t.before ++ t.word ++ t.behind) ++
      '(' :: ([','].intercalate t.items ++ ')' :: t.after) =
        (g ++ w ++ i) ++ '(' :: ((h ++ (cs ++ e)) ++ ')' :: k) := by
    unfold text at split
    rw [String.toList_ofList] at split
    simpa using split
  -- The first parenthesis opens the list and the last one closes it.
  have opening : '(' ∉ t.before ++ t.word ++ t.behind := by
    simp [paren_not_mem_of_isGap proper.before, paren_not_mem_of_disposition proper.word,
      paren_not_mem_of_isGap proper.behind]
  have opening' : '(' ∉ g ++ w ++ i := by
    simp [paren_not_mem_of_isGap hg, paren_not_mem_of_disposition word,
      paren_not_mem_of_isGap behind]
  obtain ⟨_, inner⟩ := Text.first_unique opening opening' outer
  obtain ⟨inside, _⟩ := Text.last_unique (paren_not_mem_of_isGap proper.after).2
    (paren_not_mem_of_isGap hk).2 inner
  obtain ⟨items, full, joined, names⟩ := names_of_listed listed before after
  have apart : ∀ item ∈ items, ',' ∉ item := by
    intro item mem
    obtain ⟨w, named⟩ := exists_forall₂_iff.mp ⟨words, names⟩ item mem
    exact named.comma_not_mem
  have same : t.items = items := by
    rw [← Text.piecesAt_intercalate proper.full proper.apart, inside, joined,
      Text.piecesAt_intercalate full apart]
  rwa [same]

/-- What is read is the permission that has the rights the words name, and it is read from its own
text again. -/
structure Denotes (d : Disposition) (words : List RightWord) (p : Permission) : Prop where
  disposition : p.disposition = some d
  rights (r : Right) : p.contains r = true ↔ Covered words r
  rendered : Permission.read p.render = .ok p

theorem denotes_permissionOf (d : Disposition) (words : List RightWord) :
    Denotes d words (permissionOf d words) := by
  have disposition := disposition_permissionOf d words
  refine ⟨disposition, contains_permissionOf d words, Permission.read_render ?_⟩
  exact (Permission.writes_render disposition).validate

/-- A text is read just when each item is a word, and what is read has just the rights that the
words name. Two texts of one disposition are read as the same permission just when their words name
the same rights. -/
theorem read_denotes_rights (proper : t.Proper d) :
    ((∃ p, Permission.read t.text = .ok p) ↔ ∀ item ∈ t.items, ∃ w, Names item w) ∧
    ∀ words, List.Forall₂ Names t.items words →
      ∃ p, Permission.read t.text = .ok p ∧ Denotes d words p ∧
        ∀ (t' : PermissionText) (words' : List RightWord), t'.Proper d →
          List.Forall₂ Names t'.items words' → ∀ p', Permission.read t'.text = .ok p' →
            (p = p' ↔ ∀ r, Covered words r ↔ Covered words' r) := by
  constructor
  · rw [← exists_forall₂_iff]
    constructor
    · rintro ⟨p, read⟩
      exact names_of_read proper read
    · rintro ⟨words, names⟩
      exact ⟨_, read_of_names proper names⟩
  · intro words names
    refine ⟨_, read_of_names proper names, denotes_permissionOf d words, ?_⟩
    intro t' words' proper' names' p' read
    obtain rfl := Except.ok.inj ((read_of_names proper' names').symm.trans read)
    exact permissionOf_eq_iff d words words'

/-- Words in other letters, in another order and one of them twice; and a list without any word. -/
theorem rights_of_recased_repeated_words :
    let t : PermissionText :=
      ⟨[' '], "DenY".toList, ['\t'],
        [" proxy".toList, "ALL ".toList, "None".toList, "All".toList], []⟩
    let t' : PermissionText :=
      ⟨[], "deny".toList, [], ["all".toList, "Proxy\n".toList, "READ".toList], ['\n']⟩
    ∃ p, Permission.read t.text = .ok p ∧ Permission.read t'.text = .ok p ∧
      p.contains .proxy = true ∧ ¬ ∃ q, Permission.read { t with items := [[]] }.text = .ok q := by
  intro t t'
  have proper : t.Proper .deny :=
    ⟨by decide, by decide, by decide, by decide, by decide, by decide⟩
  have proper' : t'.Proper .deny :=
    ⟨by decide, by decide, by decide, by decide, by decide, by decide⟩
  have proper'' : PermissionText.Proper { t with items := [[]] } .deny :=
    ⟨by decide, by decide, by decide, by decide, by decide, by decide⟩
  have names : List.Forall₂ Names t.items [.right .proxy, .all, .none, .all] :=
    .cons ⟨[' '], "proxy".toList, [], by decide⟩ (.cons ⟨[], "ALL".toList, [' '], by decide⟩
      (.cons ⟨[], "None".toList, [], by decide⟩ (.cons ⟨[], "All".toList, [], by decide⟩ .nil)))
  have names' : List.Forall₂ Names t'.items [.all, .right .proxy, .right .read] :=
    .cons ⟨[], "all".toList, [], by decide⟩ (.cons ⟨[], "Proxy".toList, ['\n'], by decide⟩
      (.cons ⟨[], "READ".toList, [], by decide⟩ .nil))
  obtain ⟨p, read, denotes, same⟩ := (read_denotes_rights proper).2 _ names
  obtain ⟨p', read', _, _⟩ := (read_denotes_rights proper').2 _ names'
  obtain rfl := (same t' _ proper' names' p' read').mpr fun r => by cases r <;> simp [Covered]
  refine ⟨p, read, read', (denotes.rights .proxy).mpr (.inl (by decide)), ?_⟩
  intro some
  obtain ⟨w, g, cs, h, empty, _, spells, _⟩ := (read_denotes_rights proper'').1.mp some [] (by simp)
  obtain ⟨rfl, rfl, rfl⟩ : g = [] ∧ cs = [] ∧ h = [] := by simpa using empty.symm
  revert spells
  cases w with
  | all => decide
  | none => decide
  | right r => cases r <;> decide

end PermissionText

end DirectoryAccess
