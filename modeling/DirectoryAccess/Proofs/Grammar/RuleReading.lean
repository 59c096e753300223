import DirectoryAccess.Proofs.Grammar.ConditionReading

/-!
# Bind rules are read from their written forms

The grammar of bind rules has three levels: the members of a conjunction, conjunctions, and
disjunctions. A chain of several members is a text of one member and then of the others, each behind
the word of the connective. The levels are the parts of one relation, so that facts about written
forms are proved by one induction.
-/
namespace DirectoryAccess.Grammar

open Reader

/-- A word that joins the members of a chain. -/
inductive Connective where
  | and
  | or

namespace Connective

def text : Connective → String
  | and => "AND"
  | or => "OR"

/-- The reader of the word, with the gap in front of it. -/
def reader : Connective → Reader Unit
  | and => andWord
  | or => orWord

/-- The tree of a chain of several members. -/
def join : Connective → List RuleTree → RuleTree
  | and => .and
  | or => .or

/-- The reader of one member of a chain, at the given depth. -/
def operand : Connective → Nat → Reader RuleTree
  | and, n => member n
  | or, n => chain andWord (member n) .and

/-- The reader of a chain, or of the one member that stands alone. -/
def chained (c : Connective) (n : Nat) : Reader RuleTree :=
  chain c.reader (c.operand n) c.join

/-- What must not follow a member. -/
def operandStops : Connective → List Char
  | and => ['|']
  | or => ['|', 'a']

/-- What must not follow a chain. -/
def stops : Connective → List Char
  | and => ['|', 'a']
  | or => ['|', 'a', 'o']

end Connective

/-- The parts that a text of a bind rule is made of. -/
inductive Phrase where
  /-- A condition, a group or a negation. -/
  | unit (t : RuleTree)
  /-- Members joined by the connective, or one alone. -/
  | series (c : Connective) (t : RuleTree)
  /-- What follows the first member of a chain. -/
  | further (c : Connective) (ts : List RuleTree)

/-- The phrase that a member of a chain is. -/
def Connective.part : Connective → RuleTree → Phrase
  | and, t => .unit t
  | or, t => .series .and t

/-- The ways of writing a phrase. A word ends where it is not followed by a character of a word. -/
inductive Phrase.Written : Phrase → List Char → Prop
  | condition {t : ConditionTree} {cs : List Char} (h : t.Written cs) :
    Written (.unit (.condition t)) cs
  | group {t : RuleTree} {g h cs : List Char} (before : IsGap g) (after : IsGap h)
    (inner : Written (.series .or t) cs) :
    Written (.unit (.group (!g.isEmpty) t)) ('(' :: (g ++ (cs ++ (h ++ [')']))))
  | not {t : RuleTree} {w g cs : List Char} (word : Spells "NOT" w) (gap : IsGap g)
    (ends : Ends isWordChar (g ++ cs)) (inner : Written (.unit t) cs) :
    Written (.unit (.not t)) (w ++ (g ++ cs))
  | alone {c : Connective} {t : RuleTree} {cs : List Char} (h : Written (c.part t) cs) :
    Written (.series c t) cs
  | joined {c : Connective} {t : RuleTree} {ts : List RuleTree} {cs ds : List Char}
    (several : ts ≠ []) (first : Written (c.part t) cs) (rest : Written (.further c ts) ds) :
    Written (.series c (c.join (t :: ts))) (cs ++ ds)
  | nil {c : Connective} : Written (.further c []) []
  | cons {c : Connective} {t : RuleTree} {ts : List RuleTree} {g w h cs ds : List Char}
    (before : IsGap g) (word : Spells c.text w) (after : IsGap h)
    (ends : Ends isWordChar (h ++ cs)) (first : Written (c.part t) cs)
    (rest : Written (.further c ts) ds) :
    Written (.further c (t :: ts)) (g ++ (w ++ (h ++ (cs ++ ds))))

/-! ### The first characters of a phrase -/

/-- The text begins with something that is no gap. -/
def Solid (cs : List Char) : Prop :=
  ∃ c r, cs = c :: r ∧ Text.isGap c = false

theorem Solid.ne_nil {cs : List Char} (h : Solid cs) : cs ≠ [] := by
  obtain ⟨c, r, rfl, _⟩ := h
  simp

theorem Solid.ends {cs : List Char} (h : Solid cs) (rest : List Char) :
    Ends Text.isGap (cs ++ rest) := by
  obtain ⟨c, r, rfl, solid⟩ := h
  exact ends_cons.mpr solid

/-- Whether a gap ends a word shows in what stands behind the gap, and in nothing after that. -/
theorem Solid.ends_behind {p : Char → Bool} {h cs rest : List Char} (solid : Solid cs) :
    Ends p (h ++ (cs ++ rest)) ↔ Ends p (h ++ cs) := by
  have full : h ++ cs ≠ [] := by
    intro empty
    exact solid.ne_nil (List.append_eq_nil_iff.mp empty).2
  rw [← List.append_assoc]
  exact ends_append full

theorem solid_of_spells {word : String} {cs : List Char} {c : Char} {r : List Char}
    (spelt : word.toList = c :: r) (letter : Text.isGap c.toLower = false) (h : Spells word cs) :
    ∃ d s, cs = d :: s ∧ d.toLower = c.toLower ∧ Text.isGap d = false := by
  unfold Spells at h
  rw [spelt] at h
  cases cs with
  | nil => simp [Text.lower] at h
  | cons d s =>
    have same : d.toLower = c.toLower := (List.cons.inj h).1
    refine ⟨d, s, rfl, same, ?_⟩
    rw [Bool.eq_false_iff]
    intro gap
    rw [← same, Text.toLower_of_isGap gap, gap] at letter
    cases letter

theorem Connective.spells_head {c : Connective} {w : List Char} (h : Spells c.text w) :
    ∃ d s, w = d :: s ∧ Text.isGap d = false ∧ d.toLower ∉ c.operandStops := by
  cases c with
  | and =>
    obtain ⟨d, s, rfl, same, solid⟩ := solid_of_spells (c := 'A') (r := ['N', 'D']) (by decide)
      (by decide) h
    exact ⟨d, s, rfl, solid, by rw [same]; decide⟩
  | or =>
    obtain ⟨d, s, rfl, same, solid⟩ := solid_of_spells (c := 'O') (r := ['R']) (by decide)
      (by decide) h
    exact ⟨d, s, rfl, solid, by rw [same]; decide⟩

/-- A phrase begins with something that is no gap, unless it is the empty end of a chain. -/
theorem Phrase.Written.solid {x : Phrase} {cs : List Char} (h : x.Written cs) :
    match x with
    | .further _ _ => True
    | _ => Solid cs := by
  induction h with
  | condition h =>
    obtain ⟨c, r, rfl, word, _⟩ := h.head
    exact ⟨c, r, rfl, Text.isGap_of_not_isBlank (isBlank_of_isWordChar word)⟩
  | group => exact ⟨'(', _, rfl, by decide⟩
  | not word =>
    obtain ⟨d, s, rfl, _, solid⟩ := solid_of_spells (c := 'N') (r := ['O', 'T']) (by decide)
      (by decide) word
    exact ⟨d, _, rfl, solid⟩
  | @alone c t cs h ih => cases c <;> exact ih
  | @joined c t ts cs ds several first rest ih =>
    have start : Solid cs := by cases c <;> exact ih
    obtain ⟨d, s, rfl, solid⟩ := start
    exact ⟨d, _, rfl, solid⟩
  | nil => trivial
  | cons => trivial

theorem Phrase.Written.solid_part {c : Connective} {t : RuleTree} {cs : List Char}
    (h : (c.part t).Written cs) : Solid cs := by
  have start := h.solid
  cases c <;> exact start

theorem Phrase.Written.solid_series {c : Connective} {t : RuleTree} {cs : List Char}
    (h : (Phrase.series c t).Written cs) : Solid cs :=
  h.solid

theorem Phrase.Written.solid_unit {t : RuleTree} {cs : List Char}
    (h : (Phrase.unit t).Written cs) : Solid cs :=
  h.solid

theorem Phrase.Written.clear_further {c : Connective} {ts : List RuleTree} {ds rest : List Char}
    (h : (Phrase.further c ts).Written ds) (after : Clear c.stops rest) :
    Clear c.operandStops (ds ++ rest) := by
  cases h with
  | nil =>
    refine after.mono ?_
    cases c <;> simp [Connective.operandStops, Connective.stops]
  | cons before word _ _ _ _ =>
    obtain ⟨d, s, rfl, solid, other⟩ := Connective.spells_head word
    rw [List.append_assoc, clear_append before]
    exact (clear_cons solid).mpr other

/-! ### Every written form is read -/

theorem connective_read {c : Connective} {g w rest : List Char} (hg : IsGap g)
    (hw : Spells c.text w) (ends : Ends isWordChar rest) :
    c.reader (g ++ (w ++ rest)) = .read () rest := by
  obtain ⟨d, s, start, solid, _⟩ := Connective.spells_head hw
  have skipped : skipGap (g ++ (w ++ rest)) = .read () (w ++ rest) := by
    refine skipGap_eq_read.mpr ⟨g, rfl, hg, ?_⟩
    rw [start]
    exact ends_cons.mpr solid
  have ended : wordEnd rest = .read () rest := notBefore_eq_read.mpr ⟨rfl, ends⟩
  cases c with
  | and =>
    show (do skipGap; word "AND"; wordEnd : Reader Unit) _ = _
    rw [bind_read skipped]
    exact bind_eq_read.mpr ⟨(), rest, word_eq_read.mpr ⟨w, hw, rfl⟩, ended⟩
  | or =>
    show (do skipGap; word "OR"; wordEnd : Reader Unit) _ = _
    rw [bind_read skipped]
    exact bind_eq_read.mpr ⟨(), rest, word_eq_read.mpr ⟨w, hw, rfl⟩, ended⟩

theorem connective_declines {c : Connective} {rest : List Char} (after : Clear c.stops rest) :
    Declines c.reader rest := by
  cases c with
  | and =>
    refine declines_word_of_clear (c := 'A') (r := ['N', 'D']) (by decide) ?_
    exact after.mono (by simp [Connective.stops])
  | or =>
    refine declines_word_of_clear (c := 'O') (r := ['R']) (by decide) ?_
    exact after.mono (by simp [Connective.stops])

/-- The member reader tells a negation from everything else by its word. -/
theorem notWord_declines {c : Char} {r : List Char} (h : c.toLower ≠ 'n') :
    Declines notWord (c :: r) := by
  refine declines_bind (declines_word ?_)
  have spelt : "NOT".toList = ['N', 'O', 'T'] := by decide
  rw [spelt, Text.afterWord?, if_neg]
  intro same
  exact h same.symm

theorem notWord_eq_read {u : Unit} {input rest : List Char} :
    notWord input = .read u rest ↔
      ∃ w, input = w ++ rest ∧ Spells "NOT" w ∧ Ends isWordChar rest := by
  constructor
  · intro read
    obtain ⟨_, _, spelt, ended⟩ := bind_eq_read.mp read
    obtain ⟨w, word, rfl⟩ := word_eq_read.mp spelt
    obtain ⟨rfl, ends⟩ := notBefore_eq_read.mp ended
    exact ⟨w, rfl, word, ends⟩
  · rintro ⟨w, rfl, word, ends⟩
    exact bind_eq_read.mpr ⟨(), rest, word_eq_read.mpr ⟨w, word, rfl⟩,
      notBefore_eq_read.mpr ⟨rfl, ends⟩⟩

theorem member_eq (n : Nat) (input : List Char) :
    member (n + 1) input = (do
      match ← optional notWord with
      | some _ => return .not (← commit (member n))
      | none => primary (ruleOf (member n)) : Reader RuleTree) (input.dropWhile Text.isGap) := by
  rw [member]
  exact bind_read (skipGap_read input)

theorem dropWhile_gap {g cs : List Char} (hg : IsGap g) (ends : Ends Text.isGap cs) :
    (g ++ cs).dropWhile Text.isGap = cs := by
  have read : skipGap (g ++ cs) = .read () cs := skipGap_eq_read.mpr ⟨g, rfl, hg, ends⟩
  rw [skipGap_read] at read
  exact (Outcome.read.inj read).2

theorem primary_eq_read {rule : Reader RuleTree} {input rest : List Char} {t : RuleTree} :
    primary rule input = .read t rest ↔
      group rule (input.dropWhile Text.isGap) = .read t rest ∨
        (Declines (group rule) (input.dropWhile Text.isGap) ∧
          ∃ c, t = .condition c ∧ condition (input.dropWhile Text.isGap) = .read c rest) := by
  unfold primary
  rw [bind_read (skipGap_read input), described_eq_read, orElse_eq_read]
  have plain : (do return .condition (← condition) : Reader RuleTree)
      (input.dropWhile Text.isGap) = .read t rest ↔
      ∃ c, t = .condition c ∧ condition (input.dropWhile Text.isGap) = .read c rest := by
    rw [bind_eq_read]
    constructor
    · rintro ⟨c, mid, read, last⟩
      obtain ⟨rfl, rfl⟩ := pure_eq_read.mp last
      exact ⟨c, rfl, read⟩
    · rintro ⟨c, rfl, read⟩
      exact ⟨c, rest, read, rfl⟩
  rw [plain]

theorem chained_read {c : Connective} {n : Nat} {t : RuleTree} {ts : List RuleTree}
    {input mid rest : List Char} (first : c.operand n input = .read t mid)
    (others : Repeats (do c.reader; commit (c.operand n)) mid ts rest) :
    c.chained n input = .read (if ts.isEmpty then t else c.join (t :: ts)) rest := by
  unfold Connective.chained Grammar.chain
  rw [bind_read first, bind_read (many_of_repeats others)]
  rfl

/-- How a phrase is read at every depth that is enough for its text. -/
def Phrase.ReadFrom : Phrase → List Char → Prop
  | .unit t, cs => ∀ n g rest, cs.length ≤ n → IsGap g → Clear ['|'] rest →
    member n (g ++ (cs ++ rest)) = .read t rest
  | .series c t, cs => ∀ n g rest, cs.length ≤ n → IsGap g → Clear c.stops rest →
    c.chained n (g ++ (cs ++ rest)) = .read t rest
  | .further c ts, cs => ∀ n rest, cs.length ≤ n → Clear c.stops rest →
    Repeats (do c.reader; commit (c.operand n)) (cs ++ rest) ts rest

theorem Phrase.ReadFrom.part {c : Connective} {t : RuleTree} {cs : List Char}
    (h : (c.part t).ReadFrom cs) (n : Nat) (g rest : List Char) (deep : cs.length ≤ n)
    (hg : IsGap g) (after : Clear c.operandStops rest) :
    c.operand n (g ++ (cs ++ rest)) = .read t rest := by
  cases c with
  | and => exact h n g rest deep hg after
  | or => exact h n g rest deep hg after

theorem member_of_primary {n : Nat} {g input rest : List Char} {t : RuleTree} (hg : IsGap g)
    (solid : Ends Text.isGap input) (noWord : Declines notWord input)
    (read : primary (ruleOf (member n)) input = .read t rest) :
    member (n + 1) (g ++ input) = .read t rest := by
  have positive : optional notWord input = .read none input :=
    optional_eq_read.mpr (.inr ⟨rfl, rfl, noWord⟩)
  rw [member_eq, dropWhile_gap hg solid, bind_read positive]
  exact read

theorem group_read {rule : Reader RuleTree} {t : RuleTree} {g h cs rest : List Char}
    (before : IsGap g) (after : IsGap h) (solid : Solid cs)
    (inner : rule (cs ++ (h ++ (')' :: rest))) = .read t (h ++ (')' :: rest))) :
    group rule ('(' :: (g ++ (cs ++ (h ++ [')']))) ++ rest) =
      .read (.group (!g.isEmpty) t) rest := by
  unfold Grammar.group
  refine bind_eq_read.mpr ⟨(), g ++ (cs ++ (h ++ (')' :: rest))), by simp, ?_⟩
  have padded : gap (g ++ (cs ++ (h ++ (')' :: rest)))) =
      .read (!g.isEmpty) (cs ++ (h ++ (')' :: rest))) :=
    gap_eq_read.mpr ⟨g, rfl, before, solid.ends _, rfl⟩
  refine bind_eq_read.mpr ⟨!g.isEmpty, cs ++ (h ++ (')' :: rest)), padded, ?_⟩
  refine bind_eq_read.mpr ⟨t, h ++ (')' :: rest), commit_eq_read.mpr inner, ?_⟩
  have skipped : skipGap (h ++ (')' :: rest)) = .read () (')' :: rest) :=
    skipGap_eq_read.mpr ⟨h, rfl, after, ends_cons.mpr (by decide)⟩
  refine bind_eq_read.mpr ⟨(), ')' :: rest, skipped, ?_⟩
  exact bind_eq_read.mpr ⟨(), rest, by simp, rfl⟩

namespace Phrase.ReadFrom

theorem condition {t : ConditionTree} {cs : List Char} (h : t.Written cs) :
    (unit (.condition t)).ReadFrom cs := by
  intro n g rest deep hg after
  obtain ⟨c, r, start, word, noNot⟩ := h.head
  obtain ⟨n, rfl⟩ : ∃ m, n = m + 1 := ⟨n - 1, by rw [start] at deep; simp at deep; omega⟩
  have solid : Ends Text.isGap (cs ++ rest) := by
    rw [start]
    exact ends_cons.mpr (Text.isGap_of_not_isBlank (isBlank_of_isWordChar word))
  have noWord : Declines notWord (cs ++ rest) := by
    rw [start]
    exact notWord_declines (fun same => noNot (by simp [same]))
  have noGroup : Declines (Grammar.group (ruleOf (member n))) (cs ++ rest) := by
    have paren : "(".toList = ['('] := by decide
    refine declines_bind (declines_sign ?_)
    rw [start, paren, List.cons_append, Text.after?, if_neg]
    rintro rfl
    revert word
    decide
  have stay : (cs ++ rest).dropWhile Text.isGap = cs ++ rest := dropWhile_gap isGap_nil solid
  refine member_of_primary hg solid noWord (primary_eq_read.mpr (.inr ?_))
  rw [stay]
  exact ⟨noGroup, t, rfl, condition_read h after⟩

theorem group {t : RuleTree} {g h cs : List Char} (before : IsGap g) (after : IsGap h)
    (inner : (series .or t).Written cs) (read : (series .or t).ReadFrom cs) :
    (unit (.group (!g.isEmpty) t)).ReadFrom ('(' :: (g ++ (cs ++ (h ++ [')'])))) := by
  intro n e rest deep he follows
  obtain ⟨n, rfl⟩ : ∃ m, n = m + 1 := ⟨n - 1, by simp at deep; omega⟩
  have noWord : Declines notWord ('(' :: (g ++ (cs ++ (h ++ [')']))) ++ rest) :=
    notWord_declines (by decide)
  have solid : Ends Text.isGap ('(' :: (g ++ (cs ++ (h ++ [')']))) ++ rest) :=
    ends_cons.mpr (by decide)
  have closing : Clear ['|', 'a', 'o'] (h ++ (')' :: rest)) := by
    rw [clear_append after]
    exact (clear_cons (by decide)).mpr (by decide)
  have room : cs.length ≤ n := by
    simp at deep
    omega
  have stay := dropWhile_gap isGap_nil solid
  rw [List.nil_append] at stay
  refine member_of_primary he solid noWord (primary_eq_read.mpr (.inl ?_))
  rw [stay]
  exact group_read before after inner.solid_series (read n [] _ room isGap_nil closing)

theorem not {t : RuleTree} {w g cs : List Char} (word : Spells "NOT" w) (gap : IsGap g)
    (ends : Ends isWordChar (g ++ cs)) (inner : (unit t).Written cs) (read : (unit t).ReadFrom cs) :
    (unit (.not t)).ReadFrom (w ++ (g ++ cs)) := by
  intro n e rest deep he follows
  obtain ⟨d, s, start, _, solid⟩ := solid_of_spells (c := 'N') (r := ['O', 'T']) (by decide)
    (by decide) word
  obtain ⟨n, rfl⟩ : ∃ m, n = m + 1 := ⟨n - 1, by rw [start] at deep; simp at deep; omega⟩
  have stands : Ends Text.isGap (w ++ (g ++ cs) ++ rest) := by
    rw [start]
    exact ends_cons.mpr solid
  have negated : optional notWord (w ++ (g ++ cs) ++ rest) =
      .read (some ()) (g ++ (cs ++ rest)) := by
    refine optional_eq_read.mpr (.inl ⟨(), rfl, notWord_eq_read.mpr ⟨w, by simp, word, ?_⟩⟩)
    exact inner.solid_unit.ends_behind.mpr ends
  have room : cs.length ≤ n := by
    rw [start] at deep
    simp only [List.length_append, List.length_cons] at deep
    omega
  rw [member_eq, dropWhile_gap he stands, bind_read negated]
  exact bind_eq_read.mpr ⟨t, rest, commit_eq_read.mpr (read n g rest room gap follows), rfl⟩

variable {c : Connective} {t : RuleTree} {ts : List RuleTree} {cs ds : List Char}

theorem alone (read : (c.part t).ReadFrom cs) : (series c t).ReadFrom cs := by
  intro n g rest deep hg after
  have first : c.operand n (g ++ (cs ++ rest)) = .read t rest := by
    refine read.part n g rest deep hg (after.mono ?_)
    cases c <;> simp [Connective.operandStops, Connective.stops]
  exact chained_read first (.stop (declines_bind (connective_declines after)))

theorem joined (several : ts ≠ []) (first : (c.part t).ReadFrom cs)
    (rest : (further c ts).Written ds) (others : (further c ts).ReadFrom ds) :
    (series c (c.join (t :: ts))).ReadFrom (cs ++ ds) := by
  intro n g rest' deep hg after
  simp only [List.length_append] at deep
  have head : c.operand n (g ++ (cs ++ (ds ++ rest'))) = .read t (ds ++ rest') :=
    first.part n g _ (by omega) hg (rest.clear_further after)
  have read := chained_read head (others n rest' (by omega) after)
  rw [List.append_assoc, read]
  cases ts with
  | nil => exact absurd rfl several
  | cons _ _ => rfl

theorem cons {g w h : List Char} (before : IsGap g) (word : Spells c.text w) (after : IsGap h)
    (ends : Ends isWordChar (h ++ cs)) (written : (c.part t).Written cs)
    (first : (c.part t).ReadFrom cs) (rest : (further c ts).Written ds)
    (others : (further c ts).ReadFrom ds) :
    (further c (t :: ts)).ReadFrom (g ++ (w ++ (h ++ (cs ++ ds)))) := by
  intro n rest' deep follows
  simp only [List.length_append] at deep
  have joint : c.reader (g ++ (w ++ (h ++ (cs ++ (ds ++ rest'))))) =
      .read () (h ++ (cs ++ (ds ++ rest'))) :=
    connective_read before word (written.solid_part.ends_behind.mpr ends)
  have next : c.operand n (h ++ (cs ++ (ds ++ rest'))) = .read t (ds ++ rest') :=
    first.part n h _ (by omega) after (rest.clear_further follows)
  refine .step ?_ ?_ (others n rest' (by omega) follows)
  · simp only [List.append_assoc]
    rw [bind_read joint]
    exact commit_eq_read.mpr next
  · have := List.length_pos_iff.mpr written.solid_part.ne_nil
    simp only [List.length_append]
    omega

end Phrase.ReadFrom

theorem Phrase.Written.readFrom {x : Phrase} {cs : List Char} (h : x.Written cs) :
    x.ReadFrom cs := by
  -- The induction is on the way of writing; each part is shorter, so the depth is enough for it.
  induction h with
  | condition h => exact .condition h
  | group before after inner ih => exact .group before after inner ih
  | not word gap ends inner ih => exact .not word gap ends inner ih
  | alone h ih => exact .alone ih
  | joined several first rest ihFirst ihRest => exact .joined several ihFirst rest ihRest
  | nil =>
    intro n rest deep after
    exact .stop (declines_bind (connective_declines after))
  | cons before word after ends first rest ihFirst ihRest =>
    exact .cons before word after ends first ihFirst rest ihRest

/-! ### Only written forms are read -/

theorem spells_of_connective {c : Connective} {u : Unit} {input rest : List Char}
    (read : c.reader input = .read u rest) :
    ∃ g w, input = g ++ (w ++ rest) ∧ IsGap g ∧ Spells c.text w ∧ Ends isWordChar rest := by
  have parts : (do skipGap; word c.text; wordEnd : Reader Unit) input = .read u rest := by
    cases c <;> exact read
  obtain ⟨_, _, first, parts₁⟩ := bind_eq_read.mp parts
  obtain ⟨_, _, second, third⟩ := bind_eq_read.mp parts₁
  obtain ⟨g, rfl, hg, -⟩ := skipGap_eq_read.mp first
  obtain ⟨w, hw, rfl⟩ := word_eq_read.mp second
  obtain ⟨rfl, ends⟩ := notBefore_eq_read.mp third
  exact ⟨g, w, rfl, hg, hw, ends⟩

/-- What the reader takes is a gap and a written form of the phrase that belongs to its value. -/
def TakesWritten (p : Reader RuleTree) (phrase : RuleTree → Phrase) : Prop :=
  ∀ ⦃input : List Char⦄ ⦃t : RuleTree⦄ ⦃rest : List Char⦄, p input = .read t rest →
    ∃ g cs, input = g ++ (cs ++ rest) ∧ IsGap g ∧ (phrase t).Written cs

theorem written_of_chained {c : Connective} {n : Nat}
    (operand : TakesWritten (c.operand n) c.part) : TakesWritten (c.chained n) (.series c) := by
  intro input t rest read
  unfold Connective.chained Grammar.chain at read
  obtain ⟨first, mid, head, read₁⟩ := bind_eq_read.mp read
  obtain ⟨ts, last, tail, read₂⟩ := bind_eq_read.mp read₁
  obtain ⟨rfl, rfl⟩ := pure_eq_read.mp read₂
  obtain ⟨g, cs, rfl, hg, hcs⟩ := operand head
  -- One more member is a gap, the word, and a member that is written.
  have step : ∀ {input t rest}, (do c.reader; commit (c.operand n)) input = .read t rest →
      ∃ g w h cs, input = g ++ (w ++ (h ++ (cs ++ rest))) ∧ IsGap g ∧ Spells c.text w ∧
        IsGap h ∧ Ends isWordChar (h ++ cs) ∧ (c.part t).Written cs := by
    intro input t rest both
    obtain ⟨_, _, joint, next⟩ := bind_eq_read.mp both
    obtain ⟨g, w, rfl, hg, hw, ends⟩ := spells_of_connective joint
    obtain ⟨h, cs, rfl, hh, hcs⟩ := operand (commit_eq_read.mp next)
    exact ⟨g, w, h, cs, rfl, hg, hw, hh, hcs.solid_part.ends_behind.mp ends, hcs⟩
  have progress : Progresses (do c.reader; commit (c.operand n)) := by
    intro input t rest both
    obtain ⟨g, w, h, cs, rfl, _, _, _, _, hcs⟩ := step both
    have := List.length_pos_iff.mpr hcs.solid_part.ne_nil
    simp only [List.length_append]
    omega
  have others : ∀ {input ts rest}, Repeats (do c.reader; commit (c.operand n)) input ts rest →
      ∃ ds, input = ds ++ rest ∧ (Phrase.further c ts).Written ds := by
    intro input ts rest repeats
    induction repeats with
    | stop _ => exact ⟨[], rfl, .nil⟩
    | step both _ _ ih =>
      obtain ⟨g, w, h, cs, rfl, hg, hw, hh, ends, hcs⟩ := step both
      obtain ⟨ds, rfl, hds⟩ := ih
      exact ⟨_, by simp, .cons hg hw hh ends hcs hds⟩
  obtain ⟨ds, rfl, hds⟩ := others ((many_eq_read progress).mp tail)
  cases ts with
  | nil =>
    cases hds
    exact ⟨g, cs, rfl, hg, .alone hcs⟩
  | cons t' ts' => exact ⟨g, cs ++ ds, by simp, hg, .joined (by simp) hcs hds⟩

theorem written_of_group {rule : Reader RuleTree} (inner : TakesWritten rule (.series .or))
    {input rest : List Char} {t : RuleTree} (read : group rule input = .read t rest) :
    ∃ cs, input = cs ++ rest ∧ (Phrase.unit t).Written cs := by
  obtain ⟨_, _, opened, read₁⟩ := bind_eq_read.mp read
  obtain ⟨b, _, padding, read₂⟩ := bind_eq_read.mp read₁
  obtain ⟨u, _, middle, read₃⟩ := bind_eq_read.mp read₂
  obtain ⟨_, _, gap, read₄⟩ := bind_eq_read.mp read₃
  obtain ⟨_, _, closed, read₅⟩ := bind_eq_read.mp read₄
  obtain ⟨rfl, rfl⟩ := pure_eq_read.mp read₅
  obtain rfl := sign_eq_read.mp opened
  obtain ⟨g, rfl, hg, ends, rfl⟩ := gap_eq_read.mp padding
  obtain ⟨e, cs, rfl, he, hcs⟩ := inner (commit_eq_read.mp middle)
  obtain ⟨h, rfl, hh, -⟩ := skipGap_eq_read.mp gap
  obtain rfl := require_eq_read.mp closed
  -- The gap in front of the rule is all taken by the group.
  have none' : e = [] := by
    cases e with
    | nil => rfl
    | cons d ds =>
      have gap' := he d (by simp)
      rw [ends d (by simp)] at gap'
      cases gap'
  subst none'
  exact ⟨_, by simp, .group hg hh hcs⟩

theorem written_of_primary {rule : Reader RuleTree} (inner : TakesWritten rule (.series .or))
    {input rest : List Char} {t : RuleTree} (solid : Ends Text.isGap input)
    (read : primary rule input = .read t rest) :
    ∃ cs, input = cs ++ rest ∧ (Phrase.unit t).Written cs := by
  have bare : input.dropWhile Text.isGap = input := dropWhile_gap isGap_nil solid
  rcases primary_eq_read.mp read with grouped | ⟨-, c, rfl, plain⟩
  · rw [bare] at grouped
    exact written_of_group inner grouped
  · rw [bare] at plain
    obtain ⟨cs, rfl, hcs⟩ := written_of_condition plain
    exact ⟨cs, rfl, .condition hcs⟩

theorem written_of_member (n : Nat) : TakesWritten (member n) .unit := by
  -- A member reads members of less depth only, behind its word or inside its parentheses.
  induction n with
  | zero =>
    intro input t rest read
    cases read
  | succ n ih =>
    intro input t rest read
    have conjunction : TakesWritten (Connective.and.chained n) (.series .and) :=
      written_of_chained ih
    have whole : TakesWritten (ruleOf (member n)) (.series .or) :=
      written_of_chained (c := .or) conjunction
    obtain ⟨g, split, hg, solid⟩ := skipGap_eq_read.mp (skipGap_read input)
    rw [member_eq] at read
    obtain ⟨answer, mid, word, read₁⟩ := bind_eq_read.mp read
    rcases optional_eq_read.mp word with ⟨u, rfl, negation⟩ | ⟨rfl, rfl, -⟩
    · obtain ⟨inner, last, negated, read₂⟩ := bind_eq_read.mp read₁
      obtain ⟨rfl, rfl⟩ := pure_eq_read.mp read₂
      obtain ⟨w, same, hw, ends⟩ := notWord_eq_read.mp negation
      obtain ⟨h, cs, rfl, hh, hcs⟩ := ih (commit_eq_read.mp negated)
      refine ⟨g, w ++ (h ++ cs), ?_, hg, .not hw hh (hcs.solid_unit.ends_behind.mp ends) hcs⟩
      rw [split, same]
      simp
    · obtain ⟨cs, same, hcs⟩ := written_of_primary whole solid read₁
      refine ⟨g, cs, ?_, hg, hcs⟩
      rw [split, same]

theorem written_of_rule : TakesWritten rule (.series .or) := by
  intro input t rest read
  have conjunction : TakesWritten (Connective.and.chained (input.length + 1)) (.series .and) :=
    written_of_chained (c := .and) (written_of_member _)
  exact written_of_chained (c := .or) conjunction read

theorem rule_read {t : RuleTree} {g cs rest : List Char} (h : (Phrase.series .or t).Written cs)
    (hg : IsGap g) (after : Clear Connective.or.stops rest) :
    rule (g ++ (cs ++ rest)) = .read t rest := by
  refine h.readFrom _ g rest ?_ hg after
  simp only [List.length_append]
  omega

/-- A text is read as a bind rule just when it is a written form of the rule between gaps. -/
theorem wholeRule_readAll_iff {input : List Char} {t : RuleTree} :
    wholeRule.readAll input = .ok t ↔
      ∃ g cs h, input = g ++ (cs ++ h) ∧ IsGap g ∧ IsGap h ∧ (Phrase.series .or t).Written cs := by
  rw [readAll_eq_ok]
  constructor
  · intro read
    obtain ⟨_, _, first, read₁⟩ := bind_eq_read.mp read
    obtain ⟨_, _, gap, read₂⟩ := bind_eq_read.mp read₁
    obtain ⟨rfl, rfl⟩ := pure_eq_read.mp read₂
    obtain ⟨g, cs, rfl, hg, hcs⟩ := written_of_rule first
    obtain ⟨h, rfl, hh, -⟩ := skipGap_eq_read.mp gap
    exact ⟨g, cs, h, by simp, hg, hh, hcs⟩
  · rintro ⟨g, cs, h, rfl, hg, hh, hcs⟩
    refine bind_eq_read.mpr ⟨t, h, rule_read hcs hg (clear_of_isGap hh), ?_⟩
    exact bind_eq_read.mpr ⟨(), [], skipGap_all hh, rfl⟩

end DirectoryAccess.Grammar
