import DirectoryAccess.Grammar.Instruction
import DirectoryAccess.Proofs.Grammar.RuleReading

/-!
# Permissions and instructions are read from their written forms
-/
namespace DirectoryAccess.Grammar

open Reader

/-! ### Permissions -/

/-- The text is a spelling of the word in the list of a permission. -/
def SpellsRight (r : RightWord) (cs : List Char) : Prop :=
  cs ≠ [] ∧ (∀ c ∈ cs, c.isAlpha = true) ∧ RightWord.ofText? (String.ofList cs) = some r

/-- The ways of writing a permission. -/
inductive WritesPermission : Permission → List Char → Prop
  | intro {d : Disposition} {words : List RightWord} {w g h e cs : List Char}
    (word : Spells d.name w) (behind : IsGap g) (before : IsGap h)
    (listed : Listed (WritesSign ",") SpellsRight words cs) (after : IsGap e) :
    WritesPermission (permissionOf d words) (w ++ (g ++ ('(' :: (h ++ (cs ++ (e ++ [')']))))))

theorem isAlpha_of_isGap {c : Char} (h : Text.isGap c = true) : c.isAlpha = false := by
  rw [Bool.eq_false_iff]
  intro alpha
  have blank := Text.isBlank_of_isGap h
  rw [Text.isBlank_of_isAlphanum (by simp [Char.isAlphanum, alpha])] at blank
  cases blank

theorem rightWord_eq_read {input rest : List Char} {r : RightWord} :
    rightWord input = .read r rest ↔
      ∃ cs, input = cs ++ rest ∧ SpellsRight r cs ∧ Ends Char.isAlpha rest := by
  unfold rightWord
  rw [labelled_eq_read, select_eq_read]
  constructor
  · rintro ⟨cs, read, named⟩
    obtain ⟨full, rfl, own, ends⟩ := run1_eq_read.mp read
    exact ⟨cs, rfl, ⟨full, own, named⟩, ends⟩
  · rintro ⟨cs, rfl, ⟨full, own, named⟩, ends⟩
    exact ⟨cs, run1_eq_read.mpr ⟨full, rfl, own, ends⟩, named⟩

theorem SpellsRight.ends {r : RightWord} {cs rest : List Char} (h : SpellsRight r cs) :
    Ends Text.isGap (cs ++ rest) := by
  obtain ⟨full, own, _⟩ := h
  cases cs with
  | nil => exact absurd rfl full
  | cons c s =>
    refine ends_cons.mpr ?_
    rw [Bool.eq_false_iff]
    intro gap
    have alpha := own c (by simp)
    rw [isAlpha_of_isGap gap] at alpha
    cases alpha

theorem rightWords_read {words : List RightWord} {cs rest : List Char}
    (h : Listed (WritesSign ",") SpellsRight words cs) (ends : Ends Char.isAlpha rest)
    (after : Clear [','] rest) : separated rightWord comma (cs ++ rest) = .read words rest := by
  refine h.separated_read (Ends Char.isAlpha) ?_ ?_ ?_ ?_ ends ?_
  · intro r cs rest hr follows
    exact rightWord_eq_read.mpr ⟨cs, rfl, hr, follows⟩
  · intro s r cs rest hs hr
    exact sign_between_gaps_read (c := ',') (r := []) (by decide) (by decide) hs hr.ends
  · intro s hs
    exact hs.ne_nil (by decide)
  · rintro s rest ⟨g, h, rfl, hg, _⟩
    cases g with
    | nil => exact ends_cons.mpr (by decide)
    | cons d ds => exact ends_cons.mpr (isAlpha_of_isGap (hg d (by simp)))
  · exact declines_sign_of_clear (c := ',') (r := []) (by decide) after

theorem listed_of_rightWords {words : List RightWord} {input rest : List Char}
    (h : separated rightWord comma input = .read words rest) :
    ∃ cs, input = cs ++ rest ∧ Listed (WritesSign ",") SpellsRight words cs := by
  refine listed_of_separated_read ?_ writesSign_of_read (fun hs => hs.ne_nil (by decide)) h
  intro input r rest read
  obtain ⟨cs, split, hr, _⟩ := rightWord_eq_read.mp read
  exact ⟨cs, split, hr⟩

theorem spells_of_disposition {d : Disposition} {input rest : List Char}
    (h : disposition input = .read d rest) : ∃ w, input = w ++ rest ∧ Spells d.name w := by
  unfold disposition at h
  obtain ⟨p, mem, read⟩ := read_of_firstOf (labelled_eq_read.mp h)
  obtain ⟨d', _, rfl⟩ := List.mem_map.mp mem
  obtain ⟨_, _, first, read₁⟩ := bind_eq_read.mp read
  obtain ⟨rfl, rfl⟩ := pure_eq_read.mp read₁
  obtain ⟨w, hw, rfl⟩ := word_eq_read.mp first
  exact ⟨w, rfl, hw⟩

/-- The letter that tells the two words of dispositions apart. -/
def dispositionInitial : Disposition → Char
  | .allow => 'a'
  | .deny => 'd'

theorem Spells.disposition_head {d : Disposition} {w : List Char} (h : Spells d.name w) :
    ∃ c r, w = c :: r ∧ Text.isGap c = false ∧
      c.toLower = dispositionInitial d := by
  cases d with
  | allow =>
    obtain ⟨c, r, rfl, same, solid⟩ := solid_of_spells (c := 'a') (r := ['l', 'l', 'o', 'w'])
      (by decide) (by decide) h
    exact ⟨c, r, rfl, solid, by rw [same]; decide⟩
  | deny =>
    obtain ⟨c, r, rfl, same, solid⟩ := solid_of_spells (c := 'd') (r := ['e', 'n', 'y'])
      (by decide) (by decide) h
    exact ⟨c, r, rfl, solid, by rw [same]; decide⟩

theorem disposition_word_declines {d : Disposition} {c : Char} {r : List Char}
    (h : c.toLower ≠ dispositionInitial d) :
    Declines (do word d.name; return d : Reader Disposition) (c :: r) := by
  refine declines_bind (declines_word ?_)
  cases d with
  | allow =>
    have spelt : Disposition.allow.name.toList = ['a', 'l', 'l', 'o', 'w'] := by decide
    rw [spelt, Text.afterWord?, if_neg]
    exact fun same => h (same.symm.trans (by decide))
  | deny =>
    have spelt : Disposition.deny.name.toList = ['d', 'e', 'n', 'y'] := by decide
    rw [spelt, Text.afterWord?, if_neg]
    exact fun same => h (same.symm.trans (by decide))

theorem disposition_read {d : Disposition} {w rest : List Char} (h : Spells d.name w) :
    disposition (w ++ rest) = .read d rest := by
  have own : (do word d.name; return d : Reader Disposition) (w ++ rest) = .read d rest :=
    bind_eq_read.mpr ⟨(), rest, word_eq_read.mpr ⟨w, h, rfl⟩, rfl⟩
  unfold disposition
  refine labelled_eq_read.mpr (orElse_eq_read.mpr ?_)
  obtain ⟨c, r, rfl, _, same⟩ := h.disposition_head
  cases d with
  | allow => exact .inl own
  | deny =>
    refine .inr ⟨disposition_word_declines (d := .allow) ?_, own⟩
    rw [same]
    decide

theorem disposition_declines {input : List Char} (h : ∀ c ∈ input.head?, c.toLower ∉ ['a', 'd']) :
    Declines disposition input := by
  refine declines_note (declines_orElse ?_ ?_)
  · cases input with
    | nil => exact declines_bind (declines_word rfl)
    | cons c r =>
      refine disposition_word_declines (d := .allow) ?_
      exact fun same => h c rfl (by simp [same, dispositionInitial])
  · cases input with
    | nil => exact declines_bind (declines_word rfl)
    | cons c r =>
      refine disposition_word_declines (d := .deny) ?_
      exact fun same => h c rfl (by simp [same, dispositionInitial])

theorem permission_eq_read {input rest : List Char} {p : Permission} :
    permission input = .read p rest ↔ ∃ cs, input = cs ++ rest ∧ WritesPermission p cs := by
  constructor
  · intro read
    obtain ⟨d, _, first, read₁⟩ := bind_eq_read.mp read
    obtain ⟨_, _, behind, read₂⟩ := bind_eq_read.mp read₁
    obtain ⟨_, _, opened, read₃⟩ := bind_eq_read.mp read₂
    obtain ⟨_, _, before, read₄⟩ := bind_eq_read.mp read₃
    obtain ⟨words, _, listed, read₅⟩ := bind_eq_read.mp read₄
    obtain ⟨_, _, after, read₆⟩ := bind_eq_read.mp read₅
    obtain ⟨_, _, closed, read₇⟩ := bind_eq_read.mp read₆
    obtain ⟨rfl, rfl⟩ := pure_eq_read.mp read₇
    obtain ⟨w, rfl, hw⟩ := spells_of_disposition first
    obtain ⟨g, rfl, hg, -⟩ := skipGap_eq_read.mp behind
    obtain rfl := sign_eq_read.mp (commit_eq_read.mp opened)
    obtain ⟨h, rfl, hh, -⟩ := skipGap_eq_read.mp before
    obtain ⟨cs, rfl, hcs⟩ := listed_of_rightWords (commit_eq_read.mp listed)
    obtain ⟨e, rfl, he, -⟩ := skipGap_eq_read.mp after
    obtain rfl := sign_eq_read.mp (commit_eq_read.mp closed)
    exact ⟨_, by simp, .intro hw hg hh hcs he⟩
  · rintro ⟨_, rfl, @⟨d, words, w, g, h, e, cs, hw, hg, hh, hcs, he⟩⟩
    have inside : Ends Text.isGap (cs ++ (e ++ (')' :: rest))) := by
      obtain ⟨r, others, ds, es, rfl, rfl, first, _⟩ := hcs
      rw [List.append_assoc]
      exact first.ends
    have ends : Ends Char.isAlpha (e ++ (')' :: rest)) := by
      cases e with
      | nil => exact ends_cons.mpr (by decide)
      | cons d ds => exact ends_cons.mpr (isAlpha_of_isGap (he d (by simp)))
    have follows : Clear [','] (e ++ (')' :: rest)) := by
      rw [clear_append he]
      exact (clear_cons (by decide)).mpr (by decide)
    unfold permission
    simp only [List.append_assoc, List.cons_append, List.nil_append]
    refine bind_eq_read.mpr ⟨d, _, disposition_read hw, ?_⟩
    refine bind_eq_read.mpr ⟨(), '(' :: (h ++ (cs ++ (e ++ (')' :: rest)))),
      skipGap_eq_read.mpr ⟨g, rfl, hg, ends_cons.mpr (by decide)⟩, ?_⟩
    refine bind_eq_read.mpr ⟨(), h ++ (cs ++ (e ++ (')' :: rest))), by simp, ?_⟩
    refine bind_eq_read.mpr ⟨(), cs ++ (e ++ (')' :: rest)),
      skipGap_eq_read.mpr ⟨h, rfl, hh, inside⟩, ?_⟩
    refine bind_eq_read.mpr ⟨words, e ++ (')' :: rest),
      commit_eq_read.mpr (rightWords_read hcs ends follows), ?_⟩
    refine bind_eq_read.mpr ⟨(), ')' :: rest,
      skipGap_eq_read.mpr ⟨e, rfl, he, ends_cons.mpr (by decide)⟩, ?_⟩
    exact bind_eq_read.mpr ⟨(), rest, by simp, rfl⟩

theorem WritesPermission.head {p : Permission} {cs : List Char} (h : WritesPermission p cs) :
    ∃ c r, cs = c :: r ∧ Text.isGap c = false := by
  obtain @⟨d, words, w, g, h, e, cs, hw, _, _, _, _⟩ := h
  obtain ⟨c, r, rfl, solid, _⟩ := hw.disposition_head
  exact ⟨c, _, rfl, solid⟩

/-! ### Clauses -/

/-- The ways of writing a clause, with the gap in front of it. -/
def WritesClause (t : ClauseTree) (text : List Char) : Prop :=
  ∃ g ps h rs e, text = g ++ (ps ++ (h ++ (rs ++ (e ++ [';'])))) ∧ IsGap g ∧
    WritesPermission t.permission ps ∧ IsGap h ∧ (Phrase.series .or t.rule).Written rs ∧ IsGap e

theorem clause_eq_read {input rest : List Char} {t : ClauseTree} :
    clause input = .read t rest ↔ ∃ cs, input = cs ++ rest ∧ WritesClause t cs := by
  constructor
  · intro read
    obtain ⟨_, _, before, read₁⟩ := bind_eq_read.mp read
    obtain ⟨p, _, first, read₂⟩ := bind_eq_read.mp read₁
    obtain ⟨r, _, second, read₃⟩ := bind_eq_read.mp read₂
    obtain ⟨_, _, after, read₄⟩ := bind_eq_read.mp read₃
    obtain ⟨_, _, closed, read₅⟩ := bind_eq_read.mp read₄
    obtain ⟨rfl, rfl⟩ := pure_eq_read.mp read₅
    obtain ⟨g, rfl, hg, -⟩ := skipGap_eq_read.mp before
    obtain ⟨ps, rfl, hps⟩ := permission_eq_read.mp first
    obtain ⟨h, rs, rfl, hh, hrs⟩ := written_of_rule (commit_eq_read.mp second)
    obtain ⟨e, rfl, he, -⟩ := skipGap_eq_read.mp after
    obtain rfl := require_eq_read.mp closed
    exact ⟨_, by simp, g, ps, h, rs, e, rfl, hg, hps, hh, hrs, he⟩
  · rintro ⟨_, rfl, g, ps, h, rs, e, rfl, hg, hps, hh, hrs, he⟩
    have start : Ends Text.isGap (ps ++ (h ++ (rs ++ (e ++ (';' :: rest))))) := by
      obtain ⟨c, r, rfl, solid⟩ := hps.head
      exact ends_cons.mpr solid
    have follows : Clear Connective.or.stops (e ++ (';' :: rest)) := by
      rw [clear_append he]
      exact (clear_cons (by decide)).mpr (by decide)
    unfold clause
    simp only [List.append_assoc, List.cons_append, List.nil_append]
    refine bind_eq_read.mpr ⟨(), _, skipGap_eq_read.mpr ⟨g, rfl, hg, start⟩, ?_⟩
    refine bind_eq_read.mpr ⟨t.permission, h ++ (rs ++ (e ++ (';' :: rest))),
      permission_eq_read.mpr ⟨ps, rfl, hps⟩, ?_⟩
    refine bind_eq_read.mpr ⟨t.rule, e ++ (';' :: rest),
      commit_eq_read.mpr (rule_read hrs hh follows), ?_⟩
    refine bind_eq_read.mpr ⟨(), ';' :: rest,
      skipGap_eq_read.mpr ⟨e, rfl, he, ends_cons.mpr (by decide)⟩, ?_⟩
    exact bind_eq_read.mpr ⟨(), rest, by simp, rfl⟩

theorem clause_declines {rest : List Char} (h : Clear ['a', 'd'] rest) : Declines clause rest :=
  declines_bind_of_read (skipGap_read rest) (declines_bind (declines_bind (disposition_declines h)))

theorem WritesClause.ne_nil {t : ClauseTree} {cs : List Char} (h : WritesClause t cs) :
    cs ≠ [] := by
  obtain ⟨g, ps, h, rs, e, rfl, _⟩ := h
  simp

theorem many1_clause_read {ts : List ClauseTree} {cs rest : List Char} (full : ts ≠ [])
    (h : Repeated WritesClause ts cs) (after : Clear ['a', 'd'] rest) :
    many1 clause (cs ++ rest) = .read ts rest := by
  cases h with
  | nil => exact absurd rfl full
  | @cons t ts cs ds first others =>
    have repeats : Repeats clause (ds ++ rest) ts rest := by
      refine others.repeats (fun _ => True) ?_ WritesClause.ne_nil ?_ trivial
        (clause_declines after)
      · intro t cs rest ht _
        exact clause_eq_read.mpr ⟨cs, rfl, ht⟩
      · intro t cs rest _
        trivial
    unfold many1
    rw [List.append_assoc]
    refine bind_eq_read.mpr ⟨t, ds ++ rest, clause_eq_read.mpr ⟨cs, rfl, first⟩, ?_⟩
    exact bind_eq_read.mpr ⟨ts, rest, many_of_repeats repeats, rfl⟩

theorem writesClauses_of_many1 {ts : List ClauseTree} {input rest : List Char}
    (h : many1 clause input = .read ts rest) :
    ∃ cs, input = cs ++ rest ∧ ts ≠ [] ∧ Repeated WritesClause ts cs := by
  obtain ⟨t, _, first, read₁⟩ := bind_eq_read.mp h
  obtain ⟨ts', _, others, read₂⟩ := bind_eq_read.mp read₁
  obtain ⟨rfl, rfl⟩ := pure_eq_read.mp read₂
  obtain ⟨cs, rfl, hcs⟩ := clause_eq_read.mp first
  have progress : Progresses clause := progresses_of_sound clause_eq_read.mp WritesClause.ne_nil
  obtain ⟨ds, rfl, hds⟩ := ((many_eq_read progress).mp others).repeated clause_eq_read.mp
  exact ⟨cs ++ ds, by simp, by simp, .cons hcs hds⟩

/-! ### Instructions -/

/-- The ways of writing what stands between the target rules and the name. -/
def WritesHeader (text : List Char) : Prop :=
  ∃ g v h e a w i,
    text = '(' :: (g ++ (v ++ (h ++ ("3.0".toList ++ (e ++ (';' :: (a ++ (w ++ i)))))))) ∧
    IsGap g ∧ Spells "version" v ∧ IsGap h ∧ IsGap e ∧ IsGap a ∧ Spells "acl" w ∧ IsGap i

theorem header_read {text rest : List Char} (h : WritesHeader text) (ends : Ends Text.isGap rest) :
    header (text ++ rest) = .read () rest := by
  obtain ⟨g, v, h, e, a, w, i, rfl, hg, hv, hh, he, ha, hw, hi⟩ := h
  obtain ⟨c, r, startV, _, solidV⟩ :=
    solid_of_spells (c := 'v') (r := ['e', 'r', 's', 'i', 'o', 'n'])
    (by decide) (by decide) hv
  obtain ⟨d, s, startW, _, solidW⟩ := solid_of_spells (c := 'a') (r := ['c', 'l'])
    (by decide) (by decide) hw
  have three : "3.0".toList = ['3', '.', '0'] := by decide
  unfold header
  simp only [List.append_assoc, List.cons_append]
  refine bind_eq_read.mpr ⟨(), g ++ (v ++ (h ++ ("3.0".toList ++ (e ++ (';' :: (a ++ (w ++ (i ++
    rest)))))))), by simp, ?_⟩
  refine bind_eq_read.mpr ⟨(), _, skipGap_eq_read.mpr ⟨g, rfl, hg, ?_⟩, ?_⟩
  · rw [startV]
    exact ends_cons.mpr solidV
  refine bind_eq_read.mpr ⟨(), _, word_eq_read.mpr ⟨v, hv, rfl⟩, ?_⟩
  refine bind_eq_read.mpr ⟨(), _, skipGap_eq_read.mpr ⟨h, rfl, hh, ?_⟩, ?_⟩
  · rw [three]
    exact ends_cons.mpr (by decide)
  refine bind_eq_read.mpr ⟨(), _, require_eq_read.mpr rfl, ?_⟩
  refine bind_eq_read.mpr ⟨(), ';' :: (a ++ (w ++ (i ++ rest))), skipGap_eq_read.mpr ⟨e, rfl, he,
    ends_cons.mpr (by decide)⟩, ?_⟩
  refine bind_eq_read.mpr ⟨(), a ++ (w ++ (i ++ rest)), by simp, ?_⟩
  refine bind_eq_read.mpr ⟨(), w ++ (i ++ rest), skipGap_eq_read.mpr ⟨a, rfl, ha, ?_⟩, ?_⟩
  · rw [startW]
    exact ends_cons.mpr solidW
  refine bind_eq_read.mpr ⟨(), i ++ rest, ?_, skipGap_eq_read.mpr ⟨i, rfl, hi, ends⟩⟩
  exact note_eq_read.mpr (commit_eq_read.mpr (word_eq_read.mpr ⟨w, hw, rfl⟩))

theorem writesHeader_of_read {u : Unit} {input rest : List Char}
    (read : header input = .read u rest) : ∃ cs, input = cs ++ rest ∧ WritesHeader cs := by
  obtain ⟨_, _, opened, read₁⟩ := bind_eq_read.mp read
  obtain ⟨_, _, gap₁, read₂⟩ := bind_eq_read.mp read₁
  obtain ⟨_, _, version, read₃⟩ := bind_eq_read.mp read₂
  obtain ⟨_, _, gap₂, read₄⟩ := bind_eq_read.mp read₃
  obtain ⟨_, _, number, read₅⟩ := bind_eq_read.mp read₄
  obtain ⟨_, _, gap₃, read₆⟩ := bind_eq_read.mp read₅
  obtain ⟨_, _, closed, read₇⟩ := bind_eq_read.mp read₆
  obtain ⟨_, _, gap₄, read₈⟩ := bind_eq_read.mp read₇
  obtain ⟨_, _, acl, gap₅⟩ := bind_eq_read.mp read₈
  obtain rfl := sign_eq_read.mp opened
  obtain ⟨g, rfl, hg, -⟩ := skipGap_eq_read.mp gap₁
  obtain ⟨v, hv, rfl⟩ := word_eq_read.mp version
  obtain ⟨h, rfl, hh, -⟩ := skipGap_eq_read.mp gap₂
  obtain rfl := require_eq_read.mp number
  obtain ⟨e, rfl, he, -⟩ := skipGap_eq_read.mp gap₃
  obtain rfl := sign_eq_read.mp (commit_eq_read.mp closed)
  obtain ⟨a, rfl, ha, -⟩ := skipGap_eq_read.mp gap₄
  obtain ⟨w, hw, rfl⟩ := word_eq_read.mp (commit_eq_read.mp (note_eq_read.mp acl))
  obtain ⟨i, rfl, hi, -⟩ := skipGap_eq_read.mp gap₅
  exact ⟨_, by simp, g, v, h, e, a, w, i, rfl, hg, hv, hh, he, ha, hw, hi⟩

theorem WritesHeader.targetRule_declines {text : List Char} (h : WritesHeader text)
    (rest : List Char) : Declines targetRule (text ++ rest) := by
  obtain ⟨g, v, h, e, a, w, i, rfl, hg, hv, _⟩ := h
  obtain ⟨c, r, rfl, same, solid⟩ :=
    solid_of_spells (c := 'v') (r := ['e', 'r', 's', 'i', 'o', 'n'])
    (by decide) (by decide) hv
  simp only [List.append_assoc, List.cons_append]
  refine targetRule_declines_of_head hg ?_ solid
  rw [same]
  decide

/-- The ways of writing an instruction, with the gap in front of it. -/
def WritesInstruction (t : InstructionTree) (text : List Char) : Prop :=
  ∃ g ts hs ns h cs e,
    text = g ++ (ts ++ (hs ++ (ns ++ (h ++ (';' :: (cs ++ (e ++ [')']))))))) ∧ IsGap g ∧
    Repeated WritesTargetGap t.targets ts ∧ WritesHeader hs ∧ WritesQuoted t.name ns ∧ IsGap h ∧
    t.clauses ≠ [] ∧ Repeated WritesClause t.clauses cs ∧ IsGap e

theorem writesInstruction_of_read {input rest : List Char} {t : InstructionTree}
    (read : instruction input = .read t rest) :
    ∃ cs, input = cs ++ rest ∧ WritesInstruction t cs := by
  obtain ⟨_, _, gap₁, read₁⟩ := bind_eq_read.mp read
  obtain ⟨targets, _, first, read₂⟩ := bind_eq_read.mp read₁
  obtain ⟨_, _, second, read₃⟩ := bind_eq_read.mp read₂
  obtain ⟨name, _, third, read₄⟩ := bind_eq_read.mp read₃
  obtain ⟨_, _, gap₂, read₅⟩ := bind_eq_read.mp read₄
  obtain ⟨_, _, divided, read₆⟩ := bind_eq_read.mp read₅
  obtain ⟨clauses, _, fourth, read₇⟩ := bind_eq_read.mp read₆
  obtain ⟨_, _, gap₃, read₈⟩ := bind_eq_read.mp read₇
  obtain ⟨_, _, closed, read₉⟩ := bind_eq_read.mp read₈
  obtain ⟨rfl, rfl⟩ := pure_eq_read.mp read₉
  obtain ⟨g, rfl, hg, -⟩ := skipGap_eq_read.mp gap₁
  obtain ⟨ts, rfl, hts⟩ := writesTargets_of_read first
  obtain ⟨hs, rfl, hhs⟩ := writesHeader_of_read second
  obtain ⟨ns, rfl, hns⟩ :=
    quotedText_eq_read.mp (commit_eq_read.mp (described_eq_read.mp third))
  obtain ⟨h, rfl, hh, -⟩ := skipGap_eq_read.mp gap₂
  obtain rfl := sign_eq_read.mp (commit_eq_read.mp divided)
  obtain ⟨cs, rfl, full, hcs⟩ := writesClauses_of_many1 (commit_eq_read.mp fourth)
  obtain ⟨e, rfl, he, -⟩ := skipGap_eq_read.mp gap₃
  obtain rfl := sign_eq_read.mp (commit_eq_read.mp closed)
  exact ⟨_, by simp, g, ts, hs, ns, h, cs, e, rfl, hg, hts, hhs, hns, hh, full, hcs, he⟩

theorem instruction_read {cs rest : List Char} {t : InstructionTree} (h : WritesInstruction t cs) :
    instruction (cs ++ rest) = .read t rest := by
  obtain ⟨g, ts, hs, ns, h, cs, e, rfl, hg, hts, hhs, hns, hh, full, hcs, he⟩ := h
  have opened : Ends Text.isGap (hs ++ (ns ++ (h ++ (';' :: (cs ++ (e ++ (')' :: rest))))))) := by
    obtain ⟨_, _, _, _, _, _, _, rfl, _⟩ := hhs
    exact ends_cons.mpr (by decide)
  have start : Ends Text.isGap
      (ts ++ (hs ++ (ns ++ (h ++ (';' :: (cs ++ (e ++ (')' :: rest)))))))) := by
    generalize t.targets = targets at hts
    cases hts with
    | nil => exact opened
    | cons first _ =>
      obtain ⟨_, _, rfl, ⟨_, _, _, rfl, _⟩, _⟩ := first
      exact ends_cons.mpr (by decide)
  have stop : Clear ['a', 'd'] (e ++ (')' :: rest)) := by
    rw [clear_append he]
    exact (clear_cons (by decide)).mpr (by decide)
  unfold instruction
  simp only [List.append_assoc, List.cons_append, List.nil_append]
  refine bind_eq_read.mpr ⟨(), _, skipGap_eq_read.mpr ⟨g, rfl, hg, start⟩, ?_⟩
  refine bind_eq_read.mpr ⟨t.targets, _,
    targetRules_read hts opened (hhs.targetRule_declines _), ?_⟩
  refine bind_eq_read.mpr ⟨(), _, header_read hhs hns.ends, ?_⟩
  refine bind_eq_read.mpr ⟨t.name, h ++ (';' :: (cs ++ (e ++ (')' :: rest)))), ?_, ?_⟩
  · exact described_eq_read.mpr (commit_eq_read.mpr (quotedText_eq_read.mpr ⟨ns, rfl, hns⟩))
  refine bind_eq_read.mpr ⟨(), ';' :: (cs ++ (e ++ (')' :: rest))),
    skipGap_eq_read.mpr ⟨h, rfl, hh, ends_cons.mpr (by decide)⟩, ?_⟩
  refine bind_eq_read.mpr ⟨(), cs ++ (e ++ (')' :: rest)), by simp, ?_⟩
  refine bind_eq_read.mpr ⟨t.clauses, e ++ (')' :: rest),
    commit_eq_read.mpr (many1_clause_read full hcs stop), ?_⟩
  refine bind_eq_read.mpr ⟨(), ')' :: rest,
    skipGap_eq_read.mpr ⟨e, rfl, he, ends_cons.mpr (by decide)⟩, ?_⟩
  exact bind_eq_read.mpr ⟨(), rest, by simp, rfl⟩

theorem instruction_eq_read {input rest : List Char} {t : InstructionTree} :
    instruction input = .read t rest ↔ ∃ cs, input = cs ++ rest ∧ WritesInstruction t cs := by
  constructor
  · intro read
    exact writesInstruction_of_read read
  · rintro ⟨cs, rfl, h⟩
    exact instruction_read h

theorem WritesInstruction.ne_nil {t : InstructionTree} {cs : List Char}
    (h : WritesInstruction t cs) : cs ≠ [] := by
  obtain ⟨g, ts, hs, ns, h, cs, e, rfl, _⟩ := h
  simp

theorem instruction_declines {rest : List Char} (h : IsGap rest) : Declines instruction rest := by
  have noTargets : targetRules [] = .read [] [] :=
    many_of_repeats (.stop (declines_bind targetRule_declines_nil))
  exact declines_bind_of_read (skipGap_all h)
    (declines_bind_of_read noTargets (declines_bind (declines_bind (declines_sign rfl))))

/-! ### Whole texts -/

theorem wholePermission_readAll_iff {input : List Char} {p : Permission} :
    wholePermission.readAll input = .ok p ↔
      ∃ g cs h, input = g ++ (cs ++ h) ∧ IsGap g ∧ IsGap h ∧ WritesPermission p cs := by
  rw [readAll_eq_ok]
  constructor
  · intro read
    obtain ⟨_, _, before, read₁⟩ := bind_eq_read.mp read
    obtain ⟨_, _, inner, read₂⟩ := bind_eq_read.mp read₁
    obtain ⟨_, _, after, read₃⟩ := bind_eq_read.mp read₂
    obtain ⟨rfl, rfl⟩ := pure_eq_read.mp read₃
    obtain ⟨g, rfl, hg, -⟩ := skipGap_eq_read.mp before
    obtain ⟨cs, rfl, hcs⟩ := permission_eq_read.mp inner
    obtain ⟨h, rfl, hh, -⟩ := skipGap_eq_read.mp after
    exact ⟨g, cs, h, by simp, hg, hh, hcs⟩
  · rintro ⟨g, cs, h, rfl, hg, hh, hcs⟩
    have start : Ends Text.isGap (cs ++ h) := by
      obtain ⟨c, r, rfl, solid⟩ := hcs.head
      exact ends_cons.mpr solid
    refine bind_eq_read.mpr ⟨(), cs ++ h, skipGap_eq_read.mpr ⟨g, rfl, hg, start⟩, ?_⟩
    refine bind_eq_read.mpr ⟨p, h, permission_eq_read.mpr ⟨cs, rfl, hcs⟩, ?_⟩
    exact bind_eq_read.mpr ⟨(), [], skipGap_all hh, rfl⟩

theorem wholeClauses_readAll_iff {input : List Char} {ts : List ClauseTree} :
    wholeClauses.readAll input = .ok ts ↔
      ∃ cs h, input = cs ++ h ∧ ts ≠ [] ∧ Repeated WritesClause ts cs ∧ IsGap h := by
  rw [readAll_eq_ok]
  constructor
  · intro read
    obtain ⟨_, _, inner, read₁⟩ := bind_eq_read.mp read
    obtain ⟨_, _, after, read₂⟩ := bind_eq_read.mp read₁
    obtain ⟨rfl, rfl⟩ := pure_eq_read.mp read₂
    obtain ⟨cs, rfl, full, hcs⟩ := writesClauses_of_many1 inner
    obtain ⟨h, rfl, hh, -⟩ := skipGap_eq_read.mp after
    exact ⟨cs, h, by simp, full, hcs, hh⟩
  · rintro ⟨cs, h, rfl, full, hcs, hh⟩
    refine bind_eq_read.mpr ⟨ts, h, many1_clause_read full hcs (clear_of_isGap hh), ?_⟩
    exact bind_eq_read.mpr ⟨(), [], skipGap_all hh, rfl⟩

theorem wholeInstruction_readAll_iff {input : List Char} {t : InstructionTree} :
    wholeInstruction.readAll input = .ok t ↔
      ∃ cs h, input = cs ++ h ∧ WritesInstruction t cs ∧ IsGap h := by
  rw [readAll_eq_ok]
  constructor
  · intro read
    obtain ⟨_, _, inner, read₁⟩ := bind_eq_read.mp read
    obtain ⟨_, _, after, read₂⟩ := bind_eq_read.mp read₁
    obtain ⟨rfl, rfl⟩ := pure_eq_read.mp read₂
    obtain ⟨cs, rfl, hcs⟩ := instruction_eq_read.mp inner
    obtain ⟨h, rfl, hh, -⟩ := skipGap_eq_read.mp after
    exact ⟨cs, h, by simp, hcs, hh⟩
  · rintro ⟨cs, h, rfl, hcs, hh⟩
    refine bind_eq_read.mpr ⟨t, h, instruction_eq_read.mpr ⟨cs, rfl, hcs⟩, ?_⟩
    exact bind_eq_read.mpr ⟨(), [], skipGap_all hh, rfl⟩

theorem wholeInstructions_readAll_iff {input : List Char} {ts : List InstructionTree} :
    wholeInstructions.readAll input = .ok ts ↔
      ∃ cs h, input = cs ++ h ∧ Repeated WritesInstruction ts cs ∧ IsGap h := by
  have progress : Progresses instruction :=
    progresses_of_sound instruction_eq_read.mp WritesInstruction.ne_nil
  rw [readAll_eq_ok]
  constructor
  · intro read
    obtain ⟨_, _, inner, read₁⟩ := bind_eq_read.mp read
    obtain ⟨_, _, after, read₂⟩ := bind_eq_read.mp read₁
    obtain ⟨rfl, rfl⟩ := pure_eq_read.mp read₂
    obtain ⟨cs, rfl, hcs⟩ := ((many_eq_read progress).mp inner).repeated instruction_eq_read.mp
    obtain ⟨h, rfl, hh, -⟩ := skipGap_eq_read.mp after
    exact ⟨cs, h, by simp, hcs, hh⟩
  · rintro ⟨cs, h, rfl, hcs, hh⟩
    have repeats : Repeats instruction (cs ++ h) ts h := by
      refine hcs.repeats (fun _ => True) ?_ WritesInstruction.ne_nil ?_ trivial
        (instruction_declines hh)
      · intro t cs rest ht _
        exact instruction_eq_read.mpr ⟨cs, rfl, ht⟩
      · intro t cs rest _
        trivial
    refine bind_eq_read.mpr ⟨ts, h, many_of_repeats repeats, ?_⟩
    exact bind_eq_read.mpr ⟨(), [], skipGap_all hh, rfl⟩

end DirectoryAccess.Grammar
