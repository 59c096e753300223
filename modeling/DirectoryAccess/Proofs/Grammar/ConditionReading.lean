import DirectoryAccess.Proofs.Grammar.Written

/-!
# Conditions are read from their written forms

Each part of a condition is read from just the texts that are written forms of it.
-/
namespace DirectoryAccess.Grammar

open Reader

/-- The ways of writing a condition: there may be gaps on both sides of the operator, and the one
in front of it makes the condition padded. -/
inductive ConditionTree.Written : ConditionTree → List Char → Prop
  | intro {k : Keyword} {op : Comparison} {vs : List String} {w g h cs : List Char}
    (keyword : SpellsKeyword k w) (before : IsGap g) (after : IsGap h)
    (values : WritesValues vs cs) :
    Written (.of k op vs !g.isEmpty) (w ++ (g ++ (op.symbol.toList ++ (h ++ cs))))

/-- The spellings of a condition: the written forms with the keyword by one of its names. -/
inductive ConditionTree.Spelled : ConditionTree → List Char → Prop
  | intro {k : Keyword} {op : Comparison} {vs : List String} {w g h cs : List Char}
    (keyword : NamesKeyword k w) (before : IsGap g) (after : IsGap h)
    (values : WritesValues vs cs) :
    Spelled (.of k op vs !g.isEmpty) (w ++ (g ++ (op.symbol.toList ++ (h ++ cs))))

theorem ConditionTree.Spelled.written {t : ConditionTree} {cs : List Char} (h : t.Spelled cs) :
    t.Written cs := by
  obtain ⟨keyword, before, after, values⟩ := h
  exact .intro keyword.spells before after values

/-! ### Signs between gaps -/

theorem sign_between_gaps_read {text : String} {c : Char} {r s rest : List Char}
    (spelt : text.toList = c :: r) (solid : Text.isGap c = false)
    (hs : WritesSign text s) (ends : Ends Text.isGap rest) :
    (do skipGap; sign text; skipGap : Reader Unit) (s ++ rest) = .read () rest := by
  obtain ⟨g, h, rfl, hg, hh⟩ := hs
  refine bind_eq_read.mpr ⟨(), text.toList ++ (h ++ rest), ?_, ?_⟩
  · refine skipGap_eq_read.mpr ⟨g, by simp, hg, ?_⟩
    rw [spelt]
    exact ends_cons.mpr solid
  · refine bind_eq_read.mpr ⟨(), h ++ rest, sign_eq_read.mpr rfl, ?_⟩
    exact skipGap_eq_read.mpr ⟨h, rfl, hh, ends⟩

theorem writesSign_of_read {text : String} {u : Unit} {input rest : List Char}
    (read : (do skipGap; sign text; skipGap : Reader Unit) input = .read u rest) :
    ∃ s, input = s ++ rest ∧ WritesSign text s := by
  obtain ⟨_, _, first, others⟩ := bind_eq_read.mp read
  obtain ⟨_, _, second, third⟩ := bind_eq_read.mp others
  obtain ⟨g, rfl, hg, -⟩ := skipGap_eq_read.mp first
  obtain rfl := sign_eq_read.mp second
  obtain ⟨h, rfl, hh, -⟩ := skipGap_eq_read.mp third
  exact ⟨g ++ (text.toList ++ h), by simp, g, h, rfl, hg, hh⟩

theorem WritesSign.ne_nil {text : String} {s : List Char} (full : text.toList ≠ [])
    (h : WritesSign text s) : s ≠ [] := by
  obtain ⟨g, h, rfl, _, _⟩ := h
  intro empty
  exact full (List.append_eq_nil_iff.mp (List.append_eq_nil_iff.mp empty).2).1

/-! ### Quoted values -/

theorem quotedText_eq_read {input rest : List Char} {v : String} :
    quotedText input = .read v rest ↔ ∃ cs, input = cs ++ rest ∧ WritesQuoted v cs := by
  unfold quotedText
  simp only [bind_eq_read, pure_eq_read, sign_eq_read, run_eq_read, require_eq_read]
  have quote : "\"".toList = ['"'] := by decide
  constructor
  · rintro ⟨_, _, rfl, text, _, ⟨rfl, own, -⟩, _, _, rfl, rfl, rfl⟩
    refine ⟨'"' :: (text ++ ['"']), by simp [quote], ?_, ?_⟩
    · rw [String.toList_ofList]
    · rw [String.toList_ofList]
      intro mem
      simpa using own '"' mem
  · rintro ⟨cs, rfl, rfl, free⟩
    refine ⟨(), v.toList ++ ('"' :: rest), by simp [quote], v.toList, '"' :: rest,
      ⟨rfl, ?_, ends_cons.mpr (by decide)⟩, (), rest, by simp [quote], by simp, rfl⟩
    intro c hc
    have differs : c ≠ '"' := fun same => free (same ▸ hc)
    simpa using differs

theorem WritesQuoted.ends {v : String} {cs rest : List Char} (h : WritesQuoted v cs) :
    Ends Text.isGap (cs ++ rest) := by
  rw [h.1]
  exact ends_cons.mpr (by decide)

theorem quotedValues_read {vs : List String} {cs rest : List Char} (h : WritesValues vs cs)
    (after : Clear ['|'] rest) : quotedValues (cs ++ rest) = .read vs rest := by
  unfold quotedValues
  refine Listed.separated_read (fun _ => True) ?_ ?_ ?_ ?_ h trivial ?_
  · intro v cs rest hv _
    exact quotedText_eq_read.mpr ⟨cs, rfl, hv⟩
  · intro s v cs rest hs hv
    exact sign_between_gaps_read (c := '|') (r := ['|']) (by decide) (by decide) hs hv.ends
  · intro s hs
    exact hs.ne_nil (by decide)
  · intro s rest _
    trivial
  · exact declines_sign_of_clear (c := '|') (r := ['|']) (by decide) after

theorem writesValues_of_read {vs : List String} {input rest : List Char}
    (h : quotedValues input = .read vs rest) :
    ∃ cs, input = cs ++ rest ∧ WritesValues vs cs := by
  unfold quotedValues at h
  exact listed_of_separated_read quotedText_eq_read.mp writesSign_of_read
    (fun hs => hs.ne_nil (by decide)) h

theorem WritesValues.ends {vs : List String} {cs rest : List Char} (h : WritesValues vs cs) :
    Ends Text.isGap (cs ++ rest) := by
  obtain ⟨v, others, ds, es, rfl, rfl, first, _⟩ := h
  rw [List.append_assoc]
  exact first.ends

theorem WritesValues.head {vs : List String} {cs : List Char} (h : WritesValues vs cs) :
    ∃ r, cs = '"' :: r := by
  obtain ⟨v, others, ds, es, rfl, rfl, ⟨rfl, _⟩, _⟩ := h
  exact ⟨_, rfl⟩

/-! ### Keywords and operators -/

theorem keyword_eq_read {input rest : List Char} {k : Keyword} :
    keyword input = .read k rest ↔
      ∃ w, input = w ++ rest ∧ SpellsKeyword k w ∧ Ends isWordChar rest := by
  unfold keyword
  rw [labelled_eq_read, select_eq_read]
  constructor
  · rintro ⟨w, read, named⟩
    obtain ⟨full, rfl, own, ends⟩ := run1_eq_read.mp read
    exact ⟨w, rfl, ⟨full, own, named⟩, ends⟩
  · rintro ⟨w, rfl, ⟨full, own, named⟩, ends⟩
    exact ⟨w, run1_eq_read.mpr ⟨full, rfl, own, ends⟩, named⟩

theorem read_of_firstOf {α : Type} {ps : List (Reader α)} {input rest : List Char} {a : α}
    (h : firstOf ps input = .read a rest) : ∃ p ∈ ps, p input = .read a rest := by
  induction ps with
  | nil => cases h
  | cons p ps ih =>
    cases ps with
    | nil => exact ⟨p, by simp, h⟩
    | cons q qs =>
      rcases orElse_eq_read.mp h with h | ⟨_, h⟩
      · exact ⟨p, by simp, h⟩
      · obtain ⟨r, mem, read⟩ := ih h
        exact ⟨r, List.mem_cons_of_mem p mem, read⟩

theorem operator_read (op : Comparison) {rest : List Char} (ends : Ends (· == '=') rest) :
    operator (op.symbol.toList ++ rest) = .read op rest := by
  unfold operator
  rw [labelled_eq_read]
  have different : ∀ c ∈ rest.head?, c ≠ '=' := fun c hc => by simpa using ends c hc
  cases rest with
  | nil => cases op <;> rfl
  | cons c r =>
    have : '=' ≠ c := Ne.symm (different c (by simp))
    cases op <;> simp [operatorsBySign, firstOf, orElse, bind, andThen, pure, give, sign,
      ofFunction, Text.after?, Comparison.symbol, refuse, this]

theorem symbol_of_operator {input rest : List Char} {op : Comparison}
    (h : operator input = .read op rest) : input = op.symbol.toList ++ rest := by
  unfold operator at h
  obtain ⟨p, mem, read⟩ := read_of_firstOf (labelled_eq_read.mp h)
  obtain ⟨op', _, rfl⟩ := List.mem_map.mp mem
  obtain ⟨_, mid, first, read⟩ := bind_eq_read.mp read
  obtain ⟨rfl, rfl⟩ := pure_eq_read.mp read
  exact sign_eq_read.mp first

theorem symbol_head (op : Comparison) :
    ∃ c r, op.symbol.toList = c :: r ∧ isWordChar c = false ∧ Text.isGap c = false := by
  cases op <;> exact ⟨_, _, rfl, by decide, by decide⟩

/-! ### Conditions -/

theorem condition_read {t : ConditionTree} {cs rest : List Char} (h : t.Written cs)
    (after : Clear ['|'] rest) : condition (cs ++ rest) = .read t rest := by
  obtain @⟨k, op, vs, w, g, h, cs, hk, hg, hh, values⟩ := h
  obtain ⟨c, r, symbol, noWord, solid⟩ := symbol_head op
  obtain ⟨vr, quoted⟩ := values.head
  unfold condition
  simp only [List.append_assoc]
  refine bind_eq_read.mpr ⟨k, g ++ (op.symbol.toList ++ (h ++ (cs ++ rest))), ?_, ?_⟩
  · refine keyword_eq_read.mpr ⟨w, rfl, hk, ?_⟩
    cases g with
    | nil =>
      rw [List.nil_append, symbol]
      exact ends_cons.mpr noWord
    | cons d ds => exact ends_cons.mpr (isWordChar_of_isGap (hg d (by simp)))
  refine bind_eq_read.mpr ⟨!g.isEmpty, op.symbol.toList ++ (h ++ (cs ++ rest)), ?_, ?_⟩
  · refine gap_eq_read.mpr ⟨g, rfl, hg, ?_, rfl⟩
    rw [symbol]
    exact ends_cons.mpr solid
  refine bind_eq_read.mpr ⟨op, h ++ (cs ++ rest), ?_, ?_⟩
  · refine commit_eq_read.mpr (operator_read op ?_)
    cases h with
    | nil =>
      rw [quoted]
      exact ends_cons.mpr (by decide)
    | cons d ds =>
      refine ends_cons.mpr (beq_eq_false_iff_ne.mpr ?_)
      rintro rfl
      have := hh '=' (by simp)
      revert this
      decide
  refine bind_eq_read.mpr ⟨(), cs ++ rest, skipGap_eq_read.mpr ⟨h, rfl, hh, values.ends⟩, ?_⟩
  refine bind_eq_read.mpr ⟨vs, rest, ?_, rfl⟩
  exact described_eq_read.mpr (commit_eq_read.mpr (quotedValues_read values after))

theorem written_of_condition {t : ConditionTree} {input rest : List Char}
    (read : condition input = .read t rest) : ∃ cs, input = cs ++ rest ∧ t.Written cs := by
  unfold condition at read
  obtain ⟨k, _, first, read₁⟩ := bind_eq_read.mp read
  obtain ⟨b, _, second, read₂⟩ := bind_eq_read.mp read₁
  obtain ⟨op, _, third, read₃⟩ := bind_eq_read.mp read₂
  obtain ⟨_, _, fourth, read₄⟩ := bind_eq_read.mp read₃
  obtain ⟨vs, _, fifth, read₅⟩ := bind_eq_read.mp read₄
  obtain ⟨rfl, rfl⟩ := pure_eq_read.mp read₅
  obtain ⟨w, rfl, hk, -⟩ := keyword_eq_read.mp first
  obtain ⟨g, rfl, hg, -, rfl⟩ := gap_eq_read.mp second
  obtain rfl := symbol_of_operator (commit_eq_read.mp third)
  obtain ⟨h, rfl, hh, -⟩ := skipGap_eq_read.mp fourth
  obtain ⟨cs, rfl, values⟩ := writesValues_of_read (commit_eq_read.mp (described_eq_read.mp fifth))
  exact ⟨_, by simp, .intro hk hg hh values⟩

/-- A condition begins with a letter of a keyword. -/
theorem ConditionTree.Written.head {t : ConditionTree} {cs : List Char} (h : t.Written cs) :
    ∃ c r, cs = c :: r ∧ isWordChar c = true ∧ c.toLower ∉ ['n', 'v'] := by
  obtain @⟨k, op, vs, w, g, h, cs, hk, -, -, -⟩ := h
  cases w with
  | nil => exact absurd rfl hk.1
  | cons c r => exact ⟨c, _, rfl, hk.2.1 c (by simp), hk.head_not_mem⟩

theorem condition_declines {c : Char} {r : List Char} (h : c.toLower ∈ ['n', 'v']) :
    Declines condition (c :: r) := by
  refine declines_bind (declines_note ?_)
  cases hw : isWordChar c with
  | false => exact declines_select (declines_run1 (ends_cons.mpr hw))
  | true =>
    have read : run1 isWordChar (c :: r) =
        .read (c :: r.takeWhile isWordChar) (r.dropWhile isWordChar) := by
      simp [run1, hw]
    refine declines_select_of_read read ?_
    cases named : Keyword.ofName? (String.ofList (c :: r.takeWhile isWordChar)) with
    | none => rfl
    | some k =>
      have own : ∀ d ∈ c :: r.takeWhile isWordChar, isWordChar d = true := by
        obtain ⟨_, _, own, _⟩ := run1_eq_read.mp read
        exact own
      exact absurd h (SpellsKeyword.head_not_mem ⟨by simp, own, named⟩)

/-! ### Target rules -/

/-- The ways of writing a condition in parentheses. -/
def WritesTarget (t : ConditionTree) (text : List Char) : Prop :=
  ∃ g cs h, text = '(' :: (g ++ (cs ++ (h ++ [')']))) ∧ IsGap g ∧ t.Written cs ∧ IsGap h

/-- The same with a gap behind it. -/
def WritesTargetGap (t : ConditionTree) (text : List Char) : Prop :=
  ∃ cs g, text = cs ++ g ∧ WritesTarget t cs ∧ IsGap g

theorem ConditionTree.Written.ends {t : ConditionTree} {cs : List Char} (h : t.Written cs)
    (rest : List Char) : Ends Text.isGap (cs ++ rest) := by
  obtain ⟨c, r, rfl, word, _⟩ := h.head
  exact ends_cons.mpr (Text.isGap_of_not_isBlank (isBlank_of_isWordChar word))

theorem targetRule_eq_read {input rest : List Char} {t : ConditionTree} :
    targetRule input = .read t rest ↔ ∃ cs, input = cs ++ rest ∧ WritesTarget t cs := by
  constructor
  · intro read
    obtain ⟨_, _, opened, read₁⟩ := bind_eq_read.mp read
    obtain ⟨_, _, before, read₂⟩ := bind_eq_read.mp read₁
    obtain ⟨_, _, inner, read₃⟩ := bind_eq_read.mp read₂
    obtain ⟨_, _, after, read₄⟩ := bind_eq_read.mp read₃
    obtain ⟨_, _, closed, read₅⟩ := bind_eq_read.mp read₄
    obtain ⟨rfl, rfl⟩ := pure_eq_read.mp read₅
    obtain rfl := sign_eq_read.mp opened
    obtain ⟨g, rfl, hg, -⟩ := skipGap_eq_read.mp before
    obtain ⟨cs, rfl, hcs⟩ := written_of_condition inner
    obtain ⟨h, rfl, hh, -⟩ := skipGap_eq_read.mp after
    obtain rfl := require_eq_read.mp closed
    exact ⟨_, by simp, g, cs, h, rfl, hg, hcs, hh⟩
  · rintro ⟨_, rfl, g, cs, h, rfl, hg, hcs, hh⟩
    have follows : Clear ['|'] (h ++ (')' :: rest)) := by
      rw [clear_append hh]
      exact (clear_cons (by decide)).mpr (by decide)
    unfold targetRule
    refine bind_eq_read.mpr ⟨(), g ++ (cs ++ (h ++ (')' :: rest))), by simp, ?_⟩
    refine bind_eq_read.mpr ⟨(), cs ++ (h ++ (')' :: rest)),
      skipGap_eq_read.mpr ⟨g, rfl, hg, hcs.ends _⟩, ?_⟩
    refine bind_eq_read.mpr ⟨t, h ++ (')' :: rest), condition_read hcs follows, ?_⟩
    refine bind_eq_read.mpr ⟨(), ')' :: rest,
      skipGap_eq_read.mpr ⟨h, rfl, hh, ends_cons.mpr (by decide)⟩, ?_⟩
    exact bind_eq_read.mpr ⟨(), rest, by simp, rfl⟩

/-- Behind a written condition in parentheses nothing can stand but a gap and the closing one. -/
theorem WritesTarget.closed {t u : ConditionTree} {ts after g cs rest : List Char}
    (h : WritesTarget t ts) (hg : IsGap g) (written : u.Written cs) (clear : Clear ['|'] rest)
    (same : ts ++ after = '(' :: (g ++ (cs ++ rest))) :
    ∃ e, IsGap e ∧ rest = e ++ ')' :: after := by
  have read : targetRule ('(' :: (g ++ (cs ++ rest))) = .read t after :=
    targetRule_eq_read.mpr ⟨ts, same.symm, h⟩
  have opened : sign "(" ('(' :: (g ++ (cs ++ rest))) = .read () (g ++ (cs ++ rest)) := by simp
  have skipped : skipGap (g ++ (cs ++ rest)) = .read () (cs ++ rest) :=
    skipGap_eq_read.mpr ⟨g, rfl, hg, written.ends _⟩
  unfold targetRule at read
  rw [bind_read opened, bind_read skipped, bind_read (condition_read written clear)] at read
  obtain ⟨_, _, gap, read₁⟩ := bind_eq_read.mp read
  obtain ⟨_, _, closing, read₂⟩ := bind_eq_read.mp read₁
  obtain ⟨_, rfl⟩ := pure_eq_read.mp read₂
  obtain ⟨e, rfl, he, -⟩ := skipGap_eq_read.mp gap
  obtain rfl := require_eq_read.mp closing
  exact ⟨e, he, rfl⟩

theorem targetRule_declines {c : Char} {r : List Char} (h : c ≠ '(') :
    Declines targetRule (c :: r) := by
  refine declines_bind (declines_sign ?_)
  have paren : "(".toList = ['('] := by decide
  rw [paren, Text.after?, if_neg (Ne.symm h)]

theorem targetRule_declines_nil : Declines targetRule [] :=
  declines_bind (declines_sign rfl)

/-- A parenthesis that opens something else than a condition is no target rule. -/
theorem targetRule_declines_of_head {g r : List Char} {c : Char} (hg : IsGap g)
    (h : c.toLower ∈ ['n', 'v']) (solid : Text.isGap c = false) :
    Declines targetRule ('(' :: (g ++ (c :: r))) := by
  have opened : sign "(" ('(' :: (g ++ (c :: r))) = .read () (g ++ (c :: r)) := by simp
  have skipped : skipGap (g ++ (c :: r)) = .read () (c :: r) :=
    skipGap_eq_read.mpr ⟨g, rfl, hg, ends_cons.mpr solid⟩
  exact declines_bind_of_read opened
    (declines_bind_of_read skipped (declines_bind (condition_declines h)))

theorem targetRules_read {ts : List ConditionTree} {cs rest : List Char}
    (h : Repeated WritesTargetGap ts cs) (ends : Ends Text.isGap rest)
    (stops : Declines targetRule rest) : targetRules (cs ++ rest) = .read ts rest := by
  refine many_of_repeats (h.repeats (Ends Text.isGap) ?_ ?_ ?_ ends (declines_bind stops))
  · rintro t _ rest ⟨cs, g, rfl, hcs, hg⟩ follows
    refine bind_eq_read.mpr ⟨t, g ++ rest, targetRule_eq_read.mpr ⟨cs, by simp, hcs⟩, ?_⟩
    exact bind_eq_read.mpr ⟨(), rest, skipGap_eq_read.mpr ⟨g, rfl, hg, follows⟩, rfl⟩
  · rintro t _ ⟨_, g, rfl, ⟨e, cs, h, rfl, _⟩, _⟩
    simp
  · rintro t _ rest ⟨_, g, rfl, ⟨e, cs, h, rfl, _⟩, _⟩
    exact ends_cons.mpr (by decide)

theorem writesTargets_of_read {ts : List ConditionTree} {input rest : List Char}
    (h : targetRules input = .read ts rest) :
    ∃ cs, input = cs ++ rest ∧ Repeated WritesTargetGap ts cs := by
  have sound : ∀ {input t rest}, (do let tree ← targetRule; skipGap; return tree) input =
      Outcome.read t rest → ∃ cs, input = cs ++ rest ∧ WritesTargetGap t cs := by
    intro input t rest read
    obtain ⟨_, _, first, read₁⟩ := bind_eq_read.mp read
    obtain ⟨_, _, gap, read₂⟩ := bind_eq_read.mp read₁
    obtain ⟨rfl, rfl⟩ := pure_eq_read.mp read₂
    obtain ⟨cs, rfl, hcs⟩ := targetRule_eq_read.mp first
    obtain ⟨g, rfl, hg, -⟩ := skipGap_eq_read.mp gap
    exact ⟨cs ++ g, by simp, cs, g, rfl, hcs, hg⟩
  have ne_nil : ∀ {t cs}, WritesTargetGap t cs → cs ≠ [] := by
    rintro t _ ⟨_, g, rfl, ⟨e, cs, h, rfl, _⟩, _⟩
    simp
  exact ((many_eq_read (progresses_of_sound sound ne_nil)).mp h).repeated sound

/-! ### Whole texts -/

theorem clear_of_isGap {stops h : List Char} (hh : IsGap h) : Clear stops h := by
  have cut : Clear stops (h ++ []) := (clear_append hh).mpr clear_nil
  rwa [List.append_nil] at cut

theorem skipGap_all {h : List Char} (hh : IsGap h) : skipGap h = .read () [] :=
  skipGap_eq_read.mpr ⟨h, by simp, hh, ends_nil⟩

/-- A text is read as a condition just when it is a written form of it between gaps, with or without
parentheses as the answer tells. -/
theorem wholeCondition_readAll_iff {input : List Char} {t : ConditionTree} {b : Bool} :
    wholeCondition.readAll input = .ok (t, b) ↔
      ∃ g cs h, input = g ++ (cs ++ h) ∧ IsGap g ∧ IsGap h ∧
        (if b then WritesTarget t cs else t.Written cs) := by
  rw [readAll_eq_ok]
  constructor
  · intro read
    obtain ⟨_, _, before, read₁⟩ := bind_eq_read.mp read
    obtain ⟨⟨t', b'⟩, _, inner, read₂⟩ := bind_eq_read.mp read₁
    obtain ⟨_, _, after, read₃⟩ := bind_eq_read.mp read₂
    obtain ⟨same, rfl⟩ := pure_eq_read.mp read₃
    cases same
    obtain ⟨g, rfl, hg, -⟩ := skipGap_eq_read.mp before
    obtain ⟨h, rfl, hh, -⟩ := skipGap_eq_read.mp after
    rcases orElse_eq_read.mp inner with read₄ | ⟨-, read₄⟩
    · obtain ⟨_, _, target, read₅⟩ := bind_eq_read.mp read₄
      obtain ⟨same, rfl⟩ := pure_eq_read.mp read₅
      cases same
      obtain ⟨cs, rfl, hcs⟩ := targetRule_eq_read.mp target
      exact ⟨g, cs, h, by simp, hg, hh, hcs⟩
    · obtain ⟨_, _, plain, read₅⟩ := bind_eq_read.mp read₄
      obtain ⟨same, rfl⟩ := pure_eq_read.mp read₅
      cases same
      obtain ⟨cs, rfl, hcs⟩ := written_of_condition plain
      exact ⟨g, cs, h, by simp, hg, hh, hcs⟩
  · rintro ⟨g, cs, h, rfl, hg, hh, hcs⟩
    unfold wholeCondition
    cases b with
    | true =>
      have target : WritesTarget t cs := hcs
      have ends : Ends Text.isGap (cs ++ h) := by
        obtain ⟨_, _, _, rfl, _⟩ := target
        exact ends_cons.mpr (by decide)
      refine bind_eq_read.mpr ⟨(), cs ++ h, skipGap_eq_read.mpr ⟨g, rfl, hg, ends⟩, ?_⟩
      refine bind_eq_read.mpr ⟨(t, true), h, orElse_eq_read.mpr (.inl ?_), ?_⟩
      · exact bind_eq_read.mpr ⟨t, h, targetRule_eq_read.mpr ⟨cs, rfl, target⟩, rfl⟩
      · exact bind_eq_read.mpr ⟨(), [], skipGap_all hh, rfl⟩
    | false =>
      have plain : t.Written cs := hcs
      refine bind_eq_read.mpr ⟨(), cs ++ h, skipGap_eq_read.mpr ⟨g, rfl, hg, plain.ends h⟩, ?_⟩
      refine bind_eq_read.mpr ⟨(t, false), h, orElse_eq_read.mpr (.inr ⟨?_, ?_⟩), ?_⟩
      · obtain ⟨c, r, rfl, word, _⟩ := plain.head
        refine declines_bind (targetRule_declines ?_)
        rintro rfl
        revert word
        decide
      · exact bind_eq_read.mpr ⟨t, h, condition_read plain (clear_of_isGap hh), rfl⟩
      · exact bind_eq_read.mpr ⟨(), [], skipGap_all hh, rfl⟩

/-- A text that opens a parenthesis and goes on with a condition is read only if nothing but the
closing parenthesis follows the condition, gaps aside. -/
theorem closed_of_wholeCondition {t u : ConditionTree} {b : Bool} {g cs rest : List Char}
    (hg : IsGap g) (written : u.Written cs) (clear : Clear ['|'] rest)
    (h : wholeCondition.readAll ('(' :: (g ++ (cs ++ rest))) = .ok (t, b)) :
    ∃ e f, IsGap e ∧ rest = e ++ ')' :: f := by
  obtain ⟨before, ts, f, same, hbefore, _, writes⟩ := wholeCondition_readAll_iff.mp h
  cases before with
  | cons c r =>
    obtain ⟨rfl, _⟩ := List.cons.inj same
    exact absurd (hbefore '(' (by simp)) (by decide)
  | nil =>
    cases b with
    | true =>
      obtain ⟨e, he, closed⟩ := WritesTarget.closed (h := writes) hg written clear same.symm
      exact ⟨e, f, he, closed⟩
    | false =>
      have plain : t.Written ts := writes
      obtain ⟨c, r, rfl, word, _⟩ := plain.head
      obtain ⟨rfl, _⟩ := List.cons.inj same
      exact absurd word (by decide)

theorem wholeTargetRules_readAll_iff {input : List Char} {ts : List ConditionTree} :
    wholeTargetRules.readAll input = .ok ts ↔
      ∃ g cs, input = g ++ cs ∧ IsGap g ∧ Repeated WritesTargetGap ts cs := by
  rw [readAll_eq_ok]
  constructor
  · intro read
    obtain ⟨_, _, gap, read₁⟩ := bind_eq_read.mp read
    obtain ⟨g, rfl, hg, -⟩ := skipGap_eq_read.mp gap
    obtain ⟨cs, rfl, hcs⟩ := writesTargets_of_read read₁
    exact ⟨g, cs, by simp, hg, hcs⟩
  · rintro ⟨g, cs, rfl, hg, hcs⟩
    have ends : Ends Text.isGap cs := by
      cases hcs with
      | nil => exact ends_nil
      | cons first _ =>
        obtain ⟨_, _, rfl, ⟨_, _, _, rfl, _⟩, _⟩ := first
        exact ends_cons.mpr (by decide)
    refine bind_eq_read.mpr ⟨(), cs, skipGap_eq_read.mpr ⟨g, rfl, hg, ends⟩, ?_⟩
    have read : targetRules (cs ++ []) = .read ts [] :=
      targetRules_read hcs ends_nil targetRule_declines_nil
    rwa [List.append_nil] at read

end DirectoryAccess.Grammar
