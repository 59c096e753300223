import DirectoryAccess.Proofs.Grammar.InstructionReading
import DirectoryAccess.Proofs.Text.Recasing

/-!
# Written forms in other letter case

A written form stays one, and of the same tree, when letters outside quotes are made small or
capital. Each of the written forms is shown to have this property together with the text behind it,
so that the property passes from the parts of a form to the whole. That the grammar reads just the
written forms then makes its readers indifferent to letter case.
-/
namespace DirectoryAccess.Grammar

open Reader (IsGap Ends Repeated Listed)
open Text (Recased)

/-- Where a text of the kind is recased together with what follows it, there is a text of the kind
again. -/
def Recasable (W : List Char → Prop) : Prop :=
  ∀ ⦃cs rest text : List Char⦄, W cs → Recased false (cs ++ rest) text →
    ∃ cs' rest', text = cs' ++ rest' ∧ W cs' ∧ Recased false rest rest'

/-! ### Gaps, signs and words -/

theorem all_isMark_of_isGap {g : List Char} (hg : IsGap g) : g.all Text.isMark = true := by
  rw [List.all_eq_true]
  intro c hc
  have quote : c ≠ '"' := by
    rintro rfl
    have gap := hg _ hc
    revert gap
    decide
  simp [Text.isMark, isAlpha_of_isGap (hg c hc), quote]

theorem recased_gap {g rest text : List Char} (hg : IsGap g) (h : Recased false (g ++ rest) text) :
    ∃ rest', text = g ++ rest' ∧ Recased false rest rest' :=
  h.of_sign (all_isMark_of_isGap hg)

/-- A character that is neither a letter nor a quote stays. -/
theorem recased_char {c : Char} {rest text : List Char} (h : Recased false (c :: rest) text)
    (mark : Text.isMark c = true) : ∃ rest', text = c :: rest' ∧ Recased false rest rest' :=
  Recased.of_sign (s := [c]) h (by simpa using mark)

theorem isAlpha_congr {c d : Char} (same : c.toLower = d.toLower) : c.isAlpha = d.isAlpha := by
  rw [← Text.isAlpha_toLower, same, Text.isAlpha_toLower]

theorem isWordChar_congr {c d : Char} (same : c.toLower = d.toLower) :
    isWordChar c = isWordChar d := by
  cases alpha : c.isAlpha with
  | true =>
    have alpha' : d.isAlpha = true := (isAlpha_congr same).symm.trans alpha
    simp [isWordChar, Char.isAlphanum, alpha, alpha']
  | false => rw [Text.eq_of_toLower_eq alpha same]

/-- Whether a word ends does not depend on the case of what follows. -/
theorem recased_ends {cs ds : List Char} (h : Recased false cs ds) (ends : Ends isWordChar cs) :
    Ends isWordChar ds := by
  cases cs with
  | nil =>
    cases ds with
    | nil => exact ends_nil
    | cons d s => exact h.elim
  | cons c r =>
    cases ds with
    | nil => exact ends_nil
    | cons d s =>
      rw [ends_cons] at ends ⊢
      rw [← isWordChar_congr (show c.toLower = d.toLower from h.1), ends]

theorem forall_of_lower_eq {p : Char → Bool}
    (congr : ∀ {c d : Char}, c.toLower = d.toLower → p c = p d) {cs ds : List Char}
    (same : Text.lower ds = Text.lower cs) (own : ∀ c ∈ cs, p c = true) :
    ∀ d ∈ ds, p d = true := by
  intro d hd
  have lowered : d.toLower ∈ Text.lower cs := same ▸ List.mem_map_of_mem hd
  obtain ⟨c, hc, agree⟩ := List.mem_map.mp lowered
  rw [← congr agree]
  exact own c hc

theorem quote_not_mem_of_own {p : Char → Bool} (apart : p '"' = false) {cs : List Char}
    (own : ∀ c ∈ cs, p c = true) : '"' ∉ cs := by
  intro quote
  rw [own _ quote] at apart
  cases apart

theorem recasable_spells {word : String} (free : '"' ∉ Text.lower word.toList) :
    Recasable (Spells word) := by
  intro cs rest text hcs h
  have noQuote : '"' ∉ cs := fun quote => free (hcs ▸ List.mem_map_of_mem (f := Char.toLower) quote)
  obtain ⟨cs', rest', rfl, same, h'⟩ := h.of_word noQuote
  exact ⟨cs', rest', rfl, same.trans hcs, h'⟩

theorem recasable_spellsKeyword (k : Keyword) : Recasable (SpellsKeyword k) := by
  rintro cs rest text ⟨full, own, named⟩ h
  obtain ⟨cs', rest', rfl, same, h'⟩ := h.of_word (quote_not_mem_of_own (by decide) own)
  have own' : ∀ c ∈ cs', isWordChar c = true := forall_of_lower_eq isWordChar_congr same own
  refine ⟨cs', rest', rfl, ⟨?_, own', ?_⟩, h'⟩
  · rintro rfl
    exact full (List.map_eq_nil_iff.mp same.symm)
  · rw [← named]
    refine ofName?_congr ?_ ?_ ?_ <;> simpa only [String.toList_ofList]

/-- Which word of a permission a text is does not depend on the case of its letters. -/
theorem ofText?_congr {s t : String} (h : Text.lower s.toList = Text.lower t.toList)
    (hs : ∀ c ∈ s.toList, isWordChar c = true) (ht : ∀ c ∈ t.toList, isWordChar c = true) :
    RightWord.ofText? s = RightWord.ofText? t := by
  unfold RightWord.ofText? Right.ofName?
  rw [trimmed_of_isWordChar hs, trimmed_of_isWordChar ht, Text.sameWord_congr h,
    Text.sameWord_congr h, Text.findNamed_congr h]

theorem isWordChar_of_isAlpha {c : Char} (h : c.isAlpha = true) : isWordChar c = true := by
  simp [isWordChar, Char.isAlphanum, h]

theorem SpellsRight.of_lower_eq {r : RightWord} {cs ds : List Char} (h : SpellsRight r cs)
    (same : Text.lower ds = Text.lower cs) : SpellsRight r ds := by
  obtain ⟨full, own, named⟩ := h
  have own' : ∀ c ∈ ds, c.isAlpha = true := forall_of_lower_eq isAlpha_congr same own
  refine ⟨?_, own', ?_⟩
  · rintro rfl
    exact full (List.map_eq_nil_iff.mp same.symm)
  · rw [← named]
    refine ofText?_congr ?_ ?_ ?_ <;> simp only [String.toList_ofList]
    · exact same
    · exact fun c hc => isWordChar_of_isAlpha (own' c hc)
    · exact fun c hc => isWordChar_of_isAlpha (own c hc)

theorem recasable_spellsRight (r : RightWord) : Recasable (SpellsRight r) := by
  intro cs rest text spells h
  obtain ⟨cs', rest', rfl, same, h'⟩ := h.of_word (quote_not_mem_of_own (by decide) spells.2.1)
  exact ⟨cs', rest', rfl, spells.of_lower_eq same, h'⟩

theorem recasable_writesQuoted (v : String) : Recasable (WritesQuoted v) := by
  rintro _ rest text ⟨rfl, free⟩ h
  simp only [List.cons_append, List.append_assoc, List.nil_append] at h
  obtain ⟨rest', rfl, h'⟩ := h.of_quoted free
  exact ⟨'"' :: (v.toList ++ ['"']), rest', by simp, ⟨rfl, free⟩, h'⟩

theorem recasable_writesSign {sign : String} (marks : sign.toList.all Text.isMark = true) :
    Recasable (WritesSign sign) := by
  rintro _ rest text ⟨g, h, rfl, hg, hh⟩ r
  simp only [List.append_assoc] at r
  obtain ⟨_, rfl, r₁⟩ := recased_gap hg r
  obtain ⟨_, rfl, r₂⟩ := r₁.of_sign marks
  obtain ⟨rest', rfl, r₃⟩ := recased_gap hh r₂
  exact ⟨g ++ (sign.toList ++ h), rest', by simp, ⟨g, h, rfl, hg, hh⟩, r₃⟩

/-! ### Sequences and lists -/

theorem recasable_repeated {α : Type} {item : α → List Char → Prop} (h : ∀ a, Recasable (item a))
    (as : List α) : Recasable (Repeated item as) := by
  intro cs rest text written r
  induction written generalizing text with
  | nil => exact ⟨[], text, rfl, .nil, r⟩
  | @cons a as cs ds first others ih =>
    rw [List.append_assoc] at r
    obtain ⟨cs', _, rfl, first', r₁⟩ := h a first r
    obtain ⟨ds', rest', rfl, others', r₂⟩ := ih r₁
    exact ⟨cs' ++ ds', rest', by simp, .cons first' others', r₂⟩

theorem recasable_listed {α : Type} {separator : List Char → Prop} {item : α → List Char → Prop}
    (hs : Recasable separator) (h : ∀ a, Recasable (item a)) (as : List α) :
    Recasable (Listed separator item as) := by
  rintro _ rest text ⟨a, others, cs, ds, rfl, rfl, first, tail⟩ r
  have further : ∀ b, Recasable (fun es => ∃ s ts, es = s ++ ts ∧ separator s ∧ item b ts) := by
    rintro b _ rest text ⟨s, ts, rfl, sep, written⟩ r
    rw [List.append_assoc] at r
    obtain ⟨s', _, rfl, sep', r₁⟩ := hs sep r
    obtain ⟨ts', rest', rfl, written', r₂⟩ := h b written r₁
    exact ⟨s' ++ ts', rest', by simp, ⟨s', ts', rfl, sep', written'⟩, r₂⟩
  rw [List.append_assoc] at r
  obtain ⟨cs', _, rfl, first', r₁⟩ := h a first r
  obtain ⟨ds', rest', rfl, tail', r₂⟩ := recasable_repeated further others tail r₁
  exact ⟨cs' ++ ds', rest', by simp, ⟨a, others, cs', ds', rfl, rfl, first', tail'⟩, r₂⟩

/-! ### Conditions -/

theorem recasable_writesValues (vs : List String) : Recasable (WritesValues vs) :=
  recasable_listed (recasable_writesSign (by decide)) recasable_writesQuoted vs

theorem all_isMark_symbol (op : Comparison) : op.symbol.toList.all Text.isMark = true := by
  cases op <;> decide

theorem recasable_condition (t : ConditionTree) : Recasable t.Written := by
  rintro _ rest text @⟨k, op, vs, w, g, h, cs, hk, hg, hh, values⟩ r
  simp only [List.append_assoc] at r
  obtain ⟨w', _, rfl, hk', r₁⟩ := recasable_spellsKeyword k hk r
  obtain ⟨_, rfl, r₂⟩ := recased_gap hg r₁
  obtain ⟨_, rfl, r₃⟩ := r₂.of_sign (all_isMark_symbol op)
  obtain ⟨_, rfl, r₄⟩ := recased_gap hh r₃
  obtain ⟨cs', rest', rfl, values', r₅⟩ := recasable_writesValues vs values r₄
  exact ⟨_, rest', by simp, .intro hk' hg hh values', r₅⟩

theorem recasable_writesTarget (t : ConditionTree) : Recasable (WritesTarget t) := by
  rintro _ rest text ⟨g, cs, h, rfl, hg, hcs, hh⟩ r
  simp only [List.append_assoc, List.cons_append, List.nil_append] at r
  obtain ⟨_, rfl, r₁⟩ := recased_char r (by decide)
  obtain ⟨_, rfl, r₂⟩ := recased_gap hg r₁
  obtain ⟨cs', _, rfl, hcs', r₃⟩ := recasable_condition t hcs r₂
  obtain ⟨_, rfl, r₄⟩ := recased_gap hh r₃
  obtain ⟨rest', rfl, r₅⟩ := recased_char r₄ (by decide)
  exact ⟨_, rest', by simp, ⟨g, cs', h, rfl, hg, hcs', hh⟩, r₅⟩

theorem recasable_writesTargetGap (t : ConditionTree) : Recasable (WritesTargetGap t) := by
  rintro _ rest text ⟨cs, g, rfl, hcs, hg⟩ r
  rw [List.append_assoc] at r
  obtain ⟨cs', _, rfl, hcs', r₁⟩ := recasable_writesTarget t hcs r
  obtain ⟨rest', rfl, r₂⟩ := recased_gap hg r₁
  exact ⟨cs' ++ g, rest', by simp, ⟨cs', g, rfl, hcs', hg⟩, r₂⟩

/-! ### Bind rules -/

/-- Behind a word and its gap, what tells that the word ends is kept. -/
theorem ends_of_recased {g cs cs' rest rest' : List Char} (solid : Solid cs) (solid' : Solid cs')
    (ends : Ends isWordChar (g ++ cs))
    (r : Recased false (g ++ (cs ++ rest)) (g ++ (cs' ++ rest'))) :
    Ends isWordChar (g ++ cs') :=
  solid'.ends_behind.mp (recased_ends r (solid.ends_behind.mpr ends))

theorem recasable_connective (c : Connective) : Recasable (Spells c.text) := by
  cases c <;> exact recasable_spells (by decide)

theorem recasable_phrase (x : Phrase) : Recasable x.Written := by
  intro cs rest text written r
  induction written generalizing rest text with
  | condition h =>
    obtain ⟨cs', rest', rfl, h', r'⟩ := recasable_condition _ h r
    exact ⟨cs', rest', rfl, .condition h', r'⟩
  | @group t g h cs before after inner ih =>
    simp only [List.append_assoc, List.cons_append, List.nil_append] at r
    obtain ⟨_, rfl, r₁⟩ := recased_char r (by decide)
    obtain ⟨_, rfl, r₂⟩ := recased_gap before r₁
    obtain ⟨cs', _, rfl, inner', r₃⟩ := ih r₂
    obtain ⟨_, rfl, r₄⟩ := recased_gap after r₃
    obtain ⟨rest', rfl, r₅⟩ := recased_char r₄ (by decide)
    exact ⟨_, rest', by simp, .group before after inner', r₅⟩
  | @not t w g cs word gap ends inner ih =>
    simp only [List.append_assoc] at r
    obtain ⟨w', _, rfl, word', r₁⟩ := recasable_spells (by decide) word r
    obtain ⟨_, rfl, r₂⟩ := recased_gap gap r₁
    obtain ⟨cs', rest', rfl, inner', r₃⟩ := ih r₂
    have ends' := ends_of_recased inner.solid_unit inner'.solid_unit ends r₁
    exact ⟨_, rest', by simp, .not word' gap ends' inner', r₃⟩
  | alone h ih =>
    obtain ⟨cs', rest', rfl, h', r'⟩ := ih r
    exact ⟨cs', rest', rfl, .alone h', r'⟩
  | joined several first others ihFirst ihOthers =>
    rw [List.append_assoc] at r
    obtain ⟨cs', _, rfl, first', r₁⟩ := ihFirst r
    obtain ⟨ds', rest', rfl, others', r₂⟩ := ihOthers r₁
    exact ⟨cs' ++ ds', rest', by simp, .joined several first' others', r₂⟩
  | nil => exact ⟨[], text, rfl, .nil, r⟩
  | @cons c t ts g w h cs ds before word after ends first others ihFirst ihOthers =>
    simp only [List.append_assoc] at r
    obtain ⟨_, rfl, r₁⟩ := recased_gap before r
    obtain ⟨w', _, rfl, word', r₂⟩ := recasable_connective c word r₁
    obtain ⟨_, rfl, r₃⟩ := recased_gap after r₂
    obtain ⟨cs', _, rfl, first', r₄⟩ := ihFirst r₃
    have ends' := ends_of_recased first.solid_part first'.solid_part ends r₂
    obtain ⟨ds', rest', rfl, others', r₅⟩ := ihOthers r₄
    exact ⟨_, rest', by simp, .cons before word' after ends' first' others', r₅⟩

/-! ### Clauses and instructions -/

theorem recasable_writesPermission (p : Permission) : Recasable (WritesPermission p) := by
  rintro _ rest text @⟨d, words, w, g, h, e, cs, hw, hg, hh, hcs, he⟩ r
  have disposition : Recasable (Spells d.name) := by
    cases d <;> exact recasable_spells (by decide)
  simp only [List.append_assoc, List.cons_append, List.nil_append] at r
  obtain ⟨w', _, rfl, hw', r₁⟩ := disposition hw r
  obtain ⟨_, rfl, r₂⟩ := recased_gap hg r₁
  obtain ⟨_, rfl, r₃⟩ := recased_char r₂ (by decide)
  obtain ⟨_, rfl, r₄⟩ := recased_gap hh r₃
  obtain ⟨cs', _, rfl, hcs', r₅⟩ :=
    recasable_listed (recasable_writesSign (by decide)) recasable_spellsRight words hcs r₄
  obtain ⟨_, rfl, r₆⟩ := recased_gap he r₅
  obtain ⟨rest', rfl, r₇⟩ := recased_char r₆ (by decide)
  exact ⟨_, rest', by simp, .intro hw' hg hh hcs' he, r₇⟩

theorem recasable_writesClause (t : ClauseTree) : Recasable (WritesClause t) := by
  rintro _ rest text ⟨g, ps, h, rs, e, rfl, hg, hps, hh, hrs, he⟩ r
  simp only [List.append_assoc, List.cons_append, List.nil_append] at r
  obtain ⟨_, rfl, r₁⟩ := recased_gap hg r
  obtain ⟨ps', _, rfl, hps', r₂⟩ := recasable_writesPermission _ hps r₁
  obtain ⟨_, rfl, r₃⟩ := recased_gap hh r₂
  obtain ⟨rs', _, rfl, hrs', r₄⟩ := recasable_phrase _ hrs r₃
  obtain ⟨_, rfl, r₅⟩ := recased_gap he r₄
  obtain ⟨rest', rfl, r₆⟩ := recased_char r₅ (by decide)
  exact ⟨_, rest', by simp, ⟨g, ps', h, rs', e, rfl, hg, hps', hh, hrs', he⟩, r₆⟩

theorem recasable_writesHeader : Recasable WritesHeader := by
  rintro _ rest text ⟨g, v, h, e, a, w, i, rfl, hg, hv, hh, he, ha, hw, hi⟩ r
  simp only [List.append_assoc, List.cons_append] at r
  obtain ⟨_, rfl, r₁⟩ := recased_char r (by decide)
  obtain ⟨_, rfl, r₂⟩ := recased_gap hg r₁
  obtain ⟨v', _, rfl, hv', r₃⟩ := recasable_spells (by decide) hv r₂
  obtain ⟨_, rfl, r₄⟩ := recased_gap hh r₃
  obtain ⟨_, rfl, r₅⟩ := r₄.of_sign (by decide)
  obtain ⟨_, rfl, r₆⟩ := recased_gap he r₅
  obtain ⟨_, rfl, r₇⟩ := recased_char r₆ (by decide)
  obtain ⟨_, rfl, r₈⟩ := recased_gap ha r₇
  obtain ⟨w', _, rfl, hw', r₉⟩ := recasable_spells (by decide) hw r₈
  obtain ⟨rest', rfl, r₁₀⟩ := recased_gap hi r₉
  exact ⟨_, rest', by simp, ⟨g, v', h, e, a, w', i, rfl, hg, hv', hh, he, ha, hw', hi⟩, r₁₀⟩

theorem recasable_writesInstruction (t : InstructionTree) : Recasable (WritesInstruction t) := by
  rintro _ rest text ⟨g, ts, hs, ns, h, cs, e, rfl, hg, hts, hhs, hns, hh, full, hcs, he⟩ r
  simp only [List.append_assoc, List.cons_append, List.nil_append] at r
  obtain ⟨_, rfl, r₁⟩ := recased_gap hg r
  obtain ⟨ts', _, rfl, hts', r₂⟩ := recasable_repeated recasable_writesTargetGap _ hts r₁
  obtain ⟨hs', _, rfl, hhs', r₃⟩ := recasable_writesHeader hhs r₂
  obtain ⟨ns', _, rfl, hns', r₄⟩ := recasable_writesQuoted _ hns r₃
  obtain ⟨_, rfl, r₅⟩ := recased_gap hh r₄
  obtain ⟨_, rfl, r₆⟩ := recased_char r₅ (by decide)
  obtain ⟨cs', _, rfl, hcs', r₇⟩ := recasable_repeated recasable_writesClause _ hcs r₆
  obtain ⟨_, rfl, r₈⟩ := recased_gap he r₇
  obtain ⟨rest', rfl, r₉⟩ := recased_char r₈ (by decide)
  exact ⟨_, rest', by simp,
    ⟨g, ts', hs', ns', h, cs', e, rfl, hg, hts', hhs', hns', hh, full, hcs', he⟩, r₉⟩

/-! ### Whole texts -/

/-- What the reader makes of a text, it makes of the text in other letter case. -/
def CaseBlind {α : Type} (p : Reader α) : Prop :=
  ∀ ⦃input text : List Char⦄ ⦃a : α⦄, Recased false input text → p.readAll input = .ok a →
    p.readAll text = .ok a

theorem Recasable.whole {W : List Char → Prop} (h : Recasable W) {cs text : List Char}
    (written : W cs) (r : Recased false cs text) : W text := by
  rw [← List.append_nil cs] at r
  obtain ⟨cs', rest', rfl, written', r'⟩ := h written r
  obtain rfl := r'.of_nil
  rwa [List.append_nil]

theorem Recasable.behind_gap {W : List Char → Prop} (h : Recasable W) :
    Recasable (fun text => ∃ g cs, text = g ++ cs ∧ IsGap g ∧ W cs) := by
  rintro _ rest text ⟨g, cs, rfl, hg, written⟩ r
  rw [List.append_assoc] at r
  obtain ⟨_, rfl, r₁⟩ := recased_gap hg r
  obtain ⟨cs', rest', rfl, written', r₂⟩ := h written r₁
  exact ⟨g ++ cs', rest', by simp, ⟨g, cs', rfl, hg, written'⟩, r₂⟩

theorem Recasable.before_gap {W : List Char → Prop} (h : Recasable W) :
    Recasable (fun text => ∃ cs g, text = cs ++ g ∧ W cs ∧ IsGap g) := by
  rintro _ rest text ⟨cs, g, rfl, written, hg⟩ r
  rw [List.append_assoc] at r
  obtain ⟨cs', _, rfl, written', r₁⟩ := h written r
  obtain ⟨rest', rfl, r₂⟩ := recased_gap hg r₁
  exact ⟨cs' ++ g, rest', by simp, ⟨cs', g, rfl, written', hg⟩, r₂⟩

theorem caseBlind_wholeTargetRules : CaseBlind wholeTargetRules := by
  intro input text ts r read
  exact wholeTargetRules_readAll_iff.mpr
    ((recasable_repeated recasable_writesTargetGap ts).behind_gap.whole
      (wholeTargetRules_readAll_iff.mp read) r)

theorem caseBlind_wholeRule : CaseBlind wholeRule := by
  intro input text t r read
  obtain ⟨g, cs, h, rfl, hg, hh, written⟩ := wholeRule_readAll_iff.mp read
  obtain ⟨g', _, rfl, hg', cs', h', rfl, written', hh'⟩ :=
    (recasable_phrase (.series .or t)).before_gap.behind_gap.whole
      ⟨g, cs ++ h, rfl, hg, cs, h, rfl, written, hh⟩ r
  exact wholeRule_readAll_iff.mpr ⟨g', cs', h', rfl, hg', hh', written'⟩

theorem caseBlind_wholeClauses : CaseBlind wholeClauses := by
  intro input text ts r read
  obtain ⟨cs, h, rfl, full, written, hh⟩ := wholeClauses_readAll_iff.mp read
  obtain ⟨cs', h', rfl, written', hh'⟩ :=
    (recasable_repeated recasable_writesClause ts).before_gap.whole ⟨cs, h, rfl, written, hh⟩ r
  exact wholeClauses_readAll_iff.mpr ⟨cs', h', rfl, full, written', hh'⟩

theorem caseBlind_wholeInstruction : CaseBlind wholeInstruction := by
  intro input text t r read
  exact wholeInstruction_readAll_iff.mpr
    ((recasable_writesInstruction t).before_gap.whole (wholeInstruction_readAll_iff.mp read) r)

theorem caseBlind_wholeInstructions : CaseBlind wholeInstructions := by
  intro input text ts r read
  exact wholeInstructions_readAll_iff.mpr
    ((recasable_repeated recasable_writesInstruction ts).before_gap.whole
      (wholeInstructions_readAll_iff.mp read) r)

end DirectoryAccess.Grammar
