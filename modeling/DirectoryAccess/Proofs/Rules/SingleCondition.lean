import DirectoryAccess.Proofs.Instruction.WellFormed

/-!
# A single condition, read as a condition and as a rule

A text with one condition, in parentheses or not, can be read as a condition and as a bind rule. The
two readings are the same where the parentheses are spaced as the operator is. Otherwise the
condition takes the spacing of its operator for the parentheses too, while the rule keeps both by a
stack around the condition. Only such a stack looks at the keyword, so what is read as a rule is
about clients throughout unless it is a condition about entries that needed no stack.
-/
namespace DirectoryAccess

/-! ### The spacing of a text -/

namespace Grammar

open Reader

def startsWithGap (cs : List Char) : Bool :=
  cs.head?.any Text.isGap

/-- Where the text opens a parenthesis, there is a gap behind it just when there is one behind the
word that comes next. -/
def evenlySpaced (text : List Char) : Bool :=
  match text.dropWhile Text.isGap with
  | '(' :: inner =>
    startsWithGap inner == startsWithGap ((inner.dropWhile Text.isGap).dropWhile isWordChar)
  | _ => true

theorem startsWithGap_append {g cs : List Char} (hg : IsGap g) (solid : Ends Text.isGap cs) :
    startsWithGap (g ++ cs) = !g.isEmpty := by
  cases g with
  | nil =>
    cases cs with
    | nil => rfl
    | cons c r => exact ends_cons.mp solid
  | cons c r => exact hg c (by simp)

/-- Behind the word of a written condition there is a gap just when the condition is padded. -/
theorem ConditionTree.Written.startsWithGap {t : ConditionTree} {cs : List Char} (h : t.Written cs)
    (rest : List Char) :
    Grammar.startsWithGap ((cs ++ rest).dropWhile isWordChar) = t.padded := by
  obtain @⟨k, op, vs, w, g, h, cs, keyword, before, -, -⟩ := h
  obtain ⟨c, r, symbol, noWord, solid⟩ := symbol_head op
  have wordEnds : Ends isWordChar (g ++ (op.symbol.toList ++ (h ++ cs)) ++ rest) := by
    cases g with
    | nil =>
      rw [symbol]
      exact ends_cons.mpr noWord
    | cons d ds => exact ends_cons.mpr (isWordChar_of_isGap (before d (by simp)))
  have gapEnds : Ends Text.isGap (op.symbol.toList ++ (h ++ cs) ++ rest) := by
    rw [symbol]
    exact ends_cons.mpr solid
  have behind := (span_eq_iff.mpr ⟨rfl, keyword.2.1, wordEnds⟩).2
  rw [List.append_assoc, ← behind, List.append_assoc, startsWithGap_append before gapEnds]
  rfl

theorem evenlySpaced_of_written {t : ConditionTree} {g cs : List Char} (before : IsGap g)
    (h : t.Written cs) (rest : List Char) : evenlySpaced (g ++ (cs ++ rest)) = true := by
  unfold evenlySpaced
  rw [dropWhile_gap before (h.ends rest)]
  obtain ⟨c, r, rfl, word, _⟩ := h.head
  rw [List.cons_append]
  split
  · next same =>
    obtain ⟨rfl, _⟩ := List.cons.inj same
    exact absurd word (by decide)
  · rfl

theorem evenlySpaced_of_opened {t : ConditionTree} {g e cs : List Char} (before : IsGap g)
    (inside : IsGap e) (h : t.Written cs) (rest : List Char) :
    evenlySpaced (g ++ ('(' :: (e ++ (cs ++ rest)))) = ((!e.isEmpty) == t.padded) := by
  have opens : Ends Text.isGap ('(' :: (e ++ (cs ++ rest))) := ends_cons.mpr (by decide)
  unfold evenlySpaced
  rw [dropWhile_gap before opens]
  show (startsWithGap (e ++ (cs ++ rest)) == startsWithGap
    (((e ++ (cs ++ rest)).dropWhile Text.isGap).dropWhile isWordChar)) = _
  rw [startsWithGap_append inside (h.ends rest), dropWhile_gap inside (h.ends rest),
    h.startsWithGap rest]

/-! ### What the two readings have in common -/

/-- A rule that is no chain is written as such, at whatever level it stands. -/
theorem Phrase.Written.unit_of_series {c : Connective} {t : RuleTree} {cs : List Char}
    (h : (Phrase.series c t).Written cs) (member : t.isMember = true) :
    (Phrase.unit t).Written cs := by
  have lower : ∀ {d : Connective}, (Phrase.series d t).Written cs → (d.part t).Written cs := by
    intro d h
    cases h with
    | alone h => exact h
    | joined => cases d <;> cases member
  cases c with
  | and => exact lower h
  | or => exact lower (d := .and) (lower h)

theorem written_condition_iff {t : ConditionTree} {cs : List Char} :
    (Phrase.series .or (.condition t)).Written cs ↔ t.Written cs := by
  constructor
  · intro h
    cases h.unit_of_series rfl with
    | condition h => exact h
  · intro h
    exact (RuleTree.WrittenAtLevels.of_unit (.condition h)).rule

theorem written_group_iff {padded : Bool} {t : ConditionTree} {cs : List Char} :
    (Phrase.series .or (.group padded (.condition t))).Written cs ↔
      ∃ e ds f, cs = '(' :: (e ++ (ds ++ (f ++ [')']))) ∧ IsGap e ∧ t.Written ds ∧ IsGap f ∧
        padded = !e.isEmpty := by
  constructor
  · intro h
    cases h.unit_of_series rfl with
    | group before after inner =>
      exact ⟨_, _, _, rfl, before, written_condition_iff.mp inner, after, rfl⟩
  · rintro ⟨e, ds, f, rfl, before, inner, after, rfl⟩
    exact (RuleTree.WrittenAtLevels.of_unit
      (.group before after (written_condition_iff.mpr inner))).rule

theorem wholeRule_condition_iff {text : List Char} {t : ConditionTree} :
    wholeRule.readAll text = .ok (.condition t) ↔
      wholeCondition.readAll text = .ok (t, false) := by
  rw [wholeRule_readAll_iff, wholeCondition_readAll_iff]
  simp only [written_condition_iff, Bool.false_eq_true, if_false]

/-- The padding of the parentheses, which the reader of conditions leaves out, can be told from the
spacing of the text. -/
theorem wholeRule_group_iff {text : List Char} {padded : Bool} {t : ConditionTree} :
    wholeRule.readAll text = .ok (.group padded (.condition t)) ↔
      wholeCondition.readAll text = .ok (t, true) ∧
        evenlySpaced text = (padded == t.padded) := by
  rw [wholeRule_readAll_iff, wholeCondition_readAll_iff]
  simp only [written_group_iff, if_true]
  constructor
  · rintro ⟨g, _, h, rfl, before, after, e, ds, f, rfl, inside, written, closing, rfl⟩
    refine ⟨⟨g, _, h, rfl, before, after, e, ds, f, rfl, inside, written, closing⟩, ?_⟩
    simpa using evenlySpaced_of_opened before inside written (f ++ ([')'] ++ h))
  · rintro ⟨⟨g, _, h, rfl, before, after, e, ds, f, rfl, inside, written, closing⟩, spacing⟩
    have own := evenlySpaced_of_opened before inside written (f ++ ([')'] ++ h))
    refine ⟨g, _, h, rfl, before, after, e, ds, f, rfl, inside, written, closing, ?_⟩
    have same : (padded == t.padded) = ((!e.isEmpty) == t.padded) := by
      rw [← own, ← spacing]
      simp
    revert same
    cases padded <;> cases t.padded <;> cases e.isEmpty <;> decide

end Grammar

open Grammar

/-- The parentheses of a settled condition are free. -/
theorem Condition.Settled.bare {c : Condition} (h : c.Settled) :
    Settled { c with parenthesized := false } := by
  obtain ⟨canonical, permitted, full, valid⟩ := h
  exact .intro canonical permitted full valid

/-! ### One condition in both readings -/

namespace BindRule

theorem grouped_leaf {layout : Layout} {padded : Bool} {c : Condition}
    (bare : c.parenthesized = false) :
    grouped layout padded (.leaf c) =
      if padded = c.padded then .ok (.leaf { c with parenthesized := true })
      else wrapped layout padded (.leaf c) := by
  rw [grouped, bare]
  cases padded <;> cases c.padded <;> rfl

/-- Without parentheses there is nothing to be spaced unevenly. -/
theorem evenlySpaced_of_read {text : String} {c : Condition} (read : Condition.read text = .ok c)
    (bare : c.parenthesized = false) : evenlySpaced text.toList = true := by
  obtain ⟨⟨t, b⟩, parsed, made⟩ := bind_eq_ok.mp read
  obtain ⟨e, _, _, _, _, rfl⟩ := ConditionTree.toCondition_eq_ok_iff.mp made
  obtain rfl : b = false := bare
  obtain ⟨g, cs, h, same, before, _, written⟩ :=
    wholeCondition_readAll_iff.mp (readText_eq_ok.mp (mapError_eq_ok.mp parsed))
  rw [same]
  exact evenlySpaced_of_written before written h

/-- What a text of a condition gives when it is read as a rule: the condition itself, or a stack for
the parentheses that are not spaced as the operator is. -/
theorem read_of_condition {text : String} {c : Condition} (read : Condition.read text = .ok c)
    (layout : Layout) :
    BindRule.read text layout =
      if evenlySpaced text.toList then .ok (.leaf c)
      else wrapped layout (!c.padded) (.leaf { c with parenthesized := false }) := by
  obtain ⟨⟨t, b⟩, parsed, made⟩ := bind_eq_ok.mp read
  have whole := readText_eq_ok.mp (mapError_eq_ok.mp parsed)
  obtain ⟨e, value, permitted, full, valid, rfl⟩ := ConditionTree.toCondition_eq_ok_iff.mp made
  have bare :
      t.toCondition false = .ok ⟨some t.keyword, some t.operator, some e, false, t.padded⟩ :=
    ConditionTree.toCondition_eq_ok_iff.mpr ⟨e, value, permitted, full, valid, rfl⟩
  have condition : (RuleTree.condition t).toBindRule layout =
      .ok (.leaf ⟨some t.keyword, some t.operator, some e, false, t.padded⟩) :=
    RuleTree.toBindRule_condition.mpr ⟨_, bare, rfl⟩
  unfold BindRule.read
  cases b with
  | false =>
    rw [if_pos (evenlySpaced_of_read read rfl),
      readText_eq_ok.mpr (wholeRule_condition_iff.mpr whole)]
    exact condition
  | true =>
    have group : wholeRule.readAll text.toList =
        .ok (.group (evenlySpaced text.toList == t.padded) (.condition t)) :=
      wholeRule_group_iff.mpr ⟨whole, by cases evenlySpaced text.toList <;> simp⟩
    rw [readText_eq_ok.mpr group]
    show RuleTree.toBindRule layout _ = _
    rw [RuleTree.toBindRule, condition]
    refine (grouped_leaf rfl).trans ?_
    cases evenlySpaced text.toList <;> simp

/-- Chains and negations give stacks. -/
theorem exists_stack_of_toBindRule {layout : Layout} {t : RuleTree} {r : BindRule}
    (made : t.toBindRule layout = .ok r) (noCondition : ∀ u, t ≠ .condition u)
    (noGroup : ∀ padded u, t ≠ .group padded u) : ∃ s es, r = .stack s es := by
  cases t with
  | condition u => exact absurd rfl (noCondition u)
  | group padded u => exact absurd rfl (noGroup padded u)
  | and ts =>
    obtain ⟨xs, _, _, rfl⟩ := (RuleTree.toBindRule_join (c := .and)).mp made
    exact ⟨_, xs, rfl⟩
  | or ts =>
    obtain ⟨xs, _, _, rfl⟩ := (RuleTree.toBindRule_join (c := .or)).mp made
    exact ⟨_, xs, rfl⟩
  | not u =>
    cases u with
    | group padded v =>
      obtain ⟨x, _, _, rfl⟩ := RuleTree.toBindRule_negatedGroup.mp made
      exact ⟨_, [x], rfl⟩
    | _ =>
      obtain ⟨x, _, _, rfl⟩ := (RuleTree.toBindRule_not (by simp)).mp made
      exact ⟨_, [x], rfl⟩

/-- A condition without parentheses is made of its tree alone. -/
theorem tree_of_bare {layout : Layout} {t : RuleTree} {c : Condition}
    (made : t.toBindRule layout = .ok (.leaf c)) (bare : c.parenthesized = false) :
    ∃ u, t = .condition u ∧ u.toCondition false = .ok c := by
  cases t with
  | condition u =>
    obtain ⟨d, made', same⟩ := RuleTree.toBindRule_condition.mp made
    obtain rfl := Node.leaf.inj same
    exact ⟨u, rfl, made'⟩
  | group padded u =>
    obtain ⟨x, _, grouped⟩ := RuleTree.toBindRule_group.mp made
    cases encloses_of_grouped grouped
    cases bare
  | _ =>
    obtain ⟨s, es, same⟩ := exists_stack_of_toBindRule made (by simp) (by simp)
    cases same

/-- A condition is made of its tree, or of its tree in parentheses that have become its own. -/
theorem tree_of_leaf {layout : Layout} {t : RuleTree} {c : Condition}
    (made : t.toBindRule layout = .ok (.leaf c)) :
    ∃ u, u.toCondition c.parenthesized = .ok c ∧
      (t = .condition u ∧ c.parenthesized = false ∨
        t = .group u.padded (.condition u) ∧ c.parenthesized = true) := by
  cases t with
  | condition u =>
    obtain ⟨d, made', same⟩ := RuleTree.toBindRule_condition.mp made
    obtain rfl := Node.leaf.inj same
    obtain ⟨_, _, _, _, _, rfl⟩ := ConditionTree.toCondition_eq_ok_iff.mp made'
    exact ⟨u, made', .inl ⟨rfl, rfl⟩⟩
  | group padded inner =>
    obtain ⟨x, made', grouped⟩ := RuleTree.toBindRule_group.mp made
    cases encloses_of_grouped grouped with
    | condition bare same =>
      obtain ⟨u, rfl, made''⟩ := tree_of_bare made' bare
      obtain ⟨e, value, permitted, full, valid, rfl⟩ :=
        ConditionTree.toCondition_eq_ok_iff.mp made''
      obtain rfl : u.padded = padded := same
      refine ⟨u, ?_, .inr ⟨rfl, rfl⟩⟩
      exact ConditionTree.toCondition_eq_ok_iff.mpr ⟨e, value, permitted, full, valid, rfl⟩
  | _ =>
    obtain ⟨s, es, same⟩ := exists_stack_of_toBindRule made (by simp) (by simp)
    cases same

/-- A rule that is a condition is read from the text as a condition, too. -/
theorem read_condition_of_leaf {text : String} {layout : Layout} {c : Condition}
    (read : BindRule.read text layout = .ok (.leaf c)) : Condition.read text = .ok c := by
  obtain ⟨t, parsed, _, made⟩ := exists_tree_of_read read
  obtain ⟨u, made', tree⟩ := tree_of_leaf made
  have whole : wholeCondition.readAll text.toList = .ok (u, c.parenthesized) := by
    rcases tree with ⟨rfl, bare⟩ | ⟨rfl, enclosed⟩
    · rw [bare]
      exact wholeRule_condition_iff.mp (readText_eq_ok.mp parsed)
    · rw [enclosed]
      exact (wholeRule_group_iff.mp (readText_eq_ok.mp parsed)).1
  unfold Condition.read
  exact bind_eq_ok.mpr ⟨(u, c.parenthesized), mapError_eq_ok.mpr (readText_eq_ok.mpr whole), made'⟩

/-! ### Which conditions a stack takes -/

theorem fits_leaf_iff {c : Condition} (settled : c.Settled) :
    Fits (.leaf c) ↔ ∃ k : BindKeyword, c.keyword = some (.bind k) := by
  constructor
  · intro fits
    have composed : Composed (.leaf c) := composed_leaf_iff.mpr settled
    exact (composed.condition_within fits .self).1
  · rintro ⟨k, keyword⟩
    refine ⟨settled.validate, fun l hl => ?_⟩
    rw [← Option.some.inj (keyword.symm.trans hl)]
    rfl

theorem Composed.fits_of_stack {s : Settings} {es : List BindRule}
    (composed : Composed (.stack s es)) (valid : Node.validate (.stack s es) = .ok ()) :
    Fits (.stack s es) := by
  cases composed with
  | stack => exact ⟨valid, rfl⟩

/-- Every condition in the rule, at any depth, is about clients. -/
def AboutClients (r : BindRule) : Prop :=
  ∀ c, (Node.leaf c).Within r → ∃ k : BindKeyword, c.keyword = some (.bind k)

/-- What is composed, as all that is read is, is about clients just when it can stand in a stack. -/
theorem Composed.aboutClients_iff {r : BindRule} (composed : r.Composed)
    (valid : r.validate = .ok ()) : r.AboutClients ↔ r.Fits := by
  constructor
  · intro clients
    cases r with
    | leaf c => exact (fits_leaf_iff (composed_leaf_iff.mp composed)).mpr (clients c .self)
    | stack s es => exact composed.fits_of_stack valid
  · intro fits c within
    exact (composed.condition_within fits within).1

theorem fits_iff_of_read {text : String} {layout : Layout} {r : BindRule}
    (read : BindRule.read text layout = .ok r) (composed : r.Composed)
    (valid : r.validate = .ok ()) :
    r.Fits ↔ ¬ ∃ c k, Condition.read text = .ok c ∧ c.keyword = some (.target k) := by
  constructor
  · rintro fits ⟨c, k, readCondition, keyword⟩
    have settled := Condition.settled_of_read readCondition
    -- The condition would have to be about clients, alone or in a stack.
    have clients : ∃ l : BindKeyword, c.keyword = some (.bind l) := by
      rw [read_of_condition readCondition layout] at read
      split at read
      · obtain rfl := Except.ok.inj read
        exact (fits_leaf_iff settled).mp fits
      · obtain ⟨_, inner⟩ := wrapped_eq_ok_iff.mp read
        exact (fits_leaf_iff settled.bare).mp inner
    obtain ⟨l, other⟩ := clients
    rw [keyword] at other
    cases other
  · intro noTarget
    cases r with
    | leaf c =>
      have settled := composed_leaf_iff.mp composed
      obtain ⟨k, op, keyword, _⟩ := settled.permitted
      cases k with
      | target k => exact absurd ⟨c, k, read_condition_of_leaf read, keyword⟩ noTarget
      | bind k => exact (fits_leaf_iff settled).mpr ⟨k, keyword⟩
    | stack s es => exact composed.fits_of_stack valid

/-- What is read as a rule is about clients throughout, and can be granted something, unless the
text is that of a condition about entries. -/
theorem aboutClients_iff_of_read {text : String} {layout : Layout} {r : BindRule}
    (read : BindRule.read text layout = .ok r) :
    (r.AboutClients ↔ ¬ ∃ c k, Condition.read text = .ok c ∧ c.keyword = some (.target k)) ∧
      ∀ p : Permission, p.isVoid = false → (Clause.new? p r = .ok ⟨p, r⟩ ↔ r.AboutClients) := by
  obtain ⟨t, _, formed, made⟩ := exists_tree_of_read read
  obtain ⟨composed, valid⟩ := formed.composed r made
  have clients := composed.aboutClients_iff valid
  refine ⟨clients.trans (fits_iff_of_read read composed valid), fun p present => ?_⟩
  have permission : p.validate = .ok () := by
    unfold Permission.validate
    rw [present]
    rfl
  unfold Clause.new?
  rw [bind_eq_ok, clients]
  constructor
  · rintro ⟨_, checked, _⟩
    exact (Clause.validate_iff_fits.mp checked).2
  · intro fits
    exact ⟨(), Clause.validate_iff_fits.mpr ⟨permission, fits⟩, rfl⟩

/-- Parentheses that are spaced otherwise than the operator in them. -/
theorem aboutClients_of_read_group :
    let p : Permission := .ofRights .allow [.read]
    ∃ r, BindRule.read "( ip=\"10.0.0.1\" ) or not(ssf > \"1\")" = .ok r ∧ r.AboutClients ∧
      Clause.new? p r = .ok ⟨p, r⟩ := by
  intro p
  have accepted :
      (BindRule.read "( ip=\"10.0.0.1\" ) or not(ssf > \"1\")").toBool = true := by
    decide +kernel
  have noCondition :
      (Condition.read "( ip=\"10.0.0.1\" ) or not(ssf > \"1\")").toBool = false := by
    decide +kernel
  cases read : BindRule.read "( ip=\"10.0.0.1\" ) or not(ssf > \"1\")" with
  | error e =>
    rw [read] at accepted
    cases accepted
  | ok r =>
    obtain ⟨clients, granted⟩ := aboutClients_iff_of_read read
    have throughout : r.AboutClients := by
      refine clients.mpr ?_
      rintro ⟨c, k, readCondition, _⟩
      rw [readCondition] at noCondition
      cases noCondition
    exact ⟨r, rfl, throughout, (granted p rfl).mpr throughout⟩

/-- A condition about entries is read as a rule, and nothing can be granted by it. It is refused as
soon as a stack has to hold it. -/
theorem target_condition_read_as_rule :
    let c : Condition :=
      { keyword := some (.target .targetScope), operator := some .equal,
        expression := some (.value "base"), padded := true }
    let cause : RuleError := .misplacedKeyword (.target .targetScope) "bind rules"
    BindRule.read "targetscope = \"base\"" = .ok (.leaf c) ∧ ¬ AboutClients (.leaf c) ∧
      Clause.new? (.ofRights .allow [.read]) (.leaf c) =
        .error (.misplacedKeyword (.target .targetScope) "a bind rule") ∧
      BindRule.read "( targetscope=\"base\" )" = .error (.unlawful cause) ∧
      BindRule.read "NOT targetscope = \"base\"" = .error (.unlawful cause) := by
  intro c cause
  refine ⟨by decide +kernel, ?_, by decide +kernel, by decide +kernel, by decide +kernel⟩
  intro clients
  obtain ⟨k, keyword⟩ := clients c .self
  cases keyword

/-! ### Where the two readings are written alike -/

theorem enclosed_padding_inj {p q : Bool} {body : String} :
    enclosed true p body = enclosed true q body ↔ p = q := by
  constructor
  · intro same
    have lengths := congrArg String.length same
    have tight : "(".length = 1 ∧ ")".length = 1 := by decide
    have loose : "( ".length = 2 ∧ " )".length = 2 := by decide
    cases p <;> cases q <;> simp [enclosed, tight, loose] at lengths ⊢
    all_goals omega
  · rintro rfl
    rfl

/-- A text of a condition is read as a rule just when its parentheses are spaced as its operator is,
or its keyword is about clients. The rule keeps the spacing of the parentheses, so it is written as
the condition is just when they are spaced so. -/
theorem readings_alike_iff {text : String} {c : Condition} (read : Condition.read text = .ok c)
    (layout : Layout) :
    ((∃ r, BindRule.read text layout = .ok r) ↔
      evenlySpaced text.toList = true ∨ ∃ k : BindKeyword, c.keyword = some (.bind k)) ∧
    ∀ r, BindRule.read text layout = .ok r →
      Node.render r = enclosed c.parenthesized (c.padded == evenlySpaced text.toList)
        (Condition.render { c with parenthesized := false }) ∧
      (Node.render r = c.render ↔ evenlySpaced text.toList = true) := by
  have settled := Condition.settled_of_read read
  have own : c.render =
      enclosed c.parenthesized c.padded (Condition.render { c with parenthesized := false }) := by
    obtain ⟨_, _, _, _⟩ := settled
    rfl
  rw [read_of_condition read layout]
  cases even : evenlySpaced text.toList with
  | true =>
    refine ⟨by simp, ?_⟩
    rintro r same
    obtain rfl := Except.ok.inj same
    refine ⟨?_, iff_of_true rfl rfl⟩
    rw [beq_true]
    exact own
  | false =>
    have inParentheses : c.parenthesized = true := by
      by_contra bare
      rw [evenlySpaced_of_read read (Bool.eq_false_iff.mpr bare)] at even
      cases even
    refine ⟨?_, ?_⟩
    · simp only [Bool.false_eq_true, if_false, wrapped_eq_ok_iff, false_or]
      rw [exists_eq_left]
      exact fits_leaf_iff settled.bare
    · intro r made
      obtain ⟨rfl, _⟩ := wrapped_eq_ok_iff.mp made
      have written : Node.render (.stack (settings .and true (!c.padded))
          [.leaf { c with parenthesized := false }]) =
          enclosed true (!c.padded) (Condition.render { c with parenthesized := false }) := by
        rw [render_singleton (by decide), if_neg (by decide), String.empty_append]
        rfl
      rw [written, own, inParentheses, beq_false]
      refine ⟨rfl, ?_⟩
      exact enclosed_padding_inj.trans (by simp)

/-- Gaps of several kinds, one behind the parenthesis and one behind the keyword. -/
theorem readings_alike_address :
    ∃ c, Condition.read "\t(\r\nIP =\"10.0.0.1\") " = .ok c ∧
      c.render = "( ip = \"10.0.0.1\" )" ∧
      ∃ r, BindRule.read "\t(\r\nIP =\"10.0.0.1\") " = .ok r ∧ Node.render r = c.render := by
  let c : Condition :=
    { keyword := some (.bind .ip), operator := some .equal,
      expression := some (.value "10.0.0.1"), parenthesized := true, padded := true }
  have read : Condition.read "\t(\r\nIP =\"10.0.0.1\") " = .ok c := by decide +kernel
  have even : evenlySpaced "\t(\r\nIP =\"10.0.0.1\") ".toList = true := by decide +kernel
  obtain ⟨accepted, alike⟩ := readings_alike_iff read {}
  obtain ⟨r, readRule⟩ := accepted.mpr (.inl even)
  exact ⟨c, read, by decide +kernel, r, readRule, (alike r readRule).2.mpr even⟩

/-- Blanks inside the parentheses and none around the operator: the condition loses the blanks. -/
theorem readings_differ_on_uneven_text :
    ∃ c r, Condition.read "( ssf=\"128\" )" = .ok c ∧ BindRule.read "( ssf=\"128\" )" = .ok r ∧
      c.render = "(ssf=\"128\")" ∧ Node.render r = "( ssf=\"128\" )" := by
  let c : Condition :=
    { keyword := some (.bind .ssf), operator := some .equal, expression := some (.value "128"),
      parenthesized := true }
  refine ⟨c, .stack (settings .and true true) [.leaf { c with parenthesized := false }], ?_⟩
  decide +kernel

end BindRule

end DirectoryAccess
