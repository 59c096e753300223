import DirectoryAccess.Grammar.Value
import DirectoryAccess.Proofs.Grammar.ConditionReading
import DirectoryAccess.Proofs.Text.Joining

/-!
# Filter operations are read from their written forms

A term is a name and a parenthesized group, and an operation is a word with terms behind it. Neither
asks yet whether the name and the group make a valid attribute filter.
-/
namespace DirectoryAccess.Grammar

open Reader

/-! ### Groups in parentheses -/

/-- The text closes so many more parentheses than it opens, and no part at its start closes more. -/
def Closes (depth : Nat) (w : List Char) : Prop :=
  (∀ p, p <+: w → p.count ')' ≤ p.count '(' + depth) ∧ w.count ')' = w.count '(' + depth

/-- A parenthesis, the one that closes it, and a text between them in which parentheses pair up. -/
def IsGroup (g : List Char) : Prop :=
  ∃ w, g = '(' :: (w ++ [')']) ∧ Closes 0 w

theorem forall_prefix_cons {P : List Char → Prop} {c : Char} {r : List Char} :
    (∀ p, p <+: c :: r → P p) ↔ P [] ∧ ∀ p, p <+: r → P (c :: p) := by
  constructor
  · intro h
    exact ⟨h [] (List.nil_prefix), fun p hp => h (c :: p) (List.cons_prefix_cons.mpr ⟨rfl, hp⟩)⟩
  · rintro ⟨none', some'⟩ p hp
    rcases List.prefix_cons_iff.mp hp with rfl | ⟨q, rfl, hq⟩
    · exact none'
    · exact some' q hq

theorem closes_nil {depth : Nat} : Closes depth [] ↔ depth = 0 := by
  simp [Closes, eq_comm]

theorem closes_open {depth : Nat} {r : List Char} :
    Closes depth ('(' :: r) ↔ Closes (depth + 1) r := by
  unfold Closes
  rw [forall_prefix_cons]
  simp [Nat.add_assoc, Nat.add_comm 1]

theorem closes_close {depth : Nat} {r : List Char} :
    Closes depth (')' :: r) ↔ ∃ inner, depth = inner + 1 ∧ Closes inner r := by
  unfold Closes
  rw [forall_prefix_cons]
  cases depth with
  | zero =>
    simp only [Nat.add_zero, reduceCtorEq, false_and, exists_false, iff_false]
    rintro ⟨⟨_, parts⟩, _⟩
    simpa using parts [] List.nil_prefix
  | succ inner =>
    simp [← Nat.add_assoc]

theorem closes_other {depth : Nat} {c : Char} {r : List Char} (opening : c ≠ '(')
    (closing : c ≠ ')') : Closes depth (c :: r) ↔ Closes depth r := by
  unfold Closes
  rw [forall_prefix_cons]
  simp [opening, closing]

/-- With its last character the text closes the outermost of one more open parenthesis than so
many. -/
def Shuts (depth : Nat) (cs : List Char) : Prop :=
  ∃ w, cs = w ++ [')'] ∧ Closes depth w

theorem not_shuts_nil {depth : Nat} : ¬ Shuts depth [] := by
  rintro ⟨w, same, _⟩
  simp at same

theorem shuts_cons {depth : Nat} {c : Char} {r : List Char} :
    Shuts depth (c :: r) ↔
      (c = ')' ∧ r = [] ∧ depth = 0) ∨ ∃ w, r = w ++ [')'] ∧ Closes depth (c :: w) := by
  constructor
  · rintro ⟨w, same, closes⟩
    cases w with
    | nil =>
      obtain ⟨rfl, rfl⟩ := List.cons.inj same
      exact .inl ⟨rfl, rfl, closes_nil.mp closes⟩
    | cons d w =>
      obtain ⟨rfl, rfl⟩ := List.cons.inj same
      exact .inr ⟨w, rfl, closes⟩
  · rintro (⟨rfl, rfl, rfl⟩ | ⟨w, rfl, closes⟩)
    · exact ⟨[], rfl, closes_nil.mpr rfl⟩
    · exact ⟨c :: w, rfl, closes⟩

theorem shuts_open {depth : Nat} {r : List Char} :
    Shuts depth ('(' :: r) ↔ Shuts (depth + 1) r := by
  rw [shuts_cons]
  simp only [closes_open, Char.reduceEq, false_and, false_or, Shuts]

theorem shuts_close_zero {r : List Char} : Shuts 0 (')' :: r) ↔ r = [] := by
  rw [shuts_cons]
  simp [closes_close]

theorem shuts_close_succ {depth : Nat} {r : List Char} :
    Shuts (depth + 1) (')' :: r) ↔ Shuts depth r := by
  rw [shuts_cons]
  simp [closes_close, Shuts]

theorem shuts_other {depth : Nat} {c : Char} {r : List Char} (opening : c ≠ '(')
    (closing : c ≠ ')') : Shuts depth (c :: r) ↔ Shuts depth r := by
  rw [shuts_cons]
  simp only [closes_other opening closing, closing, false_and, false_or, Shuts]

theorem isGroup_iff {g : List Char} : IsGroup g ↔ ∃ r, g = '(' :: r ∧ Shuts 0 r := by
  constructor
  · rintro ⟨w, rfl, closes⟩
    exact ⟨w ++ [')'], rfl, w, rfl, closes⟩
  · rintro ⟨_, rfl, w, rfl, closes⟩
    exact ⟨w, rfl, closes⟩

theorem IsGroup.getLast? {g : List Char} (h : IsGroup g) : g.getLast? = some ')' := by
  obtain ⟨w, rfl, _⟩ := h
  rw [← List.cons_append, List.getLast?_concat]

theorem extendTaken_eq_some_iff {x : Option (List Char × List Char)} {c : Char}
    {taken rest : List Char} :
    x.map (extendTaken c) = some (taken, rest) ↔ ∃ t, taken = c :: t ∧ x = some (t, rest) := by
  cases x with
  | none => simp
  | some answer =>
    obtain ⟨t, r⟩ := answer
    simp only [Option.map_some, extendTaken, Option.some.injEq, Prod.mk.injEq]
    constructor
    · rintro ⟨rfl, rfl⟩
      exact ⟨t, rfl, rfl, rfl⟩
    · rintro ⟨_, rfl, rfl, rfl⟩
      exact ⟨rfl, rfl⟩

/-- The scan stops behind the parenthesis that closes the outermost one, and nowhere else. -/
theorem balancedStart?_eq_some_iff {depth : Nat} {cs taken rest : List Char} :
    balancedStart? (depth + 1) cs = some (taken, rest) ↔
      Shuts depth taken ∧ cs = taken ++ rest := by
  induction cs generalizing depth taken with
  | nil =>
    simp only [balancedStart?, reduceCtorEq, false_iff, not_and]
    intro shuts empty
    obtain ⟨rfl, rfl⟩ := List.append_eq_nil_iff.mp empty.symm
    exact not_shuts_nil shuts
  | cons c r ih =>
    -- what is taken begins with the same character, and the rest of it shuts at the next depth
    have step : ∀ inner, (∀ t, Shuts depth (c :: t) ↔ Shuts inner t) →
        ((balancedStart? (inner + 1) r).map (extendTaken c) = some (taken, rest) ↔
          Shuts depth taken ∧ c :: r = taken ++ rest) := by
      intro inner next
      rw [extendTaken_eq_some_iff]
      simp only [ih]
      constructor
      · rintro ⟨t, rfl, shuts, rfl⟩
        exact ⟨(next t).mpr shuts, rfl⟩
      · rintro ⟨shuts, same⟩
        cases taken with
        | nil => exact absurd shuts not_shuts_nil
        | cons d t =>
          obtain ⟨rfl, rfl⟩ := List.cons.inj same
          exact ⟨t, rfl, (next t).mp shuts, rfl⟩
    unfold balancedStart?
    dsimp only
    by_cases opening : c = '('
    · subst opening
      rw [if_pos rfl]
      exact step (depth + 1) fun t => shuts_open
    rw [if_neg opening]
    by_cases closing : c = ')'
    · subst closing
      rw [if_pos rfl]
      cases depth with
      | zero =>
        simp only [Option.some.injEq, Prod.mk.injEq]
        constructor
        · rintro ⟨rfl, rfl⟩
          exact ⟨shuts_close_zero.mpr rfl, rfl⟩
        · rintro ⟨shuts, same⟩
          cases taken with
          | nil => exact absurd shuts not_shuts_nil
          | cons d t =>
            obtain ⟨rfl, rfl⟩ := List.cons.inj same
            obtain rfl := shuts_close_zero.mp shuts
            exact ⟨rfl, rfl⟩
      | succ inner => exact step inner fun t => shuts_close_succ
    · rw [if_neg closing]
      exact step depth fun t => shuts_other opening closing

theorem balanced_eq_read {input rest g : List Char} :
    balanced input = .read g rest ↔ input = g ++ rest ∧ IsGroup g := by
  have scan : balancedStart? 0 input = some (g, rest) ↔ input = g ++ rest ∧ IsGroup g := by
    cases input with
    | nil =>
      simp only [balancedStart?, reduceCtorEq, false_iff, not_and]
      rintro empty ⟨w, rfl, _⟩
      simp at empty
    | cons c r =>
      rw [isGroup_iff]
      by_cases opening : c = '('
      · subst opening
        rw [balancedStart?, if_pos rfl, extendTaken_eq_some_iff]
        simp only [balancedStart?_eq_some_iff]
        constructor
        · rintro ⟨t, rfl, shuts, rfl⟩
          exact ⟨rfl, t, rfl, shuts⟩
        · rintro ⟨same, t, rfl, shuts⟩
          obtain ⟨_, rfl⟩ := List.cons.inj same
          exact ⟨t, rfl, shuts, rfl⟩
      · rw [balancedStart?, if_neg opening]
        simp only [reduceCtorEq, false_iff, not_and]
        rintro same ⟨t, rfl, _⟩
        exact opening (List.cons.inj same).1
  rw [← scan]
  unfold balanced ofFunction
  cases found : balancedStart? 0 input with
  | none => simp [refuse]
  | some answer =>
    obtain ⟨g', rest'⟩ := answer
    simp

instance (g : List Char) : Decidable (IsGroup g) :=
  decidable_of_iff (balanced g = .read g []) (by rw [balanced_eq_read]; simp)

/-! ### Terms -/

/-- The text is a run of characters of names, a colon and a group. -/
def SpellsTerm (term : String × String) (cs : List Char) : Prop :=
  cs = term.1.toList ++ ':' :: term.2.toList ∧ term.1.toList ≠ [] ∧
    (∀ c ∈ term.1.toList, AttributeType.isNameChar c = true) ∧ IsGroup term.2.toList

theorem filterTerm_eq_read {input rest : List Char} {term : String × String} :
    filterTerm input = .read term rest ↔ ∃ cs, input = cs ++ rest ∧ SpellsTerm term cs := by
  have colon : ":".toList = [':'] := by decide
  unfold filterTerm
  simp only [bind_eq_read, pure_eq_read, run1_eq_read, sign_eq_read, described_eq_read,
    commit_eq_read, balanced_eq_read, colon]
  constructor
  · rintro ⟨name, _, ⟨full, rfl, own, -⟩, _, _, rfl, g, _, ⟨rfl, group⟩, rfl, rfl⟩
    refine ⟨name ++ ':' :: g, by simp, ?_⟩
    unfold SpellsTerm
    simp only [String.toList_ofList]
    exact ⟨trivial, full, own, group⟩
  · rintro ⟨_, rfl, rfl, full, own, group⟩
    refine ⟨term.1.toList, ':' :: (term.2.toList ++ rest), ⟨full, by simp, own, ?_⟩, (),
      term.2.toList ++ rest, rfl, term.2.toList, rest, ⟨rfl, group⟩, ?_, rfl⟩
    · exact ends_cons.mpr (by decide)
    · rw [String.ofList_toList, String.ofList_toList]

theorem isGap_of_isNameChar {c : Char} (h : AttributeType.isNameChar c = true) :
    Text.isGap c = false := by
  rw [Bool.eq_false_iff]
  intro gap
  simp only [Text.isGap, Bool.or_eq_true, beq_iff_eq] at gap
  rcases gap with ((rfl | rfl) | rfl) | rfl <;> revert h <;> decide

theorem SpellsTerm.ends {term : String × String} {cs rest : List Char} (h : SpellsTerm term cs) :
    Ends Text.isGap (cs ++ rest) := by
  obtain ⟨rfl, full, own, _⟩ := h
  cases name : term.1.toList with
  | nil => exact absurd name full
  | cons c r => exact ends_cons.mpr (isGap_of_isNameChar (own c (by simp [name])))

theorem SpellsTerm.getLast? {term : String × String} {cs : List Char} (h : SpellsTerm term cs) :
    cs.getLast? = some ')' := by
  obtain ⟨rfl, _, _, group⟩ := h
  rw [List.getLast?_append, List.getLast?_cons, group.getLast?]
  rfl

/-! ### Operations -/

/-- The text is a name of the operation. -/
def NamesOperation (o : AttributeOperation) (w : List Char) : Prop :=
  w ≠ [] ∧ (∀ c ∈ w, c.isAlpha = true) ∧ AttributeOperation.ofName? (String.ofList w) = some o

/-- The text is a name of the operation, an equals sign, and the terms with double ampersands
between them. -/
def SpellsOperation (t : OperationTree) (cs : List Char) : Prop :=
  ∃ w ts, cs = w ++ '=' :: ts ∧ NamesOperation t.operation w ∧
    Listed (WritesSign "&&") SpellsTerm t.terms ts

theorem namesOperation_name (o : AttributeOperation) : NamesOperation o o.name.toList := by
  cases o <;> exact ⟨by decide, List.all_eq_true.mp (by decide), by decide⟩

theorem termSign_terms_read {terms : List (String × String)} {ts rest : List Char}
    (h : Listed (WritesSign "&&") SpellsTerm terms ts) (after : Clear ['&'] rest) :
    separated filterTerm termSign (ts ++ rest) = .read terms rest := by
  refine h.separated_read (fun _ => True) ?_ ?_ ?_ ?_ trivial ?_
  · intro term cs rest hterm _
    exact filterTerm_eq_read.mpr ⟨cs, rfl, hterm⟩
  · intro s term cs rest hs hterm
    exact sign_between_gaps_read (c := '&') (r := ['&']) (by decide) (by decide) hs hterm.ends
  · intro s hs
    exact hs.ne_nil (by decide)
  · intro s rest _
    trivial
  · exact declines_sign_of_clear (c := '&') (r := ['&']) (by decide) after

theorem filterOperation_read {t : OperationTree} {cs rest : List Char} (h : SpellsOperation t cs)
    (after : Clear ['&'] rest) : filterOperation (cs ++ rest) = .read t rest := by
  obtain ⟨w, ts, rfl, ⟨full, letters, named⟩, listed⟩ := h
  unfold filterOperation
  rw [List.append_assoc]
  refine bind_eq_read.mpr ⟨t.operation, '=' :: (ts ++ rest), ?_, ?_⟩
  · refine labelled_eq_read.mpr (select_eq_read.mpr ⟨w, ?_, named⟩)
    exact run1_eq_read.mpr ⟨full, rfl, letters, ends_cons.mpr (by decide)⟩
  · refine bind_eq_read.mpr ⟨(), ts ++ rest, by simp, ?_⟩
    have terms := commit_eq_read.mpr (termSign_terms_read listed after)
    exact bind_eq_read.mpr ⟨t.terms, rest, terms, rfl⟩

theorem spellsOperation_of_read {t : OperationTree} {input rest : List Char}
    (h : filterOperation input = .read t rest) :
    ∃ cs, input = cs ++ rest ∧ SpellsOperation t cs := by
  have equal : "=".toList = ['='] := by decide
  unfold filterOperation at h
  obtain ⟨o, _, first, h₁⟩ := bind_eq_read.mp h
  obtain ⟨_, _, second, h₂⟩ := bind_eq_read.mp h₁
  obtain ⟨terms, _, third, h₃⟩ := bind_eq_read.mp h₂
  obtain ⟨rfl, rfl⟩ := pure_eq_read.mp h₃
  obtain ⟨w, word, named⟩ := select_eq_read.mp (labelled_eq_read.mp first)
  obtain ⟨full, rfl, letters, -⟩ := run1_eq_read.mp word
  obtain rfl := sign_eq_read.mp (commit_eq_read.mp second)
  obtain ⟨ts, rfl, listed⟩ := listed_of_separated_read filterTerm_eq_read.mp writesSign_of_read
    (fun hs => hs.ne_nil (by decide)) (commit_eq_read.mp third)
  exact ⟨w ++ '=' :: ts, by simp [equal], w, ts, rfl, ⟨full, letters, named⟩, listed⟩

theorem isGap_of_isAlpha {c : Char} (h : c.isAlpha = true) : Text.isGap c = false := by
  refine Text.isGap_of_not_isBlank (Text.isBlank_of_isAlphanum ?_)
  simp [Char.isAlphanum, h]

theorem SpellsOperation.ends {t : OperationTree} {cs rest : List Char} (h : SpellsOperation t cs) :
    Ends Text.isGap (cs ++ rest) := by
  obtain ⟨w, ts, rfl, ⟨full, letters, _⟩, _⟩ := h
  cases w with
  | nil => exact absurd rfl full
  | cons c r => exact ends_cons.mpr (isGap_of_isAlpha (letters c (by simp)))

/-- The word in front of the first equals sign has to name the operation. -/
theorem namesOperation_of_read {word ts rest : List Char} {t : OperationTree} (free : '=' ∉ word)
    (h : filterOperation (word ++ '=' :: ts) = .read t rest) : NamesOperation t.operation word := by
  obtain ⟨_, same, w, us, rfl, named, _⟩ := spellsOperation_of_read h
  have free' : '=' ∉ w := fun mem => by
    have letter := named.2.1 '=' mem
    revert letter
    decide
  rw [List.append_assoc] at same
  have words : word = w := by
    have cut := congrArg (Text.piecesAt '=') same
    rw [Text.piecesAt_append free, List.cons_append, Text.piecesAt_append free'] at cut
    exact (List.cons.inj cut).1
  rwa [words]

/-! ### Lists of operations -/

/-- A sign between operations, and the operation behind it. -/
def furtherOperation : Reader (Char × OperationTree) := do
  let c ← operationSign
  return (c, ← commit filterOperation)

/-- The text is a comma or a semicolon and an operation behind it. -/
def SpellsFurther (further : Char × OperationTree) (cs : List Char) : Prop :=
  ∃ ts, cs = further.1 :: ts ∧ (further.1 = ',' ∨ further.1 = ';') ∧ SpellsOperation further.2 ts

theorem oneOf_eq_read {p : Char → Bool} {input rest : List Char} {d : Char} :
    oneOf p input = .read d rest ↔ input = d :: rest ∧ p d = true := by
  cases input with
  | nil => simp [oneOf, refuse]
  | cons c r =>
    unfold oneOf
    dsimp only
    by_cases known : p c = true
    · rw [if_pos known]
      simp only [Outcome.read.injEq, List.cons.injEq]
      constructor
      · rintro ⟨rfl, rfl⟩
        exact ⟨⟨rfl, rfl⟩, known⟩
      · exact fun h => h.1
    · rw [if_neg known]
      simp only [refuse, reduceCtorEq, List.cons.injEq, false_iff, not_and]
      rintro ⟨rfl, rfl⟩
      exact known

theorem operationSign_eq_read {d : Char} {input rest : List Char} :
    operationSign input = .read d rest ↔ (d = ',' ∨ d = ';') ∧
      ∃ g h, input = g ++ d :: (h ++ rest) ∧ IsGap g ∧ IsGap h ∧ Ends Text.isGap rest := by
  unfold operationSign
  simp only [bind_eq_read, pure_eq_read, skipGap_eq_read, oneOf_eq_read, Bool.or_eq_true,
    beq_iff_eq]
  constructor
  · rintro ⟨_, _, ⟨g, rfl, before, -⟩, _, _, ⟨rfl, known⟩, _, _, ⟨h, rfl, after, ends⟩, rfl, rfl⟩
    exact ⟨known, g, h, rfl, before, after, ends⟩
  · rintro ⟨known, g, h, rfl, before, after, ends⟩
    refine ⟨(), _, ⟨g, rfl, before, ?_⟩, d, h ++ rest, ⟨rfl, known⟩, (), rest,
      ⟨h, rfl, after, ends⟩, rfl, rfl⟩
    exact ends_cons.mpr (by rcases known with rfl | rfl <;> decide)

theorem operationSign_read {d : Char} (known : d = ',' ∨ d = ';') {rest : List Char}
    (ends : Ends Text.isGap rest) : operationSign (d :: rest) = .read d rest :=
  operationSign_eq_read.mpr ⟨known, [], [], rfl, isGap_nil, isGap_nil, ends⟩

theorem furtherOperation_declines_nil : Declines furtherOperation [] :=
  declines_bind (declines_bind_of_read (skipGap_read []) (declines_bind ⟨_, rfl, rfl⟩))

theorem progresses_furtherOperation : Progresses furtherOperation := by
  have sound : ∀ {input : List Char} {further : Char × OperationTree} {rest : List Char},
      furtherOperation input = .read further rest → ∃ cs, input = cs ++ rest ∧ cs ≠ [] := by
    intro input further rest h
    obtain ⟨d, _, sign, h₁⟩ := bind_eq_read.mp h
    obtain ⟨t, _, operation, h₂⟩ := bind_eq_read.mp h₁
    obtain ⟨_, rfl⟩ := pure_eq_read.mp h₂
    obtain ⟨_, g, k, rfl, _⟩ := operationSign_eq_read.mp sign
    obtain ⟨cs, rfl, _⟩ := spellsOperation_of_read (commit_eq_read.mp operation)
    exact ⟨g ++ d :: (k ++ cs), by simp, by simp⟩
  exact progresses_of_sound sound id

/-- The text has ended, or a sign between operations follows. -/
def SignOrEnd (rest : List Char) : Prop :=
  rest = [] ∨ ∃ d r, rest = d :: r ∧ (d = ',' ∨ d = ';')

theorem SignOrEnd.clear {rest : List Char} (h : SignOrEnd rest) : Clear ['&'] rest := by
  rcases h with rfl | ⟨d, r, rfl, known⟩
  · exact clear_nil
  · refine (clear_cons ?_).mpr ?_
    · rcases known with rfl | rfl <;> decide
    · rcases known with rfl | rfl <;> decide

theorem signOrEnd_of_repeated {others : List (Char × OperationTree)} {ds : List Char}
    (h : Repeated SpellsFurther others ds) : SignOrEnd ds := by
  cases h with
  | nil => exact .inl rfl
  | cons one _ =>
    obtain ⟨ts, rfl, known, _⟩ := one
    exact .inr ⟨_, _, rfl, known⟩

theorem furtherOperation_read {further : Char × OperationTree} {cs rest : List Char}
    (h : SpellsFurther further cs) (after : SignOrEnd rest) :
    furtherOperation (cs ++ rest) = .read further rest := by
  obtain ⟨ts, rfl, known, spells⟩ := h
  refine bind_eq_read.mpr ⟨further.1, ts ++ rest, operationSign_read known spells.ends, ?_⟩
  refine bind_eq_read.mpr ⟨further.2, rest, ?_, rfl⟩
  exact commit_eq_read.mpr (filterOperation_read spells after.clear)

/-- The further operations of a list, each behind its sign. -/
theorem furtherOperations_read {others : List (Char × OperationTree)} {ds : List Char}
    (h : Repeated SpellsFurther others ds) : many furtherOperation ds = .read others [] := by
  have tail := h.repeats SignOrEnd ?_ ?_ ?_ (.inl rfl) furtherOperation_declines_nil
  · rw [List.append_nil] at tail
    exact many_of_repeats tail
  · intro further cs rest spells after
    exact furtherOperation_read spells after
  · rintro further _ ⟨ts, rfl, _⟩
    simp
  · rintro further _ rest ⟨ts, rfl, known, _⟩
    exact .inr ⟨_, _, rfl, known⟩

/-- A whole list is read, and so is the sign between its first two operations. -/
theorem wholeFilterOperations_readAll {first : OperationTree}
    {others : List (Char × OperationTree)} {cs ds : List Char} (hfirst : SpellsOperation first cs)
    (hothers : Repeated SpellsFurther others ds) :
    wholeFilterOperations.readAll (cs ++ ds) =
      .ok (first :: others.map Prod.snd, others.head?.map Prod.fst) := by
  rw [readAll_eq_ok]
  refine bind_eq_read.mpr ⟨(), cs ++ ds, skipGap_eq_read.mpr ⟨[], rfl, isGap_nil, hfirst.ends⟩, ?_⟩
  refine bind_eq_read.mpr ⟨first, ds,
    filterOperation_read hfirst (signOrEnd_of_repeated hothers).clear, ?_⟩
  exact bind_eq_read.mpr ⟨others, [], furtherOperations_read hothers, rfl⟩

/-- Operations with one and the same sign between them. -/
theorem wholeFilterOperations_readAll_of_listed {d : Char} (known : d = ',' ∨ d = ';')
    {trees : List OperationTree} {text : List Char}
    (h : Listed (· = [d]) SpellsOperation trees text) :
    wholeFilterOperations.readAll text =
      .ok (trees, if 1 < trees.length then some d else none) := by
  obtain ⟨first, others, cs, ds, rfl, rfl, hfirst, hothers⟩ := h
  have repeated : Repeated SpellsFurther (others.map (fun t => (d, t))) ds := by
    induction hothers with
    | nil => exact .nil
    | cons one _ ih =>
      obtain ⟨_, ts, rfl, rfl, spells⟩ := one
      exact .cons ⟨ts, rfl, known, spells⟩ ih
  rw [wholeFilterOperations_readAll hfirst repeated]
  cases others with
  | nil => rfl
  | cons t ts => simp [Function.comp_def]

/-- There are operations, and no sign where there is only one. -/
theorem of_wholeFilterOperations {input : List Char} {trees : List OperationTree}
    {sign : Option Char} (h : wholeFilterOperations.readAll input = .ok (trees, sign)) :
    trees ≠ [] ∧ (sign ≠ none → 1 < trees.length) := by
  obtain ⟨_, _, _, read⟩ := bind_eq_read.mp (readAll_eq_ok.mp h)
  obtain ⟨first, _, _, read₁⟩ := bind_eq_read.mp read
  obtain ⟨others, _, _, read₂⟩ := bind_eq_read.mp read₁
  obtain ⟨same, _⟩ := pure_eq_read.mp read₂
  obtain ⟨rfl, rfl⟩ := Prod.mk.inj same
  refine ⟨by simp, fun signed => ?_⟩
  cases others with
  | nil => exact absurd rfl signed
  | cons o os => simp

end DirectoryAccess.Grammar
