import DirectoryAccess.Grammar.Reader

/-!
# What readers read

One lemma for each way of making a reader says exactly when the reader succeeds, and with what. A
second one says when it declines, that is, fails in a way that leaves room for another reading: a
choice, an option and a repetition go on only then.
-/
namespace DirectoryAccess.Grammar.Reader

variable {α β : Type}

/-- The reader fails, but something else may be tried. -/
def Declines (p : Reader α) (input : List Char) : Prop :=
  ∃ e, p input = .failed e ∧ e.final = false

/-- Only characters that may stand between tokens. -/
def IsGap (cs : List Char) : Prop :=
  ∀ c ∈ cs, Text.isGap c = true

instance (cs : List Char) : Decidable (IsGap cs) :=
  decidable_of_iff (cs.all Text.isGap = true) List.all_eq_true

/-- The text does not go on with a character of the class. -/
def Ends (p : Char → Bool) (rest : List Char) : Prop :=
  ∀ c ∈ rest.head?, p c = false

/-! ### One after the other -/

theorem pure_eq_read {a b : α} {input rest : List Char} :
    (pure a : Reader α) input = .read b rest ↔ a = b ∧ input = rest := by
  show Outcome.read a input = .read b rest ↔ _
  simp

theorem bind_eq_read {p : Reader α} {f : α → Reader β} {input rest : List Char} {b : β} :
    (p >>= f) input = .read b rest ↔ ∃ a mid, p input = .read a mid ∧ f a mid = .read b rest := by
  show andThen p f input = .read b rest ↔ _
  unfold andThen
  cases h : p input with
  | read a mid =>
    constructor
    · intro next
      exact ⟨a, mid, rfl, next⟩
    · rintro ⟨a', mid', same, next⟩
      cases same
      exact next
  | failed e => simp

theorem bind_read {p : Reader α} {f : α → Reader β} {input mid : List Char} {a : α}
    (h : p input = .read a mid) : (p >>= f) input = f a mid := by
  show andThen p f input = _
  unfold andThen
  rw [h]

theorem declines_bind {p : Reader α} {f : α → Reader β} {input : List Char}
    (h : Declines p input) : Declines (p >>= f) input := by
  obtain ⟨e, failed, soft⟩ := h
  refine ⟨e, ?_, soft⟩
  show andThen p f input = _
  unfold andThen
  rw [failed]

theorem declines_bind_of_read {p : Reader α} {f : α → Reader β} {input mid : List Char} {a : α}
    (first : p input = .read a mid) (h : Declines (f a) mid) : Declines (p >>= f) input := by
  obtain ⟨e, failed, soft⟩ := h
  exact ⟨e, by rw [bind_read first, failed], soft⟩

/-! ### Remarks and commitment change no success -/

theorem mapFault_eq_read {f : Fault → Fault} {o : Outcome α} {a : α} {rest : List Char} :
    o.mapFault f = .read a rest ↔ o = .read a rest := by
  cases o <;> simp [Outcome.mapFault]

@[simp] theorem commit_eq_read {p : Reader α} {input rest : List Char} {a : α} :
    commit p input = .read a rest ↔ p input = .read a rest :=
  mapFault_eq_read

@[simp] theorem note_eq_read {n : Note} {p : Reader α} {input rest : List Char} {a : α} :
    note n p input = .read a rest ↔ p input = .read a rest :=
  mapFault_eq_read

@[simp] theorem labelled_eq_read {what : String} {p : Reader α} {input rest : List Char} {a : α} :
    labelled what p input = .read a rest ↔ p input = .read a rest :=
  mapFault_eq_read

@[simp] theorem described_eq_read {what : String} {p : Reader α} {input rest : List Char}
    {a : α} : described what p input = .read a rest ↔ p input = .read a rest :=
  mapFault_eq_read

theorem declines_note {n : Note} {p : Reader α} {input : List Char} (h : Declines p input) :
    Declines (note n p) input := by
  obtain ⟨e, failed, soft⟩ := h
  exact ⟨{ e with notes := e.notes ++ [n] }, by simp [note, failed, Outcome.mapFault], soft⟩

/-! ### Signs, words and classes of characters -/

@[simp] theorem sign_eq_read {text : String} {u : Unit} {input rest : List Char} :
    sign text input = .read u rest ↔ input = text.toList ++ rest := by
  rw [← Text.after?_eq_some_iff]
  unfold sign ofFunction
  dsimp only
  cases h : Text.after? text.toList input <;> simp [refuse]

theorem declines_sign {text : String} {input : List Char}
    (h : Text.after? text.toList input = none) : Declines (sign text) input :=
  ⟨_, by simp only [sign, ofFunction, h, Option.map_none]; rfl, rfl⟩

@[simp] theorem require_eq_read {text : String} {u : Unit} {input rest : List Char} :
    require text input = .read u rest ↔ input = text.toList ++ rest := by
  unfold require
  rw [note_eq_read, commit_eq_read, sign_eq_read]

@[simp] theorem word_eq_read {text : String} {u : Unit} {input rest : List Char} :
    word text input = .read u rest ↔
      ∃ w, Text.lower w = Text.lower text.toList ∧ input = w ++ rest := by
  rw [← Text.afterWord?_eq_some_iff]
  unfold word ofFunction
  dsimp only
  cases h : Text.afterWord? text.toList input <;> simp [refuse]

theorem declines_word {text : String} {input : List Char}
    (h : Text.afterWord? text.toList input = none) : Declines (word text) input :=
  ⟨_, by simp only [word, ofFunction, h, Option.map_none]; rfl, rfl⟩

/-- Cutting a text behind the characters of a class is the only way to split it so that the second
part does not begin with one of them. -/
theorem span_eq_iff {p : Char → Bool} {input taken rest : List Char} :
    taken = input.takeWhile p ∧ rest = input.dropWhile p ↔
      input = taken ++ rest ∧ (∀ c ∈ taken, p c = true) ∧ Ends p rest := by
  constructor
  · rintro ⟨rfl, rfl⟩
    refine ⟨List.takeWhile_append_dropWhile.symm, fun c hc => ?_, ?_⟩
    · have := List.all_takeWhile (p := p) (l := input)
      rw [List.all_eq_true] at this
      exact this c hc
    · intro c hc
      have := List.head?_dropWhile_not p input
      rw [Option.mem_def.mp hc] at this
      simpa using this
  · rintro ⟨rfl, own, stop⟩
    have dropped : rest.dropWhile p = rest := by
      cases rest with
      | nil => rfl
      | cons c r => simp [stop c (by simp)]
    have taken' : rest.takeWhile p = [] := by
      cases rest with
      | nil => rfl
      | cons c r => simp [stop c (by simp)]
    rw [List.takeWhile_append_of_pos own, List.dropWhile_append_of_pos own, taken', dropped]
    simp

theorem run_eq_read {p : Char → Bool} {input taken rest : List Char} :
    run p input = .read taken rest ↔
      input = taken ++ rest ∧ (∀ c ∈ taken, p c = true) ∧ Ends p rest := by
  rw [← span_eq_iff]
  simp only [run, Outcome.read.injEq]
  constructor <;> rintro ⟨h₁, h₂⟩ <;> exact ⟨h₁.symm, h₂.symm⟩

theorem run1_eq_read {p : Char → Bool} {input taken rest : List Char} :
    run1 p input = .read taken rest ↔
      taken ≠ [] ∧ input = taken ++ rest ∧ (∀ c ∈ taken, p c = true) ∧ Ends p rest := by
  rw [← span_eq_iff]
  unfold run1
  constructor
  · intro h
    split at h
    · cases h
    · next full =>
      simp only [Outcome.read.injEq] at h
      obtain ⟨rfl, rfl⟩ := h
      exact ⟨fun e => full (by rw [e]; rfl), rfl, rfl⟩
  · rintro ⟨full, rfl, rfl⟩
    have : (input.takeWhile p).isEmpty = false := by
      cases h : input.takeWhile p with
      | nil => exact absurd h full
      | cons c r => rfl
    rw [this]
    rfl

theorem declines_run1 {p : Char → Bool} {input : List Char} (h : Ends p input) :
    Declines (run1 p) input := by
  have empty : input.takeWhile p = [] := by
    cases input with
    | nil => rfl
    | cons c r => simp [h c (by simp)]
  exact ⟨_, by simp only [run1, empty]; rfl, rfl⟩

theorem gap_eq_read {b : Bool} {input rest : List Char} :
    gap input = .read b rest ↔
      ∃ g, input = g ++ rest ∧ IsGap g ∧ Ends Text.isGap rest ∧ b = !g.isEmpty := by
  unfold gap
  simp only [bind_eq_read, pure_eq_read, run_eq_read]
  constructor
  · rintro ⟨g, mid, ⟨rfl, own, stop⟩, rfl, rfl⟩
    exact ⟨g, rfl, own, stop, rfl⟩
  · rintro ⟨g, rfl, own, stop, rfl⟩
    exact ⟨g, rest, ⟨rfl, own, stop⟩, rfl, rfl⟩

theorem skipGap_eq_read {u : Unit} {input rest : List Char} :
    skipGap input = .read u rest ↔ ∃ g, input = g ++ rest ∧ IsGap g ∧ Ends Text.isGap rest := by
  unfold skipGap
  simp only [bind_eq_read, pure_eq_read, run_eq_read]
  constructor
  · rintro ⟨g, mid, ⟨rfl, own, stop⟩, -, rfl⟩
    exact ⟨g, rfl, own, stop⟩
  · rintro ⟨g, rfl, own, stop⟩
    exact ⟨g, rest, ⟨rfl, own, stop⟩, trivial, rfl⟩

theorem skipGap_read (input : List Char) :
    skipGap input = .read () (input.dropWhile Text.isGap) :=
  rfl

theorem notBefore_eq_read {p : Char → Bool} {u : Unit} {input rest : List Char} :
    notBefore p input = .read u rest ↔ input = rest ∧ Ends p rest := by
  unfold notBefore Ends
  cases input with
  | nil => cases rest <;> simp
  | cons c r =>
    cases h : p c
    · simp only [List.head?_cons, Option.any_some, h, Bool.false_eq_true, if_false,
        Outcome.read.injEq, true_and]
      constructor
      · rintro rfl
        simpa using h
      · rintro ⟨rfl, -⟩
        trivial
    · simp only [List.head?_cons, Option.any_some, h, if_true, refuse, reduceCtorEq, false_iff,
        not_and]
      rintro rfl stop
      simp [h] at stop

/-! ### Choices -/

theorem select_eq_read {p : Reader α} {f : α → Option β} {input rest : List Char} {b : β} :
    select p f input = .read b rest ↔ ∃ a, p input = .read a rest ∧ f a = some b := by
  unfold select
  cases h : p input with
  | failed e => simp
  | read a mid =>
    cases hf : f a with
    | none =>
      simp only [hf, refuse, reduceCtorEq, Outcome.read.injEq, false_iff, not_exists, not_and]
      rintro x ⟨rfl, -⟩
      simp [hf]
    | some c =>
      simp only [hf, Outcome.read.injEq]
      constructor
      · rintro ⟨rfl, rfl⟩
        exact ⟨a, ⟨rfl, rfl⟩, hf⟩
      · rintro ⟨x, ⟨rfl, rfl⟩, hx⟩
        rw [hf] at hx
        exact ⟨Option.some.inj hx, rfl⟩

theorem declines_select {p : Reader α} {f : α → Option β} {input : List Char}
    (h : Declines p input) : Declines (select p f) input := by
  obtain ⟨e, failed, soft⟩ := h
  exact ⟨e, by simp [select, failed], soft⟩

theorem declines_select_of_read {p : Reader α} {f : α → Option β} {input rest : List Char} {a : α}
    (h : p input = .read a rest) (refused : f a = none) : Declines (select p f) input :=
  ⟨_, by simp only [select, h, refused]; rfl, rfl⟩

theorem orElse_eq_read {p q : Reader α} {input rest : List Char} {a : α} :
    orElse p q input = .read a rest ↔
      p input = .read a rest ∨ (Declines p input ∧ q input = .read a rest) := by
  unfold orElse Declines
  cases h : p input with
  | read b mid => simp
  | failed e => cases final : e.final <;> simp [final]

theorem declines_orElse {p q : Reader α} {input : List Char} (hp : Declines p input)
    (hq : Declines q input) : Declines (orElse p q) input := by
  obtain ⟨e, failed, soft⟩ := hp
  obtain ⟨f, failed', soft'⟩ := hq
  exact ⟨f, by simp [orElse, failed, soft, failed'], soft'⟩

theorem optional_eq_read {p : Reader α} {input rest : List Char} {x : Option α} :
    optional p input = .read x rest ↔
      (∃ a, x = some a ∧ p input = .read a rest) ∨
        (x = none ∧ rest = input ∧ Declines p input) := by
  unfold optional Declines
  cases h : p input with
  | read b mid =>
    simp only [Outcome.read.injEq, reduceCtorEq, false_and, exists_false, and_false, or_false]
    constructor
    · rintro ⟨rfl, rfl⟩
      exact ⟨b, rfl, rfl, rfl⟩
    · rintro ⟨a, rfl, rfl, rfl⟩
      exact ⟨rfl, rfl⟩
  | failed e =>
    cases final : e.final with
    | true => simp [final]
    | false =>
      simp only [final, Bool.false_eq_true, if_false, Outcome.read.injEq, reduceCtorEq, and_false,
        exists_false, Outcome.failed.injEq, exists_eq_left', and_true, false_or]
      constructor <;> rintro ⟨h₁, h₂⟩ <;> exact ⟨h₁.symm, h₂.symm⟩

/-! ### Repetition -/

/-- Reading with the same reader again and again gives these values, each step takes something,
and then the reader declines. -/
inductive Repeats (p : Reader α) : List Char → List α → List Char → Prop
  | stop {input : List Char} (h : Declines p input) : Repeats p input [] input
  | step {input mid rest : List Char} {a : α} {as : List α} (first : p input = .read a mid)
    (shorter : mid.length < input.length) (others : Repeats p mid as rest) :
    Repeats p input (a :: as) rest

/-- What is read is never empty. -/
def Progresses (p : Reader α) : Prop :=
  ∀ ⦃input : List Char⦄ ⦃a : α⦄ ⦃rest : List Char⦄,
    p input = .read a rest → rest.length < input.length

theorem manyUpTo_of_repeats {p : Reader α} {input rest : List Char} {as : List α}
    (h : Repeats p input as rest) :
    ∀ n, input.length < n → manyUpTo p n input = .read as rest := by
  induction h with
  | @stop input h =>
    intro n bound
    obtain ⟨n, rfl⟩ : ∃ m, n = m + 1 := ⟨n - 1, by omega⟩
    obtain ⟨e, failed, soft⟩ := h
    simp [manyUpTo, failed, soft]
  | @step input mid rest a as first shorter others ih =>
    intro n bound
    obtain ⟨n, rfl⟩ : ∃ m, n = m + 1 := ⟨n - 1, by omega⟩
    simp only [manyUpTo, first]
    rw [ih n (by omega)]

theorem many_of_repeats {p : Reader α} {input rest : List Char} {as : List α}
    (h : Repeats p input as rest) : many p input = .read as rest :=
  manyUpTo_of_repeats h _ (Nat.lt_succ_self _)

theorem repeats_of_manyUpTo {p : Reader α} (progress : Progresses p) (n : Nat) :
    ∀ {input rest : List Char} {as : List α}, input.length < n →
      manyUpTo p n input = .read as rest → Repeats p input as rest := by
  induction n with
  | zero =>
    intro input rest as bound
    omega
  | succ n ih =>
    intro input rest as bound h
    simp only [manyUpTo] at h
    cases hp : p input with
    | read a mid =>
      have shorter := progress hp
      simp only [hp] at h
      cases hm : manyUpTo p n mid with
      | read bs rest' =>
        simp only [hm, Outcome.read.injEq] at h
        obtain ⟨rfl, rfl⟩ := h
        exact .step hp shorter (ih (by omega) hm)
      | failed e => simp [hm] at h
    | failed e =>
      simp only [hp] at h
      cases final : e.final with
      | true => simp [final] at h
      | false =>
        simp only [final, Bool.false_eq_true, if_false, Outcome.read.injEq] at h
        obtain ⟨rfl, rfl⟩ := h
        exact .stop ⟨e, hp, final⟩

theorem many_eq_read {p : Reader α} (progress : Progresses p) {input rest : List Char}
    {as : List α} : many p input = .read as rest ↔ Repeats p input as rest :=
  ⟨repeats_of_manyUpTo progress _ (Nat.lt_succ_self _), many_of_repeats⟩

/-- A sequence of pieces, each of which is a text of one value. -/
inductive Repeated (item : α → List Char → Prop) : List α → List Char → Prop
  | nil : Repeated item [] []
  | cons {a : α} {as : List α} {cs ds : List Char} (first : item a cs)
    (others : Repeated item as ds) : Repeated item (a :: as) (cs ++ ds)

/-- A reader that reads each piece whenever something suitable follows reads a whole sequence, if
every piece is itself suitable to follow. -/
theorem Repeated.repeats {p : Reader α} {item : α → List Char → Prop}
    (follows : List Char → Prop)
    (reads : ∀ {a cs rest}, item a cs → follows rest → p (cs ++ rest) = .read a rest)
    (ne_nil : ∀ {a cs}, item a cs → cs ≠ [])
    (leads : ∀ {a cs rest}, item a cs → follows (cs ++ rest))
    {as : List α} {cs rest : List Char} (h : Repeated item as cs) (after : follows rest)
    (stops : Declines p rest) : Repeats p (cs ++ rest) as rest := by
  induction h with
  | nil => exact .stop stops
  | @cons a as cs ds first others ih =>
    -- What follows a piece is the next piece, and only at the end what follows the sequence.
    have suited : follows (ds ++ rest) := by
      cases others with
      | nil => exact after
      | cons next others' =>
        rw [List.append_assoc]
        exact leads next
    have shorter : (ds ++ rest).length < (cs ++ ds ++ rest).length := by
      have := List.length_pos_iff.mpr (ne_nil first)
      simp only [List.length_append]
      omega
    refine .step ?_ shorter ih
    rw [List.append_assoc]
    exact reads first suited

theorem Repeats.repeated {p : Reader α} {item : α → List Char → Prop}
    (sound : ∀ {input a rest}, p input = .read a rest → ∃ cs, input = cs ++ rest ∧ item a cs)
    {input rest : List Char} {as : List α} (h : Repeats p input as rest) :
    ∃ cs, input = cs ++ rest ∧ Repeated item as cs := by
  induction h with
  | stop _ => exact ⟨[], rfl, .nil⟩
  | step first _ _ ih =>
    obtain ⟨cs, rfl, piece⟩ := sound first
    obtain ⟨ds, rfl, others⟩ := ih
    exact ⟨cs ++ ds, by simp, .cons piece others⟩

theorem progresses_of_sound {p : Reader α} {item : α → List Char → Prop}
    (sound : ∀ {input a rest}, p input = .read a rest → ∃ cs, input = cs ++ rest ∧ item a cs)
    (ne_nil : ∀ {a cs}, item a cs → cs ≠ []) : Progresses p := by
  intro input a rest h
  obtain ⟨cs, rfl, piece⟩ := sound h
  have := List.length_pos_iff.mpr (ne_nil piece)
  simp only [List.length_append]
  omega

/-- Joined texts are the first of them and, behind it, the others each with the separator. -/
theorem intercalate_cons {sep cs : List Char} {ds : List (List Char)} :
    sep.intercalate (cs :: ds) = cs ++ ds.flatMap (sep ++ ·) := by
  induction ds generalizing cs with
  | nil => simp [List.intercalate]
  | cons d ds ih =>
    rw [List.intercalate_cons_cons, ih]
    simp

/-- Pieces with a separator between them, which belongs to the piece in front of it. -/
theorem repeated_intercalate_behind {item : α → List Char → Prop} {sep : List Char} {f : β → α}
    {g : β → List Char} {bs : List β} (last : ∀ b ∈ bs, item (f b) (g b))
    (inner : ∀ b ∈ bs, item (f b) (g b ++ sep)) :
    Repeated item (bs.map f) (sep.intercalate (bs.map g)) := by
  induction bs with
  | nil => exact .nil
  | cons b bs ih =>
    obtain ⟨single, _⟩ := List.forall_mem_cons.mp last
    obtain ⟨first, inner'⟩ := List.forall_mem_cons.mp inner
    cases bs with
    | nil =>
      have piece : Repeated item [f b] (g b ++ []) := .cons single .nil
      rw [List.append_nil] at piece
      simpa using piece
    | cons c bs =>
      have others := ih (fun a ha => last a (List.mem_cons_of_mem b ha)) inner'
      simp only [List.map_cons] at others ⊢
      rw [List.intercalate_cons_cons]
      exact .cons first others

/-- The same where the separator belongs to the piece behind it. -/
theorem repeated_intercalate_before {item : α → List Char → Prop} {sep : List Char} {f : β → α}
    {g : β → List Char} {bs : List β} (first : ∀ b ∈ bs, item (f b) (g b))
    (later : ∀ b ∈ bs, item (f b) (sep ++ g b)) :
    Repeated item (bs.map f) (sep.intercalate (bs.map g)) := by
  have rest : ∀ cs : List β, (∀ b ∈ cs, item (f b) (sep ++ g b)) →
      Repeated item (cs.map f) ((cs.map g).flatMap (sep ++ ·)) := by
    intro cs later
    induction cs with
    | nil => exact .nil
    | cons c cs ih =>
      obtain ⟨next, others⟩ := List.forall_mem_cons.mp later
      exact .cons next (ih others)
  cases bs with
  | nil => exact .nil
  | cons b bs =>
    rw [List.map_cons, List.map_cons, intercalate_cons]
    exact .cons (first b (by simp)) (rest bs fun c hc => later c (List.mem_cons_of_mem b hc))

/-- A text of one value, and behind it pieces that begin with a separator. -/
def Listed (separator : List Char → Prop) (item : α → List Char → Prop) (as : List α)
    (text : List Char) : Prop :=
  ∃ a others cs ds, as = a :: others ∧ text = cs ++ ds ∧ item a cs ∧
    Repeated (fun b es => ∃ s ts, es = s ++ ts ∧ separator s ∧ item b ts) others ds

theorem Listed.cons {separator : List Char → Prop} {item : α → List Char → Prop} {a : α}
    {as : List α} {cs s text : List Char} (h : Listed separator item as text) (first : item a cs)
    (between : separator s) : Listed separator item (a :: as) (cs ++ (s ++ text)) := by
  obtain ⟨b, others, ds, es, rfl, rfl, second, tail⟩ := h
  refine ⟨a, b :: others, cs, (s ++ ds) ++ es, rfl, by simp, first, ?_⟩
  exact .cons ⟨s, ds, rfl, between, second⟩ tail

theorem listed_intercalate {S : List Char → Prop} {item : α → List Char → Prop}
    {sep : List Char} (hs : S sep) {f : β → α} {g : β → List Char} {bs : List β}
    (full : bs ≠ []) (h : ∀ b ∈ bs, item (f b) (g b)) :
    Listed S item (bs.map f) (sep.intercalate (bs.map g)) := by
  induction bs with
  | nil => exact absurd rfl full
  | cons b bs ih =>
    cases bs with
    | nil => exact ⟨f b, [], g b, [], rfl, by simp, h b (by simp), .nil⟩
    | cons c bs =>
      have others := ih (by simp) fun d hd => h d (by simp [hd])
      have listed := others.cons (h b (by simp)) hs
      rw [List.map_cons, List.map_cons (f := g), List.map_cons (f := g), List.intercalate_cons_cons,
        List.append_assoc]
      exact listed

/-- Values whose texts and separators are known are joined texts. -/
theorem Listed.exists_intercalate {sep : List Char} {f : β → α} {g : β → List Char} {as : List α}
    {text : List Char} (h : Listed (· = sep) (fun a cs => ∃ b, a = f b ∧ cs = g b) as text) :
    ∃ bs, bs ≠ [] ∧ as = bs.map f ∧ text = sep.intercalate (bs.map g) := by
  obtain ⟨_, others, _, ds, rfl, rfl, ⟨b, rfl, rfl⟩, tail⟩ := h
  have rest : ∃ cs : List β, others = cs.map f ∧ ds = (cs.map g).flatMap (sep ++ ·) := by
    induction tail with
    | nil => exact ⟨[], rfl, rfl⟩
    | cons piece _ ih =>
      obtain ⟨_, _, rfl, rfl, c, rfl, rfl⟩ := piece
      obtain ⟨cs, rfl, rfl⟩ := ih
      exact ⟨c :: cs, rfl, rfl⟩
  obtain ⟨cs, rfl, rfl⟩ := rest
  exact ⟨b :: cs, by simp, rfl, by rw [List.map_cons, intercalate_cons]⟩

theorem Listed.separated_read {p : Reader α} {q : Reader Unit} {separator : List Char → Prop}
    {item : α → List Char → Prop} (follows : List Char → Prop)
    (reads : ∀ {a cs rest}, item a cs → follows rest → p (cs ++ rest) = .read a rest)
    (passes : ∀ {s a cs rest}, separator s → item a cs →
      q (s ++ (cs ++ rest)) = .read () (cs ++ rest))
    (ne_nil : ∀ {s}, separator s → s ≠ []) (leads : ∀ {s rest}, separator s → follows (s ++ rest))
    {as : List α} {text rest : List Char} (h : Listed separator item as text)
    (after : follows rest) (stops : Declines q rest) :
    separated p q (text ++ rest) = .read as rest := by
  obtain ⟨a, others, cs, ds, rfl, rfl, first, tail⟩ := h
  have suited : follows (ds ++ rest) := by
    cases tail with
    | nil => exact after
    | cons next _ =>
      obtain ⟨s, ts, rfl, hs, _⟩ := next
      simp only [List.append_assoc]
      exact leads hs
  have repeats : Repeats (do q; p) (ds ++ rest) others rest := by
    refine tail.repeats follows ?_ ?_ ?_ after (declines_bind stops)
    · rintro b es rest ⟨s, ts, rfl, hs, hb⟩ hrest
      rw [List.append_assoc, bind_read (passes hs hb)]
      exact reads hb hrest
    · rintro b es ⟨s, ts, rfl, hs, _⟩ empty
      exact ne_nil hs (List.append_eq_nil_iff.mp empty).1
    · rintro b es rest ⟨s, ts, rfl, hs, _⟩
      rw [List.append_assoc]
      exact leads hs
  unfold separated
  rw [List.append_assoc, bind_read (reads first suited), bind_read (many_of_repeats repeats)]
  rfl

theorem listed_of_separated_read {p : Reader α} {q : Reader Unit}
    {separator : List Char → Prop} {item : α → List Char → Prop}
    (sound : ∀ {input a rest}, p input = .read a rest → ∃ cs, input = cs ++ rest ∧ item a cs)
    (soundSeparator : ∀ {input u rest}, q input = .read u rest →
      ∃ s, input = s ++ rest ∧ separator s)
    (ne_nil : ∀ {s}, separator s → s ≠ []) {input rest : List Char} {as : List α}
    (h : separated p q input = .read as rest) :
    ∃ text, input = text ++ rest ∧ Listed separator item as text := by
  unfold separated at h
  obtain ⟨a, mid, first, h⟩ := bind_eq_read.mp h
  obtain ⟨others, last, tail, h⟩ := bind_eq_read.mp h
  obtain ⟨rfl, rfl⟩ := pure_eq_read.mp h
  obtain ⟨cs, rfl, hfirst⟩ := sound first
  have soundBoth : ∀ {input b rest}, (do q; p) input = Outcome.read b rest →
      ∃ es, input = es ++ rest ∧ ∃ s ts, es = s ++ ts ∧ separator s ∧ item b ts := by
    intro input b rest both
    obtain ⟨u, mid, hq, hp⟩ := bind_eq_read.mp both
    obtain ⟨s, rfl, hs⟩ := soundSeparator hq
    obtain ⟨ts, rfl, ht⟩ := sound hp
    exact ⟨s ++ ts, by simp, s, ts, rfl, hs, ht⟩
  have progress : Progresses (do q; p) := by
    refine progresses_of_sound soundBoth ?_
    rintro b es ⟨s, ts, rfl, hs, _⟩ empty
    exact ne_nil hs (List.append_eq_nil_iff.mp empty).1
  obtain ⟨ds, rfl, tail'⟩ := ((many_eq_read progress).mp tail).repeated soundBoth
  exact ⟨cs ++ ds, by simp, a, others, cs, ds, rfl, rfl, hfirst, tail'⟩

/-- Where the text of every value ends in the same character, the list does. -/
theorem Listed.getLast? {separator : List Char → Prop} {item : α → List Char → Prop}
    {as : List α} {text : List Char} {c : Char}
    (last : ∀ {a cs}, item a cs → cs.getLast? = some c) (h : Listed separator item as text) :
    text.getLast? = some c := by
  obtain ⟨a, others, cs, ds, rfl, rfl, first, tail⟩ := h
  have behind : ∀ front : List Char, front.getLast? = some c → (front ++ ds).getLast? = some c := by
    clear first
    induction tail with
    | nil =>
      intro front ends
      rwa [List.append_nil]
    | cons piece _ ih =>
      obtain ⟨s, ts, rfl, _, one⟩ := piece
      intro front ends
      rw [← List.append_assoc]
      refine ih _ ?_
      rw [List.getLast?_append, List.getLast?_append, last one]
      rfl
  exact behind cs (last first)

/-! ### Whole texts -/

theorem readAll_eq_ok {p : Reader α} {input : List Char} {a : α} :
    p.readAll input = .ok a ↔ p input = .read a [] := by
  unfold readAll
  cases h : p input with
  | failed e => simp
  | read b rest => cases rest <;> simp

end DirectoryAccess.Grammar.Reader
