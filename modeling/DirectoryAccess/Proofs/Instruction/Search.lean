import DirectoryAccess.Proofs.Assembly
import DirectoryAccess.Proofs.Stack.Duplicates
import DirectoryAccess.Proofs.Stack.Negations
import DirectoryAccess.Proofs.Text.Recasing

/-!
# Searching for clauses and instructions

A search trims the text that it looks for, and a push compares an element with those that are there
as they are written. The two agree where what is written has no blanks around it. That is so for
every valid clause, and for every valid instruction whose target rules have always refused to nest:
its first target rule is a condition, or else the text begins with the parenthesis in front of the
version.
-/
namespace DirectoryAccess

/-! ### Texts without blanks around them -/

namespace Text

theorem isBlank_toLower (c : Char) : isBlank c.toLower = isBlank c := by
  cases letter : c.isAlpha with
  | false => rw [toLower_of_not_isAlpha letter]
  | true =>
    have solid : ∀ d : Char, d.isAlpha = true → isBlank d = false :=
      fun d h => isBlank_of_isAlphanum (by simp [Char.isAlphanum, h])
    rw [solid c letter, solid _ ((isAlpha_toLower c).trans letter)]

/-- The text begins with a character that is not blank. -/
def Opens (s : String) : Prop :=
  ∃ c r, s.toList = c :: r ∧ isBlank c = false

/-- The text ends with a character that is not blank. -/
def Closes (s : String) : Prop :=
  ∃ c, s.toList.getLast? = some c ∧ isBlank c = false

theorem Opens.append {s : String} (h : Opens s) (t : String) : Opens (s ++ t) := by
  obtain ⟨c, r, split, solid⟩ := h
  exact ⟨c, r ++ t.toList, by rw [String.toList_append, split, List.cons_append], solid⟩

theorem Closes.append {t : String} (h : Closes t) (s : String) : Closes (s ++ t) := by
  obtain ⟨c, last, solid⟩ := h
  exact ⟨c, by rw [String.toList_append, List.getLast?_append, last, Option.some_or], solid⟩

theorem opens_enclosed {body : String} (h : Opens body) (parenthesized padded : Bool) :
    Opens (enclosed parenthesized padded body) := by
  cases parenthesized with
  | false => exact h
  | true =>
    cases padded with
    | false =>
      have opening : Opens "(" := ⟨'(', [], by decide, by decide⟩
      exact (opening.append body).append ")"
    | true =>
      have opening : Opens "( " := ⟨'(', [' '], by decide, by decide⟩
      exact (opening.append body).append " )"

theorem opens_intercalate (separator : String) {s : String} (h : Opens s) (others : List String) :
    Opens (separator.intercalate (s :: others)) := by
  obtain ⟨c, r, split, solid⟩ := h
  refine ⟨c, r ++ (others.map String.toList).flatMap (separator.toList ++ ·), ?_, solid⟩
  rw [String.toList_intercalate, List.map_cons, Grammar.Reader.intercalate_cons, split,
    List.cons_append]

/-- Texts that differ in letter case alone have blanks around them or not alike. -/
theorem isTrimmed_of_lower_eq {cs ds : List Char} (same : lower cs = lower ds)
    (h : IsTrimmed ds) : IsTrimmed cs := by
  have visible : ∀ {x y : Option Char}, x.map Char.toLower = y.map Char.toLower →
      (∀ c ∈ y, isBlank c = false) → ∀ c ∈ x, isBlank c = false := by
    intro x y lowered solid c hc
    rw [Option.mem_def.mp hc, Option.map_some] at lowered
    obtain ⟨d, hd, equal⟩ := Option.map_eq_some_iff.mp lowered.symm
    rw [← isBlank_toLower, ← equal, isBlank_toLower]
    exact solid d hd
  unfold lower at same
  constructor
  · refine visible ?_ h.1
    rw [← List.head?_map, same, List.head?_map]
  · refine visible ?_ h.2
    rw [← List.getLast?_map, same, List.getLast?_map]

end Text

/-! ### Search and push -/

namespace Stack

variable {α : Type} [Element α] {s : Stack α}

/-- Where values answer to what they are written as, a text without blanks around it is found just
when an element is written so, and whatever blanks are put around it. -/
theorem contains_padded
    (plain : ∀ (a : α) text, Element.answersTo a text = Text.sameWord (Element.render a) text)
    (byText : s.settings.uniqueness = .byText) {written text before after : String}
    (opens : Text.Opens written) (closes : Text.Closes written)
    (variant : Text.sameWord text written = true)
    (blankBefore : ∀ c ∈ before.toList, Text.isBlank c = true)
    (blankAfter : ∀ c ∈ after.toList, Text.isBlank c = true) :
    s.contains (before ++ text ++ after) =
      s.elements.any fun y => Text.sameWord y.render written := by
  have same : Text.lower text.toList = Text.lower written.toList := Text.sameWord_iff.mp variant
  have full : text.toList ≠ [] := by
    obtain ⟨c, r, split, _⟩ := opens
    intro empty
    rw [empty, split] at same
    cases same
  have trimmed : Text.IsTrimmed text.toList := by
    refine Text.isTrimmed_of_lower_eq same ⟨?_, ?_⟩
    · obtain ⟨c, r, split, solid⟩ := opens
      simpa [split] using solid
    · obtain ⟨c, last, solid⟩ := closes
      simpa [last] using solid
  have needle : Text.trimmed (before ++ text ++ after) = text := by
    unfold Text.trimmed
    rw [String.toList_append, String.toList_append,
      Text.trim_append blankBefore blankAfter full trimmed, String.ofList_toList]
  have answers : ∀ y : Node α, y.answersTo text = Text.sameWord y.render written := by
    intro y
    rw [Text.sameWord_comm y.render, Text.sameWord_congr same.symm, Text.sameWord_comm text]
    cases y with
    | leaf a => exact plain a text
    | stack t es => rfl
  have nonempty : text.isEmpty = false := by
    rw [Bool.eq_false_iff]
    intro empty
    exact full (by rw [String.isEmpty_iff.mp empty]; rfl)
  have texts : (Uniqueness.byText == .byKeyword) = false := by decide
  unfold contains
  rw [needle, byText, texts]
  simp [nonempty, answers]

/-- Search and push agree on the value: it is refused as a duplicate just when its text is found,
and is taken otherwise; and its text is found or not in any case of letters and with any blanks
around it. -/
structure SearchAgrees (s : Stack α) (a : α) : Prop where
  refused : (∃ text, s.push? (.leaf a) = .error (.duplicateValue text)) ↔
    s.contains (Element.render a) = true
  taken : (∃ t, s.push? (.leaf a) = .ok t) ↔ s.contains (Element.render a) = false
  variants : ∀ before text after : String, Text.sameWord text (Element.render a) = true →
    (∀ c ∈ before.toList, Text.isBlank c = true) → (∀ c ∈ after.toList, Text.isBlank c = true) →
    s.contains (before ++ text ++ after) = s.contains (Element.render a)

theorem searchAgrees_of_solid
    (plain : ∀ (a : α) text, Element.answersTo a text = Text.sameWord (Element.render a) text)
    (keyless : ∀ a : α, Element.keyword a = none) (byText : s.settings.uniqueness = .byText)
    (capacity : s.settings.capacity = none) {a : α} (valid : Element.validate a = .ok ())
    (opens : Text.Opens (Element.render a)) (closes : Text.Closes (Element.render a)) :
    s.SearchAgrees a := by
  have own : s.contains (Element.render a) =
      s.elements.any fun y => Text.sameWord y.render (Element.render a) := by
    have bare : ∀ c ∈ "".toList, Text.isBlank c = true := by simp
    have found := contains_padded plain byText opens closes (Text.sameWord_refl _) bare bare
    rwa [String.empty_append, String.append_empty] at found
  have pushed := push?_of_byText byText capacity (x := .leaf a)
    ((Settings.suits_leaf_iff (keyless a)).mpr valid)
  have pushed' : s.push? (.leaf a) =
      if s.contains (Element.render a) then .error (.duplicateValue (Element.render a))
      else .ok ⟨s.settings, s.elements ++ [.leaf a]⟩ := by
    rw [own]
    exact pushed
  refine ⟨?_, ?_, ?_⟩
  · rw [pushed']
    cases s.contains (Element.render a) <;> simp
  · rw [pushed']
    cases s.contains (Element.render a) <;> simp
  · intro before text after variant blankBefore blankAfter
    rw [own]
    exact contains_padded plain byText opens closes variant blankBefore blankAfter

end Stack

/-! ### Clauses -/

theorem Permission.opens_render {p : Permission} (h : p.validate = .ok ()) :
    Text.Opens p.render := by
  obtain ⟨d, disposition⟩ := Permission.exists_disposition h
  have word : Text.Opens d.name := by
    cases d with
    | allow => exact ⟨'a', ['l', 'l', 'o', 'w'], by decide, by decide⟩
    | deny => exact ⟨'d', ['e', 'n', 'y'], by decide, by decide⟩
  unfold Permission.render
  rw [disposition]
  exact ((word.append "(").append _).append ")"

theorem Clause.opens_render {c : Clause} (h : c.validate = .ok ()) : Text.Opens c.render := by
  have permission := (Clause.validate_eq_ok_iff.mp h).1
  rw [Clause.render_of_validate h]
  exact (((Permission.opens_render permission).append " ").append _).append ";"

theorem Clause.closes_render {c : Clause} (h : c.validate = .ok ()) : Text.Closes c.render := by
  have closing : Text.Closes ";" := ⟨';', by decide, by decide⟩
  rw [Clause.render_of_validate h]
  exact closing.append _

/-! ### Target rules that do not nest -/

theorem Condition.opens_render {c : Condition} (h : c.validate = .ok ()) :
    Text.Opens c.render := by
  obtain ⟨keyword, operator, expression, parenthesized, padded⟩ := c
  cases keyword with
  | none => cases h
  | some k =>
    cases operator with
    | none => cases h
    | some op =>
      have name : Text.Opens k.name := by
        rcases k with k | k
        · cases k <;> exact ⟨_, _, rfl, by decide⟩
        · cases k <;> exact ⟨_, _, rfl, by decide⟩
      exact Text.opens_enclosed
        ((((name.append _).append op.symbol).append _).append _) parenthesized padded

theorem Quoting.opens_value {text : String} (h : Text.Opens text) (q : Quoting) :
    Text.Opens (q.value text) := by
  cases q with
  | whole => exact h
  | each =>
    have quote : Text.Opens "\"" := ⟨'"', [], by decide, by decide⟩
    exact (quote.append text).append "\""

namespace Stack

section Suited

variable {α : Type} [Element α] {s : Stack α} {x : Node α}

theorem suits_of_mem_push {y : Node α} (hx : x ∈ (s.push y).elements) :
    x ∈ s.elements ∨ s.settings.Suits x := by
  rw [push_eq] at hx
  cases h : s.push? y with
  | error e =>
    rw [h] at hx
    exact .inl hx
  | ok t =>
    have admission := (push?_eq_ok_iff_checks.mp h).2.1
    rw [h, elements_of_push? h] at hx
    refine (List.mem_append.mp hx).imp_right fun new => ?_
    rw [List.mem_singleton.mp new]
    exact (Settings.checkAdmission_eq_ok_iff.mp admission).1

theorem suits_of_mem_pushAll {ys : List (Node α)} (hx : x ∈ (s.pushAll ys).elements) :
    x ∈ s.elements ∨ s.settings.Suits x := by
  induction ys generalizing s with
  | nil => exact .inl hx
  | cons y ys ih =>
    have same := (s.keeps_push y).settings
    rcases ih hx with earlier | suits
    · exact suits_of_mem_push earlier
    · exact .inr (same ▸ suits)

theorem suits_of_mem_replace? {t : Stack α} {i : Nat} {y old : Node α}
    (h : s.replace? i y = .ok (old, t)) (hx : x ∈ t.elements) :
    x ∈ s.elements ∨ s.settings.Suits x := by
  obtain ⟨_, admission, rfl⟩ := replace?_eq_ok_iff.mp h
  refine (List.mem_or_eq_of_mem_set hx).imp_right fun new => ?_
  rw [new]
  exact (Settings.checkAdmission_eq_ok_iff.mp admission).1

/-- What an operation has put into a stack suits the stack. -/
theorem suits_of_mem_perform {op : Operation α} (hx : x ∈ (s.perform op).2.elements) :
    x ∈ s.elements ∨ s.settings.Suits x := by
  cases op with
  | push y => exact suits_of_mem_push hx
  | adding y => exact suits_of_mem_push hx
  | pushAll ys =>
    rw [perform_pushAll] at hx
    exact suits_of_mem_pushAll hx
  | tryPush y =>
    rw [perform_tryPush_snd] at hx
    exact suits_of_mem_push hx
  | replace i y =>
    rw [perform_replace] at hx
    split at hx
    · next h => exact suits_of_mem_replace? h hx
    · exact .inl hx
  | tryReplace i y =>
    rw [perform_tryReplace] at hx
    split at hx
    · next h => exact suits_of_mem_replace? h hx
    · exact .inl hx
  | remove i =>
    exact .inl (((s.keeps_perform (.remove i)).known x hx).resolve_right List.not_mem_nil)
  | pop => exact .inl (((s.keeps_perform .pop).known x hx).resolve_right List.not_mem_nil)

end Suited

/-- A list of values alone, in which nothing nests. -/
structure Flat (s : Stack Condition) : Prop where
  kind : s.settings.kind = .list
  nesting : s.settings.nesting = false
  values : ∀ x ∈ s.elements, x.isLeaf = true

theorem flat_targetRules (layout : Layout) : (targetRules layout).Flat :=
  ⟨rfl, rfl, fun _ hx => absurd hx List.not_mem_nil⟩

theorem Flat.perform {s : Stack Condition} (flat : s.Flat) (op : Operation Condition) :
    (s.perform op).2.Flat := by
  have same := (s.keeps_perform op).settings
  refine ⟨same ▸ flat.kind, same ▸ flat.nesting, fun x hx => ?_⟩
  rcases suits_of_mem_perform hx with before | suits
  · exact flat.values x before
  · cases x with
    | leaf c => rfl
    | stack t es =>
      have allowed := (Settings.checkNesting_stack_eq_ok_iff.mp suits.1).1
      rw [flat.nesting] at allowed
      cases allowed

theorem Flat.take {s : Stack Condition} (flat : s.Flat) {step : Step Condition}
    (still : step ≠ .change (.nesting true)) : (s.take step).Flat := by
  cases step with
  | perform op => exact flat.perform op
  | change setting =>
    cases setting with
    | nesting allowed =>
      cases allowed with
      | false => exact ⟨flat.kind, rfl, flat.values⟩
      | true => exact absurd rfl still
    | _ => exact ⟨flat.kind, flat.nesting, flat.values⟩

theorem Flat.follow {s : Stack Condition} (flat : s.Flat) {steps : List (Step Condition)}
    (still : ∀ step ∈ steps, step ≠ .change (.nesting true)) : (s.follow steps).Flat := by
  induction steps generalizing s with
  | nil => exact flat
  | cons step steps ih =>
    obtain ⟨first, others⟩ := List.forall_mem_cons.mp still
    exact ih (flat.take first) others

theorem Flat.opens_render {s : Stack Condition} (flat : s.Flat) (valid : s.validate = .ok ())
    (full : s.elements ≠ []) : Text.Opens s.render := by
  obtain ⟨settings, elements⟩ := s
  cases elements with
  | nil => exact absurd rfl full
  | cons x xs =>
    have each := ((validate_eq_ok_iff _).mp valid).2
    cases x with
    | stack t es => cases flat.values _ List.mem_cons_self
    | leaf c =>
      have first : Text.Opens (settings.quoting.value c.render) :=
        Quoting.opens_value (Condition.opens_render (each _ List.mem_cons_self)) settings.quoting
      have joined := Text.opens_intercalate (settings.delimiter.written settings.padded) first
        (Node.parts settings.quoting xs)
      have list : settings.kind = .list := flat.kind
      have whole : Stack.render ⟨settings, .leaf c :: xs⟩ =
          enclosed settings.parenthesized settings.padded
            ((settings.delimiter.written settings.padded).intercalate
              (settings.quoting.value c.render :: Node.parts settings.quoting xs)) := by
        rw [render_eq]
        simp [Settings.write, Settings.join, list, Node.parts, Node.isLeaf, Node.render,
          Element.render]
      rw [whole]
      exact Text.opens_enclosed joined settings.parenthesized settings.padded

end Stack

/-! ### Instructions -/

/-- The target rules begin as an empty collection, and are changed in any way, except that they are
never allowed to nest. -/
def Instruction.KeepsTargetsFlat (i : Instruction) : Prop :=
  ∃ (layout : Layout) (steps : List (Stack.Step Condition)),
    (∀ step ∈ steps, step ≠ .change (.nesting true)) ∧
      i.targets = (Stack.targetRules layout).follow steps

namespace Instruction

theorem opens_render {i : Instruction} (valid : i.validate = .ok ()) (flat : i.targets.Flat) :
    Text.Opens i.render := by
  obtain ⟨_, _, targets, _⟩ := validate_eq_ok_iff.mp valid
  have opening : Text.Opens (i.targets.render ++ "(version 3.0; acl ") := by
    by_cases full : i.targets.elements = []
    · have empty : i.targets.render = "" := by
        rw [Stack.render_eq, full]
        rfl
      rw [empty]
      exact ⟨'(', _, rfl, by decide⟩
    · exact (flat.opens_render targets full).append _
  rw [render_of_validate valid]
  exact (((opening.append _).append "; ").append _).append ")"

theorem closes_render {i : Instruction} (valid : i.validate = .ok ()) : Text.Closes i.render := by
  have closing : Text.Closes ")" := ⟨')', by decide, by decide⟩
  rw [render_of_validate valid]
  exact closing.append _

end Instruction

/-- Whatever has been pushed onto a collection of clauses or of instructions, replaced in it and
taken out of it: a valid clause or instruction is refused as a duplicate just when a search for its
text finds something, and the search takes no notice of letter case and of blanks around the text.
The target rules of the instruction may have been changed in any way but to let them nest. -/
theorem Stack.search_agrees_with_push (ops : List (Operation Clause))
    (ops' : List (Operation Instruction)) :
    (∀ c : Clause, c.validate = .ok () → (run clauses ops).SearchAgrees c) ∧
    ∀ i : Instruction, i.validate = .ok () → i.KeepsTargetsFlat →
      (run instructions ops').SearchAgrees i := by
  constructor
  · intro c valid
    have same : (run clauses ops).settings = clauses.settings := (keeps_run clauses ops).settings
    exact searchAgrees_of_solid (fun _ _ => rfl) (fun _ => rfl) (by rw [same]; rfl)
      (by rw [same]; rfl) valid (Clause.opens_render valid) (Clause.closes_render valid)
  · rintro i valid ⟨layout, steps, still, made⟩
    have same : (run instructions ops').settings = instructions.settings :=
      (keeps_run instructions ops').settings
    have flat : i.targets.Flat := made ▸ (flat_targetRules layout).follow still
    exact searchAgrees_of_solid (fun _ _ => rfl) (fun _ => rfl) (by rw [same]; rfl)
      (by rw [same]; rfl) valid (i.opens_render valid flat) (i.closes_render valid)

/-- A clause that was taken out and put back, and an instruction whose name has blanks around it,
are found in other letters and between blanks. -/
theorem Stack.search_agrees_for_recased_text :
    let clause : Clause :=
      ⟨.ofRights .allow [.read], .leaf (.new (.bind .ssf) .greaterOrEqual (.value "128"))⟩
    let target : Condition := .new (.target .targetScope) .equal (.value "subtree")
    let steps : List (Step Condition) :=
      [.perform (.push (.leaf target)), .change (.padded false), .change (.parenthesized true)]
    let instruction : Instruction :=
      ⟨" Open ", (targetRules {}).follow steps, ofClause clause⟩
    let ops : List (Operation Clause) := [.push (.leaf clause), .remove 0, .tryPush (.leaf clause)]
    let ops' : List (Operation Instruction) := [.adding (.leaf instruction)]
    (clause.validate = .ok () ∧ (run clauses ops).SearchAgrees clause ∧
      (run clauses ops).contains "\t ALLOW(Read) SSF >= \"128\"; " = true) ∧
    (instruction.validate = .ok () ∧ instruction.KeepsTargetsFlat ∧
      (run instructions ops').SearchAgrees instruction ∧
      (run instructions ops').contains (" (( TargetScope = \"SUBTREE\" ))(VERSION 3.0; ACL " ++
        "\" OPEN \"; Allow(Read) ssf >= \"128\";)\n") = true) := by
  intro clause target steps instruction ops ops'
  obtain ⟨inClauses, inInstructions⟩ := search_agrees_with_push ops ops'
  have validClause : clause.validate = .ok () := by decide +kernel
  have validInstruction : instruction.validate = .ok () := by decide +kernel
  have flat : instruction.KeepsTargetsFlat := by
    refine ⟨{}, steps, ?_, rfl⟩
    simp [steps]
  refine ⟨⟨validClause, inClauses clause validClause, by decide +kernel⟩, validInstruction, flat,
    inInstructions instruction validInstruction flat, by decide +kernel⟩

end DirectoryAccess
