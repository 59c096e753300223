import DirectoryAccess.Proofs.Values.Operations
import Mathlib.Data.List.Infix

/-!
# The check of a filter and the scan for a group

The check takes a whole text and refuses what stands behind its first expression. The scan stops
behind a group and leaves the rest to its caller. Both count open parentheses, and they agree on
where the first group ends: the check accepts just the groups, as far as these have something in
them and no double quote.
-/
namespace DirectoryAccess

/-! ### Groups as texts -/

namespace Text

theorem byteLength_pos_iff {cs : List Char} : 0 < byteLength cs ↔ cs ≠ [] := by
  cases cs with
  | nil => simp [byteLength]
  | cons c r =>
    have own : 0 < c.utf8Size := c.utf8Size_pos
    simp only [byteLength, List.foldr_cons, ne_eq, reduceCtorEq, not_false_eq_true, iff_true]
    omega

theorem two_lt_length_enclosed_iff {w : List Char} : 2 < ('(' :: (w ++ [')'])).length ↔ w ≠ [] := by
  rw [← List.length_pos_iff]
  simp only [List.length_cons, List.length_append, List.length_nil]
  omega

/-- A parenthesis is a single byte, so counting bytes finds the same texts empty between the two. -/
theorem two_lt_byteLength_enclosed_iff {w : List Char} :
    2 < byteLength ('(' :: (w ++ [')'])) ↔ w ≠ [] := by
  have parts : byteLength ('(' :: (w ++ [')'])) = 1 + (byteLength w + 1) :=
    congrArg (1 + ·) (byteLength_append w [')'])
  rw [parts, ← byteLength_pos_iff]
  omega

end Text

namespace Grammar

/-- Whether parentheses pair up is decided on the finitely many parts at the start of the text. -/
instance (depth : Nat) (w : List Char) : Decidable (Closes depth w) :=
  decidable_of_iff
    ((∀ p ∈ w.inits, p.count ')' ≤ p.count '(' + depth) ∧ w.count ')' = w.count '(' + depth)
    (by simp only [Closes, List.mem_inits])

theorem IsGroup.isTrimmed {g : List Char} (h : IsGroup g) : Text.IsTrimmed g := by
  have last := h.getLast?
  obtain ⟨w, rfl, _⟩ := h
  refine ⟨?_, ?_⟩
  · rintro c ⟨⟩
    decide
  · intro c hc
    obtain rfl : c = ')' := by simpa [last, eq_comm] using hc
    decide

end Grammar

namespace Filter

open Grammar Grammar.Reader

/-! ### Expressions -/

/-- One expression in parentheses: something stands between them, parentheses pair up in it, and no
double quote occurs. -/
def IsExpression (cs : List Char) : Prop :=
  '"' ∉ cs ∧ ∃ w, w ≠ [] ∧ cs = '(' :: (w ++ [')']) ∧ Closes 0 w

theorem isExpression_iff {cs : List Char} :
    IsExpression cs ↔ IsGroup cs ∧ 2 < Text.byteLength cs ∧ '"' ∉ cs := by
  constructor
  · rintro ⟨free, w, full, rfl, closes⟩
    exact ⟨⟨w, rfl, closes⟩, Text.two_lt_byteLength_enclosed_iff.mpr full, free⟩
  · rintro ⟨⟨w, rfl, closes⟩, long, free⟩
    exact ⟨free, w, Text.two_lt_byteLength_enclosed_iff.mp long, rfl, closes⟩

/-! ### The answer of the check in terms of the scan -/

/-- A text that begins and ends as an expression is accepted where the scan for a group takes all of
it. It is refused with one reason where the scan leaves something, with another where it fails. -/
theorem body?_eq_scan {text : String} {w : List Char}
    (enclosed : Text.trim text.toList = '(' :: (w ++ [')'])) (full : w ≠ []) (free : '"' ∉ w) :
    body? text =
      match balanced ('(' :: (w ++ [')'])) with
      | .read _ [] => .ok (Text.trimmed text)
      | .read _ (_ :: _) =>
        .error (.badValue noun text "more than one top-level expression")
      | .failed _ => .error (.badValue noun text "unbalanced parentheses") := by
  have last : ('(' :: (w ++ [')'])).getLast? = some ')' := by
    rw [← List.cons_append, List.getLast?_concat]
  have long : ¬ ('(' :: (w ++ [')'])).length < 3 :=
    Nat.not_lt.mpr (Text.two_lt_length_enclosed_iff.mpr full)
  have free' : ('(' :: (w ++ [')'])).contains '"' = false := by
    simpa using free
  have fault : parenthesisFault? 0 ('(' :: (w ++ [')'])) =
      scanFault? (balancedStart? 0 ('(' :: (w ++ [')']))) := by
    rw [parenthesisFault?, if_pos rfl, balancedStart?, if_pos rfl, scanFault?_extendTaken]
    exact parenthesisFault?_eq_scanFault? 0 _
  unfold body? balanced ofFunction Text.trimmed
  simp only [enclosed, last, long, free', fault, List.head?_cons, ne_eq, not_true_eq_false,
    or_self, if_false, Bool.false_eq_true]
  rcases balancedStart? 0 ('(' :: (w ++ [')'])) with _ | ⟨taken, _ | ⟨d, rest⟩⟩ <;> rfl

-- a parenthesis that nothing opens counts as a second expression if a group stands in front of it
example :
    balanced "(a))(b)".toList = .read "(a)".toList ")(b)".toList ∧
      body? "(a))(b)" =
        .error (.badValue noun "(a))(b)" "more than one top-level expression") :=
  ⟨by decide, by decide⟩

/-! ### Expressions are what both accept -/

theorem isExpression_of_isBody {cs : List Char} (h : IsBody cs) : IsExpression cs := by
  obtain ⟨⟨w, rfl, closes⟩, long, free⟩ := isBody_iff.mp h
  exact ⟨free, w, Text.two_lt_length_enclosed_iff.mp long, rfl, closes⟩

theorem IsExpression.balanced_append {f : List Char} (h : IsExpression f) (rest : List Char) :
    balanced (f ++ rest) = .read f rest :=
  balanced_eq_read.mpr ⟨rfl, (isExpression_iff.mp h).1⟩

theorem IsExpression.body?_eq {text : String} (h : IsExpression (Text.trim text.toList)) :
    body? text = .ok (Text.trimmed text) := by
  have scan := h.balanced_append []
  rw [List.append_nil] at scan
  obtain ⟨free, w, full, enclosed, _⟩ := h
  rw [enclosed] at scan free
  have inner : '"' ∉ w := fun quote =>
    free (List.mem_cons_of_mem _ (List.mem_append_left _ quote))
  rw [body?_eq_scan enclosed full inner, scan]

theorem body?_eq_ok_iff_isExpression {text body : String} :
    body? text = .ok body ↔
      body = Text.trimmed text ∧ IsExpression (Text.trim text.toList) := by
  constructor
  · intro accepted
    obtain ⟨same, isBody⟩ := body?_eq_ok_iff.mp accepted
    exact ⟨same, isExpression_of_isBody isBody⟩
  · rintro ⟨rfl, expression⟩
    exact expression.body?_eq

/-- The check accepts a text just if it is an expression once the blanks around it are dropped, and
answers with that expression. A scan takes just the expression, whatever stands behind it. What a
scan takes from any text is accepted unchanged just if it is longer than its two parentheses and has
no double quote. -/
theorem check_agrees_with_scan :
    (∀ text body : String, body? text = .ok body ↔
      body = Text.trimmed text ∧ IsExpression (Text.trim text.toList)) ∧
    (∀ f rest : List Char, IsExpression f → balanced (f ++ rest) = .read f rest) ∧
    (∀ input g rest : List Char, balanced input = .read g rest →
      input = g ++ rest ∧
        (body? (String.ofList g) = .ok (String.ofList g) ↔
          2 < Text.byteLength g ∧ '"' ∉ g)) := by
  refine ⟨fun text body => body?_eq_ok_iff_isExpression, ?_, ?_⟩
  · intro f rest expression
    exact expression.balanced_append rest
  · intro input g rest read
    obtain ⟨split, group⟩ := balanced_eq_read.mp read
    have trimmed : Text.trim (String.ofList g).toList = g := by
      rw [String.toList_ofList, group.isTrimmed.trim_eq]
    refine ⟨split, ?_⟩
    rw [body?_eq_ok_iff_isExpression, Text.trimmed, trimmed, isExpression_iff]
    simp only [group, true_and]

/-- An expression with other expressions in it, blanks around it for the check and a group behind
it for the scan. -/
theorem check_agrees_with_scan_on_nested :
    let f := "(&(cn=Zoë)(!(sn=😀)))"
    let text := "\u3000" ++ f ++ "\t"
    let rest := ")(sn=*)"
    IsExpression f.toList ∧ body? text = .ok f ∧
      balanced (f.toList ++ rest.toList) = .read f.toList rest.toList ∧ body? f = .ok f := by
  intro f text rest
  obtain ⟨check, scan, back⟩ := check_agrees_with_scan
  have expression : IsExpression f.toList :=
    ⟨by decide, "&(cn=Zoë)(!(sn=😀))".toList, by decide, by decide, by decide⟩
  have trimmed : Text.trim text.toList = f.toList := by decide
  have same : f = Text.trimmed text := by
    rw [Text.trimmed, trimmed, String.ofList_toList]
  have taken := scan f.toList rest.toList expression
  have again := (back _ _ _ taken).2.mpr ⟨by decide, by decide⟩
  rw [String.ofList_toList] at again
  exact ⟨expression, (check text f).mpr ⟨same, trimmed ▸ expression⟩, taken, again⟩

end Filter

end DirectoryAccess
