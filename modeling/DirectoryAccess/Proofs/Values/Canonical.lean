import DirectoryAccess.Condition.Values
import DirectoryAccess.Proofs.Stack.Lawful
import DirectoryAccess.Proofs.Text.Joining

/-!
# Canonical expressions

An expression is written as quoted texts with bars between them. It is canonical for a keyword when
these texts hold no quotes and are read as the same expression again.
-/
namespace DirectoryAccess

/-- The texts between the quotes of a written list. -/
def Stack.texts {α : Type} [Element α] (s : Stack α) : List String :=
  match s.settings.quoting with
  | .whole => [s.render]
  | .each => s.elements.map Node.render

namespace Expression

def texts : Expression → List String
  | value text => [text]
  | distinguishedNames s => s.texts
  | objectIdentifiers s => s.texts
  | attributeTypes s => s.texts
  | filterOperations s => s.texts

/-- The expression is what is read from the texts that it is written with. -/
structure Canonical (k : Keyword) (e : Expression) : Prop where
  full : e.texts ≠ []
  unquoted : ∀ v ∈ e.texts, '"' ∉ v.toList
  written : e.render = " || ".intercalate (e.texts.map quoted)
  reread : Expression.read k e.texts (.ofCount e.texts.length) = .ok e

theorem canonical_value {k : Keyword} {text : String} (unquoted : '"' ∉ text.toList)
    (reread : Expression.read k [text] .whole = .ok (.value text)) :
    Canonical k (.value text) where
  full := by simp [texts]
  unquoted := by simpa [texts] using unquoted
  written := by
    show quoted text = " || ".intercalate [quoted text]
    rw [String.intercalate_singleton]
  reread := reread

end Expression

/-! ### Lists of values that are given one by one -/

/-- A value whose written form, with blanks around it, is read as the value again and cannot be
mistaken for several values or for the end of one. -/
structure Plain {α : Type} [Element α] (part : String → Except ReadError α) (a : α) : Prop where
  full : (Element.render a).toList ≠ []
  trimmed : Text.IsTrimmed (Element.render a).toList
  single : Text.hasDouble '|' (Element.render a).toList = false
  unquoted : '"' ∉ (Element.render a).toList
  again : ∀ text : String, Text.Pads (Element.render a).toList text.toList → part text = .ok a

namespace Stack

variable {α : Type} [Element α]

/-- The values in a text that separates them by two bars. -/
def readParts (part : String → Except ReadError α) (empty : Stack α) (text : String) :
    Except ReadError (Stack α) :=
  (Text.splitDouble '|' text).foldlM (fun s t => do
    let a ← part t
    s.pushRead a) empty

theorem readParts_eq_ok_iff {part : String → Except ReadError α} {settings : Settings}
    {text : String} {list : Stack α} :
    readParts part ⟨settings, []⟩ text = .ok list ↔
      ∃ as, List.Forall₂ (fun t a => part t = .ok a) (Text.splitDouble '|' text) as ∧
        list = ⟨settings, as.map .leaf⟩ ∧ list.Lawful := by
  unfold readParts pushRead
  exact fill_eq_ok_iff

theorem readParts_intercalate {part : String → Except ReadError α} {settings : Settings}
    {as : List α} (full : as ≠ []) (plain : ∀ a ∈ as, Plain part a)
    (lawful : Lawful (⟨settings, as.map .leaf⟩ : Stack α)) :
    readParts part ⟨settings, []⟩ (" || ".intercalate (as.map Element.render)) =
      .ok ⟨settings, as.map .leaf⟩ := by
  refine readParts_eq_ok_iff.mpr ⟨as, ?_, rfl, lawful⟩
  have single : ∀ p ∈ as.map Element.render, Text.hasDouble '|' p.toList = false := by
    simpa using fun a ha => (plain a ha).single
  have pieces := Text.forall₂_pads_splitDouble (by simpa using full) single
  rw [List.forall₂_map_left_iff] at pieces
  have both := (List.forall₂_and_left _ _).mpr ⟨plain, pieces⟩
  exact List.Forall₂.flip (both.imp fun a text h => h.1.again text h.2)

end Stack

/-- The settings of a list whose values have bars between them. -/
structure Settings.Barred (s : Settings) : Prop where
  list : s.kind = .list
  bars : s.delimiter.written s.padded = " || "
  bare : s.parenthesized = false

/-- The expression made of a list is written as the list, and is empty or valid as the list is. -/
class LawfulListable (α : Type) extends Listable α where
  isEmpty_toExpression : ∀ s : Stack α, (toExpression s).isEmpty = s.isEmpty
  validate_toExpression : ∀ s : Stack α, (toExpression s).validate = s.validate
  texts_toExpression : ∀ s : Stack α, (toExpression s).texts = s.texts
  render_toExpression : ∀ s : Stack α, (toExpression s).render =
    match s.settings.quoting with
    | .whole => quoted s.render
    | .each => s.render

instance : LawfulListable DistinguishedName :=
  ⟨fun _ => rfl, fun _ => rfl, fun _ => rfl, fun _ => rfl⟩

instance : LawfulListable ObjectIdentifier :=
  ⟨fun _ => rfl, fun _ => rfl, fun _ => rfl, fun _ => rfl⟩

instance : LawfulListable AttributeType :=
  ⟨fun _ => rfl, fun _ => rfl, fun _ => rfl, fun _ => rfl⟩

instance : LawfulListable FilterOperation :=
  ⟨fun _ => rfl, fun _ => rfl, fun _ => rfl, fun _ => rfl⟩

namespace Expression

section Lists

variable {α : Type} [LawfulListable α] {k : Keyword}

/-- A list whose text as a whole is read as the list again is canonical. -/
theorem canonical_whole {list : Stack α} (whole : list.settings.quoting = .whole)
    (unquoted : '"' ∉ list.render.toList)
    (reread : Expression.read k [list.render] .whole = .ok (Listable.toExpression list)) :
    Canonical k (Listable.toExpression list) := by
  have texts_eq : (Listable.toExpression list).texts = [list.render] := by
    rw [LawfulListable.texts_toExpression, Stack.texts, whole]
  have render_eq : (Listable.toExpression list).render = quoted list.render := by
    rw [LawfulListable.render_toExpression, whole]
  refine ⟨?_, ?_, ?_, ?_⟩
  · simp [texts_eq]
  · simpa [texts_eq] using unquoted
  · rw [texts_eq, render_eq, List.map_singleton, String.intercalate_singleton]
  · rw [texts_eq]
    exact reread

variable {p : String → Except ReadError α} {s : Settings} {as : List α}

theorem canonical_each (barred : s.Barred) (plain : ∀ a ∈ as, Plain p a)
    (many : 1 < as.length)
    (reread : Expression.read k (as.map Element.render) .each =
      .ok (Listable.toExpression ((⟨s, as.map .leaf⟩ : Stack α).setQuoting .each))) :
    Canonical k (Listable.toExpression ((⟨s, as.map .leaf⟩ : Stack α).setQuoting .each)) := by
  have full : as ≠ [] := by
    rintro rfl
    simp at many
  have texts_eq : (Listable.toExpression
      ((⟨s, as.map .leaf⟩ : Stack α).setQuoting .each)).texts = as.map Element.render := by
    rw [LawfulListable.texts_toExpression]
    show (as.map Node.leaf).map Node.render = _
    rw [List.map_map]
    rfl
  refine ⟨?_, ?_, ?_, ?_⟩
  · rw [texts_eq]
    simpa using full
  · rw [texts_eq]
    simpa using fun a ha => (plain a ha).unquoted
  · rw [texts_eq, LawfulListable.render_toExpression]
    have rendered := render_leaves (s := { s with quoting := .each }) barred.list
      barred.bare as
    refine rendered.trans ?_
    show (s.delimiter.written s.padded).intercalate _ = _
    rw [barred.bars, List.map_map]
    rfl
  · rw [texts_eq, List.length_map]
    unfold Quoting.ofCount
    rw [if_pos many]
    exact reread

/-- A list that is read from one text is canonical, or so is its value if it has only one. -/
theorem canonical_ofList_whole (barred : s.Barred) (whole : s.quoting = .whole) (full : as ≠ [])
    (plain : ∀ a ∈ as, Plain p a)
    (reread : Expression.read k [" || ".intercalate (as.map Element.render)] .whole =
      .ok (ofList ⟨s, as.map .leaf⟩ .whole)) : (ofList ⟨s, as.map .leaf⟩ .whole).Canonical k := by
  match as, full with
  | [a], _ =>
    rw [List.map_singleton, String.intercalate_singleton] at reread
    exact canonical_value (plain a (by simp)).unquoted reread
  | a :: b :: as, _ =>
    have kept : ofList ⟨s, (a :: b :: as).map .leaf⟩ .whole =
        Listable.toExpression (⟨s, (a :: b :: as).map .leaf⟩ : Stack α) := by
      show Listable.toExpression (⟨{ s with quoting := .whole }, _⟩ : Stack α) = _
      rw [← whole]
    have render_eq : Stack.render (⟨s, (a :: b :: as).map .leaf⟩ : Stack α) =
        " || ".intercalate ((a :: b :: as).map Element.render) := by
      rw [render_whole barred.list barred.bare whole, barred.bars]
    have unquoted : '"' ∉ (" || ".intercalate ((a :: b :: as).map Element.render)).toList := by
      refine Text.not_mem_intercalate (by decide) ?_
      simpa using fun x hx => (plain x hx).unquoted
    rw [kept] at reread ⊢
    rw [← render_eq] at reread unquoted
    exact canonical_whole whole unquoted reread

/-- The values of the keyword are read one by one, from the parts between bars. -/
structure Parted (k : Keyword) (p : String → Except ReadError α) (s : Settings) : Prop where
  barred : s.Barred
  whole : s.quoting = .whole
  reads : ∀ vs q, Expression.read k vs q =
    (do return ofList (← Stack.readParts p ⟨s, []⟩ (" || ".intercalate vs)) q)
  plain : ∀ {text a}, p text = .ok a → Plain p a

theorem Parted.canonical (parted : Parted k p s) {vs : List String} {e : Expression}
    (h : Expression.read k vs (.ofCount vs.length) = .ok e) : e.Canonical k := by
  rw [parted.reads] at h
  obtain ⟨list, read, made⟩ := bind_eq_ok.mp h
  obtain rfl := pure_eq_ok.mp made
  obtain ⟨as, pieces, rfl, lawful⟩ := Stack.readParts_eq_ok_iff.mp read
  have size : (Text.splitDouble '|' (" || ".intercalate vs)).length = as.length :=
    pieces.length_eq
  have plain' : ∀ a ∈ as, Plain p a := by
    intro a ha
    obtain ⟨t, _, made⟩ := exists_of_forall₂ pieces ha
    exact parted.plain made
  have full : as ≠ [] := by
    rintro rfl
    exact Text.piecesAtDouble_ne_nil _ _ (List.map_eq_nil_iff.mp (List.length_eq_zero_iff.mp size))
  have again := Stack.readParts_intercalate full plain' lawful
  -- The number of quoted texts sets the quoting; the number of values comes from the bars in them.
  by_cases several : 1 < vs.length
  · have many : 1 < as.length := by
      match vs, several with
      | v :: w :: ws, _ =>
        have : 2 ≤ (Text.splitDouble '|' (" || ".intercalate (v :: w :: ws))).length :=
          Text.two_le_length_splitDouble
        omega
    have each : Quoting.ofCount vs.length = .each := if_pos several
    rw [each]
    refine canonical_each parted.barred plain' many ?_
    rw [parted.reads, again]
    rfl
  · have one : Quoting.ofCount vs.length = .whole := if_neg several
    rw [one]
    refine canonical_ofList_whole parted.barred parted.whole full plain' ?_
    rw [parted.reads, String.intercalate_singleton, again]
    rfl

end Lists

end Expression

end DirectoryAccess
