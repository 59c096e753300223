import DirectoryAccess.Condition.Operand
import DirectoryAccess.Proofs.Condition.Rereading
import DirectoryAccess.Proofs.Stack.Runs

/-!
# Values in lists that follow a layout

A list that is built with a layout has blanks around its bars only where the layout asks for them. A
list that is read always has them when it is written again, so the layout decides whether the text
of a list is kept.
-/
namespace DirectoryAccess

namespace Expression

/-- Two bars stand between values of the expression. -/
def hasBars : Expression → Bool
  | distinguishedNames s => 1 < s.size
  | objectIdentifiers s => 1 < s.size
  | attributeTypes s => 1 < s.size
  | value _ | filterOperations _ => false

/-- The text alone is read as a valid expression of the keyword that is written with this text. -/
def Kept (k : Keyword) (text : String) : Prop :=
  ∃ e : Expression, e.Canonical k ∧ e.texts = [text] ∧ e.isEmpty = false ∧ e.validate = .ok ()

/-- The expression is written with the text between its quotes, and the text is kept unless it has
tight bars. -/
structure Follows (layout : Layout) (k : Keyword) (e : Expression) (text : String) : Prop where
  texts : e.texts = [text]
  written : e.render = quoted text
  unquoted : e.validate = .ok () → '"' ∉ text.toList
  kept : e.isEmpty = false → e.validate = .ok () →
    (layout.paddedStacks = true ∨ e.hasBars = false) → Kept k text
  lost : layout.paddedStacks = false → e.hasBars = true → ∀ f : Expression, f.Canonical k →
    f.texts ≠ [text]

/-- The expression is a single text, and is read of that text again. -/
def ReadAlone (k : Keyword) (e : Expression) : Prop :=
  ∃ text, e = .value text ∧ Expression.read k [text] .whole = .ok (.value text)

/-- A single text has no bars to lose. -/
theorem ReadAlone.follows {layout : Layout} {k : Keyword} {e : Expression} (h : e.ReadAlone k) :
    ∃ text, e.Follows layout k text := by
  obtain ⟨text, rfl, again⟩ := h
  refine ⟨text, rfl, rfl, ?_, ?_, ?_⟩
  · intro valid
    exact (validate_value_eq_ok_iff.mp valid).2
  · intro full valid _
    have unquoted := (validate_value_eq_ok_iff.mp valid).2
    exact ⟨.value text, canonical_value unquoted again, rfl, full, valid⟩
  · intro _ bars
    cases bars

/-! ### Lists in one pair of quotes -/

section Lists

variable {α : Type} [LawfulListable α] {s : Settings} {as : List α}

theorem texts_ofList (list : s.kind = .list) (bare : s.parenthesized = false)
    (whole : s.quoting = .whole) :
    (ofList (⟨s, as.map .leaf⟩ : Stack α) .whole).texts =
      [Stack.render (⟨s, as.map .leaf⟩ : Stack α)] := by
  have kept : (Listable.toExpression
      ((⟨s, as.map .leaf⟩ : Stack α).setQuoting .whole)).texts =
      [Stack.render (⟨s, as.map .leaf⟩ : Stack α)] := by
    have same : (⟨s, as.map .leaf⟩ : Stack α).setQuoting .whole = ⟨s, as.map .leaf⟩ := by
      show (⟨{ s with quoting := .whole }, _⟩ : Stack α) = _
      rw [← whole]
    rw [same, LawfulListable.texts_toExpression, Stack.texts, whole]
  cases as with
  | nil => exact kept
  | cons a others =>
    cases others with
    | nil =>
      show [Element.render a] = _
      rw [render_whole list bare whole, List.map_singleton, String.intercalate_singleton]
    | cons => exact kept

theorem sound_ofList (full : as ≠ [])
    (sound : ∀ a ∈ as, (value (Element.render a)).validate = .ok ())
    (valid : Stack.validate (⟨s, as.map .leaf⟩ : Stack α) = .ok ()) :
    (ofList (⟨s, as.map .leaf⟩ : Stack α) .whole).isEmpty = false ∧
      (ofList (⟨s, as.map .leaf⟩ : Stack α) .whole).validate = .ok () := by
  match as, full with
  | [a], _ =>
    have single := sound a (by simp)
    exact ⟨(validate_value_eq_ok_iff.mp single).1, single⟩
  | a :: b :: as, _ =>
    have stays : (Listable.toExpression
        ((⟨s, (a :: b :: as).map .leaf⟩ : Stack α).setQuoting .whole)).isEmpty = false := by
      rw [LawfulListable.isEmpty_toExpression]
      rfl
    refine ⟨stays, ?_⟩
    show (Listable.toExpression
      ((⟨s, (a :: b :: as).map .leaf⟩ : Stack α).setQuoting .whole)).validate = .ok ()
    rw [LawfulListable.validate_toExpression]
    rw [Stack.validate_eq_ok_iff] at valid ⊢
    exact valid

variable {k : Keyword} {p : String → Except ReadError α}

theorem Parted.kept (parted : Parted k p s) (again : ∀ a ∈ as, p (Element.render a) = .ok a)
    (full : as ≠ []) (lawful : (⟨s, as.map .leaf⟩ : Stack α).Lawful)
    (valid : Stack.validate (⟨s, as.map .leaf⟩ : Stack α) = .ok ()) :
    Kept k (" || ".intercalate (as.map Element.render)) := by
  have plain : ∀ a ∈ as, Plain p a := fun a ha => parted.plain (again a ha)
  have sound : ∀ a ∈ as, (value (Element.render a)).validate = .ok () := by
    intro a ha
    refine validate_value_eq_ok_iff.mpr ⟨?_, (plain a ha).unquoted⟩
    have visible := (plain a ha).full
    rw [Bool.eq_false_iff]
    intro empty
    exact visible (by simpa using String.isEmpty_iff.mp empty)
  have reread : Expression.read k [" || ".intercalate (as.map Element.render)] .whole =
      .ok (ofList ⟨s, as.map .leaf⟩ .whole) := by
    rw [parted.reads, String.intercalate_singleton, Stack.readParts_intercalate full plain lawful]
    rfl
  obtain ⟨notEmpty, valid'⟩ := sound_ofList full sound valid
  refine ⟨ofList ⟨s, as.map .leaf⟩ .whole,
    canonical_ofList_whole parted.barred parted.whole full plain reread, ?_, notEmpty, valid'⟩
  rw [texts_ofList parted.barred.list parted.barred.bare parted.whole,
    render_whole parted.barred.list parted.barred.bare parted.whole, parted.barred.bars]

theorem Parted.lost (parted : Parted k p s) (again : ∀ a ∈ as, p (Element.render a) = .ok a)
    (several : 1 < as.length) {e : Expression} (canonical : e.Canonical k) :
    e.texts ≠ ["||".intercalate (as.map Element.render)] := by
  intro tight
  -- Whatever is read from the text is a list of its own, written with blanks around its bars. The
  -- pieces may be others than the values, where a value ends in a bar.
  have reread := canonical.reread
  rw [tight] at reread
  have one : Quoting.ofCount ["||".intercalate (as.map Element.render)].length = .whole := rfl
  rw [one, parted.reads, String.intercalate_singleton] at reread
  obtain ⟨list, read, made⟩ := bind_eq_ok.mp reread
  obtain ⟨bs, pieces, rfl, _⟩ := Stack.readParts_eq_ok_iff.mp read
  obtain rfl := pure_eq_ok.mp made
  rw [texts_ofList parted.barred.list parted.barred.bare parted.whole,
    render_whole parted.barred.list parted.barred.bare parted.whole, parted.barred.bars] at tight
  have same := congrArg String.toList (List.cons.inj tight).1
  have bars : "||".toList = ['|', '|'] := by decide
  rw [String.toList_intercalate, String.toList_intercalate, Text.toList_bars, bars] at same
  have plain : ∀ a ∈ as, Plain p a := fun a ha => parted.plain (again a ha)
  have plain' : ∀ b ∈ bs, Plain p b := by
    intro b hb
    obtain ⟨t, _, read⟩ := exists_of_forall₂ pieces hb
    exact parted.plain read
  refine Text.tight_ne_spaced ?_ ?_ ?_ ?_ same.symm
  · simpa using several
  · simpa using fun a ha => (plain a ha).trimmed
  · simpa using fun a ha => (plain a ha).single
  · simpa using fun b hb => (plain' b hb).single

theorem render_barred (barred : s.Barred) (whole : s.quoting = .whole) (padded : Bool)
    (as : List α) :
    Stack.render (⟨{ s with padded }, as.map .leaf⟩ : Stack α) =
      (Delimiter.written padded .doubleBar).intercalate (as.map Element.render) := by
  have delimiter : s.delimiter = .doubleBar := by
    have bars := barred.bars
    revert bars
    cases s.delimiter <;> cases s.padded <;> decide
  rw [← delimiter]
  exact render_whole (s := { s with padded }) barred.list barred.bare whole as

theorem Parted.follows {layout : Layout} (parted : Parted k p s)
    (again : ∀ a ∈ as, p (Element.render a) = .ok a)
    (lawful : (⟨{ s with padded := layout.paddedStacks }, as.map .leaf⟩ : Stack α).Lawful)
    (bars : (Listable.toExpression
      (⟨{ s with padded := layout.paddedStacks }, as.map .leaf⟩ : Stack α)).hasBars =
        decide (1 < as.length)) :
    Follows layout k (Listable.toExpression
        (⟨{ s with padded := layout.paddedStacks }, as.map .leaf⟩ : Stack α))
      (Stack.render (⟨{ s with padded := layout.paddedStacks }, as.map .leaf⟩ : Stack α)) := by
  have plain : ∀ a ∈ as, Plain p a := fun a ha => parted.plain (again a ha)
  have sign : '"' ∉ (Delimiter.written layout.paddedStacks .doubleBar).toList := by
    cases layout.paddedStacks <;> decide
  have rendered := render_barred parted.barred parted.whole layout.paddedStacks as
  constructor
  case texts => rw [LawfulListable.texts_toExpression, Stack.texts, parted.whole]
  case written => rw [LawfulListable.render_toExpression, parted.whole]
  case unquoted =>
    intro _
    rw [rendered]
    refine Text.not_mem_intercalate sign ?_
    simpa using fun a ha => (plain a ha).unquoted
  case kept =>
    intro full valid spaced
    rw [LawfulListable.isEmpty_toExpression] at full
    rw [LawfulListable.validate_toExpression] at valid
    have full' : as ≠ [] := by
      rintro rfl
      cases full
    have kept := parted.kept again full' ⟨lawful.room, lawful.proper, lawful.distinct⟩
      ((Stack.validate_eq_ok_iff _).mpr ((Stack.validate_eq_ok_iff _).mp valid))
    rw [rendered]
    rcases spaced with padded | single
    · rw [padded]
      exact kept
    · -- one value has no bars around it, so nothing depends on the layout
      rw [bars, decide_eq_false_iff_not] at single
      obtain ⟨a, rfl⟩ : ∃ a, as = [a] := by
        have some := List.length_pos_iff.mpr full'
        exact List.length_eq_one_iff.mp (by omega)
      rw [List.map_singleton, String.intercalate_singleton] at kept ⊢
      exact kept
  case lost =>
    intro tight several f canonical
    rw [bars, decide_eq_true_iff] at several
    rw [rendered, tight]
    exact parted.lost again several canonical

/-- Values that have been pushed one after the other, those that are refused left out, are all of
the kind that is read from its written form. -/
theorem exists_again_of_pushAll {xs : List (Node α)} (flat : s.nesting = false)
    (own : s.category = .values k)
    (again : ∀ a, .leaf a ∈ xs → Element.validate a = .ok () →
      (∀ j ∈ Element.keyword a, j = k) → p (Element.render a) = .ok a) :
    ∃ as : List α, Stack.pushAll ⟨s, []⟩ xs = ⟨s, as.map .leaf⟩ ∧
      (⟨s, as.map .leaf⟩ : Stack α).Lawful ∧ ∀ a ∈ as, p (Element.render a) = .ok a := by
  obtain ⟨as, same, lawful, known⟩ := Stack.exists_leaves_of_pushAll flat xs
  refine ⟨as, same, lawful, fun a ha => ?_⟩
  have mem : Node.leaf a ∈ as.map Node.leaf := List.mem_map_of_mem ha
  have orderly := lawful.orderly
  exact again a (known a ha) (orderly.valid _ mem) (orderly.values k own _ mem)

/-- Values that have been pushed follow the layout of the list. -/
theorem follows_of_pushAll {layout : Layout} {xs : List (Node α)} (flat : s.nesting = false)
    (own : s.category = .values k) (least : s.minimum = 1)
    (parted : ∀ a, p (Element.render a) = .ok a → Parted k p s)
    (again : ∀ a, .leaf a ∈ xs → Element.validate a = .ok () →
      (∀ j ∈ Element.keyword a, j = k) → p (Element.render a) = .ok a)
    (bars : ∀ as : List α, (Listable.toExpression
      (⟨{ s with padded := layout.paddedStacks }, as.map .leaf⟩ : Stack α)).hasBars =
        decide (1 < as.length))
    (valid : (Stack.pushAll ⟨{ s with padded := layout.paddedStacks }, []⟩ xs).validate = .ok ()) :
    ∃ text, Follows layout k (Listable.toExpression
      (Stack.pushAll ⟨{ s with padded := layout.paddedStacks }, []⟩ xs)) text := by
  obtain ⟨as, same, lawful, again'⟩ :=
    exists_again_of_pushAll (s := { s with padded := layout.paddedStacks }) flat own again
  rw [same] at valid ⊢
  match as, again' with
  | [], _ =>
    have enough := ((Stack.validate_eq_ok_iff _).mp valid).1
    simp [least, Stack.size] at enough
  | a :: as, again' =>
    exact ⟨_, (parted a (again' a (by simp))).follows again' lawful (bars _)⟩

end Lists

/-! ### Filter operations -/

theorem validate_operations {s : Settings} {os : List FilterOperation} (least : s.minimum = 1)
    (full : os ≠ []) (holds : ∀ o ∈ os, ∃ fs, o.Holds fs) :
    (⟨s, os.map .leaf⟩ : Stack FilterOperation).validate = .ok () := by
  refine (Stack.validate_eq_ok_iff _).mpr ⟨?_, ?_⟩
  · have := List.length_pos_iff.mpr full
    show s.minimum ≤ (os.map Node.leaf).length
    rw [least, List.length_map]
    exact this
  · intro x hx
    obtain ⟨o, ho, rfl⟩ := List.mem_map.mp hx
    obtain ⟨fs, h⟩ := holds o ho
    exact h.validate

theorem sound_ofList_operations {list : Stack FilterOperation}
    {d : Delimiter} {os : List FilterOperation} (h : list.Operates d os) :
    (ofList list .whole).isEmpty = false ∧ (ofList list .whole).validate = .ok () := by
  have sound : ∀ o ∈ os, (value o.render).validate = .ok () := by
    intro o ho
    obtain ⟨fs, holds⟩ := h.holds o ho
    refine validate_value_eq_ok_iff.mpr ⟨?_, holds.unquoted⟩
    rw [Bool.eq_false_iff]
    intro empty
    have last := holds.getLast?
    rw [String.isEmpty_iff.mp empty] at last
    cases last
  rw [h.same]
  exact sound_ofList h.full sound (validate_operations rfl h.full h.holds)

theorem follows_operations {layout : Layout} {os : List FilterOperation}
    (holds : ∀ o ∈ os, ∃ fs, o.Holds fs) :
    Follows layout FilterOperation.theKeyword
      (.filterOperations ⟨(Stack.filterOperations layout).settings, os.map .leaf⟩)
      (",".intercalate (os.map FilterOperation.render)) := by
  -- a comma has no blanks around it in any layout
  have rendered : ∀ padded, Stack.render
      (⟨{ Stack.filterOperations.settings with padded }, os.map .leaf⟩ : Stack FilterOperation) =
      ",".intercalate (os.map FilterOperation.render) := fun padded =>
    render_whole (s := { Stack.filterOperations.settings with padded }) rfl rfl rfl os
  have unquoted : ∀ o ∈ os, '"' ∉ o.render.toList := by
    intro o ho
    obtain ⟨fs, h⟩ := holds o ho
    exact h.unquoted
  constructor
  case texts => exact congrArg (fun text => [text]) (rendered layout.paddedStacks)
  case written => exact congrArg quoted (rendered layout.paddedStacks)
  case unquoted =>
    intro _
    refine Text.not_mem_intercalate (by decide) ?_
    simpa using unquoted
  case kept =>
    intro full valid _
    have full' : os ≠ [] := by
      rintro rfl
      cases full
    have operates : Stack.Operates ⟨Stack.filterOperations.settings, os.map .leaf⟩ .comma os :=
      ⟨rfl, full', holds, .inl rfl⟩
    have read : Expression.read FilterOperation.theKeyword
        [",".intercalate (os.map FilterOperation.render)] .whole =
        .ok (.ofList ⟨Stack.filterOperations.settings, os.map .leaf⟩ .whole) := by
      rw [← rendered true]
      exact read_render_operations rfl operates
    obtain ⟨notEmpty, valid'⟩ := sound_ofList_operations operates
    refine ⟨_, canonical_operations rfl read, ?_, notEmpty, valid'⟩
    rw [texts_ofList rfl rfl rfl]
    exact congrArg (fun text => [text]) (rendered true)
  case lost =>
    intro _ bars
    cases bars

end Expression

end DirectoryAccess
