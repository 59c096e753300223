import DirectoryAccess.Proofs.Condition.ListReading

/-!
# Lists of operations are read back

A list of filter operations is read from one pair of quotes around all of it. Quoted one by one its
operations have a comma or a semicolon between the quotes, where only bars may stand, so such a list
is refused as soon as it has two operations.
-/
namespace DirectoryAccess

open Grammar

/-- The filter operations in an expression; a single value is read as a text of operations. -/
def Expression.operations : Expression → Option (List FilterOperation)
  | .value text => (Stack.readOperations text).toOption.map Stack.leaves
  | .filterOperations list => some list.leaves
  | _ => none

namespace Stack

theorem Operates.operations_ofList {list : Stack FilterOperation} {d : Delimiter}
    {os : List FilterOperation} (h : list.Operates d os) :
    (Expression.ofList list .whole).operations = some os := by
  have leaves : list.leaves = os := by
    rw [h.same, leaves_of_leaves]
  rcases Expression.ofList_operates h with ⟨_, _, value⟩ | kept
  · rw [value, Expression.operations, h.read_render]
    exact congrArg some leaves
  · rw [kept]
    exact congrArg some leaves

/-- A new list for the layout, filled with the operations and then given its delimiter and its
quotes. -/
def operationList (l : Layout) (d : Delimiter) (q : Quoting) (os : List FilterOperation) :
    Stack FilterOperation :=
  (((filterOperations l).pushAll (os.map .leaf)).setDelimiter d).setQuoting q

section Built

variable {l layout : Layout} {d : Delimiter} {q : Quoting} {os : List FilterOperation}

theorem operationList_eq (holds : ∀ o ∈ os, ∃ fs, o.Holds fs) : operationList l d q os =
    ⟨{ operationSettings d with padded := l.paddedStacks, quoting := q }, os.map .leaf⟩ := by
  have lawful : (⟨(filterOperations l).settings, os.map .leaf⟩ : Stack FilterOperation).Lawful := by
    have admits := operates_lawful (d := .comma) holds
    exact ⟨admits.room, admits.proper, admits.distinct⟩
  have pushed := pushAll_of_pushAll?
    ((pushAll?_eq_ok_iff (s := filterOperations l) Settings.admits_nil).mpr ⟨rfl, lawful⟩)
  unfold operationList
  rw [pushed]
  rfl

theorem condition_operationList (full : os ≠ []) (holds : ∀ o ∈ os, ∃ fs, o.Holds fs) :
    (operationList l d q os).toOperand.condition .equal layout =
      .new FilterOperation.theKeyword .equal (.filterOperations (operationList l d q os))
        layout := by
  have valid : (operationList l d q os).validate = .ok () := by
    rw [operationList_eq holds]
    exact Expression.validate_operations rfl full holds
  refine Operand.condition_eq_new layout ?_ (toOption_map_eq_some_iff.mpr ⟨valid, rfl⟩) rfl
  rw [operationList_eq holds]
  rfl

/-- Neither of the two delimiters has blanks around it, so the layout of a list does not show. -/
theorem render_operationList (holds : ∀ o ∈ os, ∃ fs, o.Holds fs)
    (sign : d = .comma ∨ d = .semicolon) :
    (Expression.filterOperations (operationList l d q os)).render =
      match q with
      | .whole => quoted (d.sign.intercalate (os.map FilterOperation.render))
      | .each => d.sign.intercalate (os.map (fun o => quoted o.render)) := by
  have bare : d.written l.paddedStacks = d.sign := by
    rcases sign with rfl | rfl <;> rfl
  rw [operationList_eq holds, ← bare]
  cases q with
  | whole => exact congrArg quoted (render_whole rfl rfl rfl os)
  | each => exact render_leaves rfl rfl os

/-! ### One pair of quotes -/

/-- Where one pair of quotes is around the whole list, the text between them is that of a list that
is read as it is written. -/
theorem exists_operates (full : os ≠ []) (holds : ∀ o ∈ os, ∃ fs, o.Holds fs)
    (sign : d = .comma ∨ d = .semicolon) (together : q = .whole ∨ os.length = 1) :
    ∃ (list : Stack FilterOperation) (e : Delimiter), list.Operates e os ∧
      (Expression.filterOperations (operationList l d q os)).render = quoted list.render := by
  rw [render_operationList holds sign]
  by_cases one : os.length = 1
  · -- a single operation has no delimiter behind it, and it is always read with a comma
    obtain ⟨o, rfl⟩ := List.length_eq_one_iff.mp one
    have operates : Operates ⟨operationSettings .comma, [o].map .leaf⟩ .comma [o] :=
      ⟨rfl, full, holds, .inl rfl⟩
    refine ⟨_, _, operates, ?_⟩
    rw [operates.render_eq]
    cases q <;> simp only [List.map_singleton, String.intercalate_singleton]
  · obtain rfl := together.resolve_right one
    have several : 1 < os.length := by
      have := List.length_pos_iff.mpr full
      omega
    have operates : Operates ⟨operationSettings d, os.map .leaf⟩ d os :=
      ⟨rfl, full, holds, sign.imp_right fun semicolon => ⟨semicolon, several⟩⟩
    exact ⟨_, _, operates, by rw [operates.render_eq]⟩

theorem read_together (l layout : Layout) (full : os ≠ []) (holds : ∀ o ∈ os, ∃ fs, o.Holds fs)
    (sign : d = .comma ∨ d = .semicolon) (together : q = .whole ∨ os.length = 1) :
    ∃ c e, Condition.read ((operationList l d q os).toOperand.condition .equal layout).render =
      .ok c ∧ c.expression = some e ∧ e.operations = some os := by
  obtain ⟨list, _, operates, written⟩ := exists_operates (l := l) full holds sign together
  have values : WritesValues [list.render]
      (Expression.filterOperations (operationList l d q os)).render.toList := by
    rw [written]
    exact ConditionTree.writesValues_single operates.unquoted
  obtain ⟨notEmpty, valid⟩ := Expression.sound_ofList_operations operates
  rw [condition_operationList full holds]
  refine ⟨⟨some FilterOperation.theKeyword, some .equal, some (.ofList list .whole), true,
    layout.paddedRules⟩, _, ?_, rfl, operates.operations_ofList⟩
  apply (Condition.read_new values).mpr
  exact ⟨_, Expression.read_render_operations rfl operates, rfl, notEmpty, valid, rfl⟩

/-! ### Quotes around each operation -/

/-- A comparison in parentheses, taken apart somewhere behind its operator. -/
theorem toList_enclosed_comparison (k : Keyword) (op : Comparison) (padded : Bool)
    {body front : String} {rest : List Char} (split : body.toList = front.toList ++ rest) :
    ∃ g after, Reader.IsGap g ∧
      (enclosed true padded (ConditionTree.comparisonText k op padded body)).toList =
        '(' :: (g ++ ((ConditionTree.comparisonText k op padded front).toList ++
          (rest ++ after))) := by
  cases padded with
  | true =>
    have opening : "( ".toList = ['(', ' '] := by decide
    refine ⟨[' '], " )".toList, isGap_blank, ?_⟩
    simp [enclosed, ConditionTree.comparisonText, opening, split]
  | false =>
    have opening : "(".toList = ['('] := by decide
    refine ⟨[], ")".toList, isGap_nil, ?_⟩
    simp [enclosed, ConditionTree.comparisonText, opening, split]

/-- Between the quotes of the first operation and those of the second stands a delimiter, and
neither bars nor the end of the parentheses. -/
theorem not_read_each (holds : ∀ o ∈ os, ∃ fs, o.Holds fs) (sign : d = .comma ∨ d = .semicolon)
    (several : 1 < os.length) (c : Condition) :
    Condition.read ((operationList l d .each os).toOperand.condition .equal layout).render ≠
      .ok c := by
  intro read
  match os, several, holds with
  | o :: p :: os, _, holds =>
    obtain ⟨s, single, solid, clear, apart⟩ : ∃ s, d.sign.toList = [s] ∧ Text.isGap s = false ∧
        s.toLower ∉ ['|'] ∧ s ≠ ')' := by
      rcases sign with rfl | rfl
      · exact ⟨',', by decide, by decide, by decide, by decide⟩
      · exact ⟨';', by decide, by decide, by decide, by decide⟩
    obtain ⟨rest, split⟩ : ∃ rest, (Expression.filterOperations
        (operationList l d .each (o :: p :: os))).render.toList =
          (quoted o.render).toList ++ s :: rest := by
      rw [render_operationList holds sign]
      dsimp only
      rw [List.map_cons, List.map_cons, String.intercalate_cons_cons, String.toList_append,
        String.toList_append, single, List.append_assoc]
      exact ⟨_, rfl⟩
    obtain ⟨fs, first⟩ := holds o (by simp)
    have written : (ConditionTree.of FilterOperation.theKeyword .equal [o.render]
        layout.paddedRules).Written (ConditionTree.comparisonText FilterOperation.theKeyword .equal
          layout.paddedRules (quoted o.render)).toList :=
      (ConditionTree.spelled_of_values (ConditionTree.writesValues_single first.unquoted)).written
    obtain ⟨g, after, gap, text⟩ := toList_enclosed_comparison FilterOperation.theKeyword .equal
      layout.paddedRules split
    rw [condition_operationList (by simp) holds] at read
    obtain ⟨⟨t, b⟩, parsed, _⟩ := bind_eq_ok.mp read
    have whole := readText_eq_ok.mp (mapError_eq_ok.mp parsed)
    replace whole : wholeCondition.readAll (enclosed true layout.paddedRules
        (ConditionTree.comparisonText FilterOperation.theKeyword .equal layout.paddedRules
          (Expression.filterOperations (operationList l d .each (o :: p :: os))).render)).toList =
        .ok (t, b) := whole
    rw [text] at whole
    obtain ⟨e, f, hgap, closed⟩ := closed_of_wholeCondition gap written
      ((clear_cons solid).mpr clear) whole
    cases e with
    | nil => exact apart (List.cons.inj closed).1
    | cons x e =>
      obtain ⟨rfl, _⟩ := List.cons.inj closed
      rw [hgap s (by simp)] at solid
      cases solid

end Built

/-! ### Either quoting -/

/-- The text of a condition with a list of operations is accepted just when one pair of quotes is
around all of them, and what is read has the same operations in the same order. -/
theorem operations_read_iff_together (l layout : Layout) {d : Delimiter} (q : Quoting)
    {os : List FilterOperation} (sign : d = .comma ∨ d = .semicolon) (full : os ≠ [])
    (made : ∀ o ∈ os, o.Made ∧ o.validate = .ok ()) :
    (operationList l d q os).elements = os.map .leaf ∧
      ((∃ c, Condition.read
          ((operationList l d q os).toOperand.condition .equal layout).render = .ok c) ↔
        q = .whole ∨ os.length = 1) ∧
      ∀ c, Condition.read
          ((operationList l d q os).toOperand.condition .equal layout).render = .ok c →
        ∃ e, c.expression = some e ∧ e.operations = some os := by
  have holds : ∀ o ∈ os, ∃ fs, o.Holds fs := by
    intro o ho
    obtain ⟨⟨op, terms, rfl⟩, valid⟩ := made o ho
    exact FilterOperation.holds_of_terms valid
  have together : (∃ c, Condition.read
      ((operationList l d q os).toOperand.condition .equal layout).render = .ok c) →
        q = .whole ∨ os.length = 1 := by
    rintro ⟨c, read⟩
    by_contra apart
    obtain ⟨each, several⟩ := not_or.mp apart
    obtain rfl : q = .each := by
      cases q with
      | whole => exact absurd rfl each
      | each => rfl
    have := List.length_pos_iff.mpr full
    exact not_read_each holds sign (by omega) c read
  refine ⟨?_, ⟨together, ?_⟩, ?_⟩
  · rw [operationList_eq holds]
  · intro together'
    obtain ⟨c, _, read, _⟩ := read_together l layout full holds sign together'
    exact ⟨c, read⟩
  · intro c read
    obtain ⟨c', e, read', expression, same⟩ :=
      read_together l layout full holds sign (together ⟨c, read⟩)
    obtain rfl := Except.ok.inj (read.symm.trans read')
    exact ⟨e, expression, same⟩

/-- Two operations between one pair of quotes, with a semicolon between them. -/
theorem operations_read_with_semicolon :
    let os : List FilterOperation := [.ofFilters .add [.ofTexts "cn;lang-en" "(cn=a,b;c)"],
      .ofFilters .delete [.ofTexts "sn" "(sn=*)", .ofTexts "mail" "(|(mail=a)(mail=b))"]]
    let list := operationList { paddedStacks := false } .semicolon .whole os
    (list.toOperand.condition .equal).render =
        "( targetattrfilters = \"add=cn;lang-en:(cn=a,b;c);" ++
        "delete=sn:(sn=*) && mail:(|(mail=a)(mail=b))\" )" ∧
      ∃ c e, Condition.read (list.toOperand.condition .equal).render = .ok c ∧
        c.expression = some e ∧ e.operations = some os := by
  intro os list
  have made : ∀ o ∈ os, o.Made ∧ o.validate = .ok () := by
    intro o ho
    rcases List.mem_pair.mp ho with rfl | rfl
    · exact ⟨⟨.add, [("cn;lang-en", "(cn=a,b;c)")], rfl⟩, by decide +kernel⟩
    · exact ⟨⟨.delete, [("sn", "(sn=*)"), ("mail", "(|(mail=a)(mail=b))")], rfl⟩,
        by decide +kernel⟩
  obtain ⟨_, accepted, same⟩ := operations_read_iff_together { paddedStacks := false } {} .whole
    (d := .semicolon) (.inr rfl) (by simp [os]) made
  obtain ⟨c, read⟩ := accepted.mpr (.inl rfl)
  obtain ⟨e, expression, operations⟩ := same c read
  exact ⟨by decide +kernel, c, e, read, expression, operations⟩

/-- Two operations in quotes of their own are refused. -/
theorem quoted_operations_not_read :
    let os : List FilterOperation :=
      [.ofFilters .add [.ofTexts "cn" "(cn=*)"], .ofFilters .delete [.ofTexts "sn" "(sn=*)"]]
    let list := operationList {} .comma .each os
    (∀ o ∈ os, o.Made ∧ o.validate = .ok ()) ∧ list.leaves = os ∧
      (list.toOperand.condition .equal).render =
        "( targetattrfilters = \"add=cn:(cn=*)\",\"delete=sn:(sn=*)\" )" ∧
      ¬ ∃ c, Condition.read (list.toOperand.condition .equal).render = .ok c := by
  intro os list
  have written : (list.toOperand.condition .equal).render =
      "( targetattrfilters = \"add=cn:(cn=*)\",\"delete=sn:(sn=*)\" )" := by
    decide +kernel
  refine ⟨?_, by decide +kernel, written, ?_⟩
  · intro o ho
    rcases List.mem_pair.mp ho with rfl | rfl
    · exact ⟨⟨.add, [("cn", "(cn=*)")], rfl⟩, by decide +kernel⟩
    · exact ⟨⟨.delete, [("sn", "(sn=*)")], rfl⟩, by decide +kernel⟩
  · rintro ⟨c, read⟩
    have refused : (Condition.read
        "( targetattrfilters = \"add=cn:(cn=*)\",\"delete=sn:(sn=*)\" )").toBool = false := by
      decide +kernel
    rw [written] at read
    rw [read] at refused
    cases refused

end Stack

end DirectoryAccess
