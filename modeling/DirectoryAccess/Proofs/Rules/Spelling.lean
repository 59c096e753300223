import DirectoryAccess.Proofs.Rules.Trees

/-!
# Every spelling of a bind rule is read as the rule

A rule can be spelled in many ways: its words in any case of letters, and gaps of any length where
gaps may stand. A spelling follows the tree and knows nothing of the three levels of the grammar.
The grammar reads every spelling of a tree of the right shape as this tree, so that no two such
trees have a spelling in common. The text of a tree is one of its spellings.
-/
namespace DirectoryAccess.Grammar

open Reader

/-! ### Spellings -/

/-- The text is the word of the connective between two gaps, which cannot be left out. -/
def WritesJoint (c : Connective) (cs : List Char) : Prop :=
  ∃ g w h, cs = g ++ (w ++ h) ∧ (IsGap g ∧ g ≠ []) ∧ Spells c.text w ∧ IsGap h ∧ h ≠ []

/-- A member of a chain with its spelling, and with what is written in front of it. -/
structure FurtherMember where
  joint : List Char
  tree : RuleTree
  text : List Char

/-- The spellings of a tree. A gap behind the opening parenthesis makes a group padded, as one
behind the keyword makes a condition padded. -/
inductive RuleTree.Spelled : RuleTree → List Char → Prop
  | condition {t : ConditionTree} {cs : List Char} (h : t.Spelled cs) : Spelled (.condition t) cs
  | group {t : RuleTree} {g h cs : List Char} (before : IsGap g) (after : IsGap h)
    (inner : Spelled t cs) :
    Spelled (.group (!g.isEmpty) t) ('(' :: (g ++ (cs ++ (h ++ [')']))))
  | not {t : RuleTree} {w g cs : List Char} (word : Spells "NOT" w) (gap : IsGap g)
    (apart : g ≠ []) (inner : Spelled t cs) :
    Spelled (.not t) (w ++ (g ++ cs))
  | chain {c : Connective} {t : RuleTree} {cs : List Char} {ms : List FurtherMember}
    (first : Spelled t cs) (joints : ∀ m ∈ ms, WritesJoint c m.joint)
    (members : ∀ m ∈ ms, Spelled m.tree m.text) :
    Spelled (c.join (t :: ms.map FurtherMember.tree))
      (cs ++ ms.flatMap (fun m => m.joint ++ m.text))

theorem RuleTree.Spelled.pair {c : Connective} {t u : RuleTree} {cs joint ds : List Char}
    (first : t.Spelled cs) (between : WritesJoint c joint) (second : u.Spelled ds) :
    (c.join [t, u]).Spelled (cs ++ (joint ++ ds)) := by
  have joints : ∀ m ∈ [(⟨joint, u, ds⟩ : FurtherMember)], WritesJoint c m.joint :=
    List.forall_mem_singleton.mpr between
  have members : ∀ m ∈ [(⟨joint, u, ds⟩ : FurtherMember)], m.tree.Spelled m.text :=
    List.forall_mem_singleton.mpr second
  simpa using RuleTree.Spelled.chain first joints members

/-! ### The levels of a spelling -/

/-- The text is a written form of the rule at each level of the grammar at which the rule can
stand. -/
structure RuleTree.WrittenAtLevels (t : RuleTree) (cs : List Char) : Prop where
  rule : (Phrase.series .or t).Written cs
  disjunct : t.isDisjunction = false → (Phrase.series .and t).Written cs
  member : t.isMember = true → (Phrase.unit t).Written cs

namespace RuleTree.WrittenAtLevels

/-- A phrase of a lower level is one of each higher level. -/
theorem of_unit {t : RuleTree} {cs : List Char} (h : (Phrase.unit t).Written cs) :
    t.WrittenAtLevels cs where
  rule := .alone (c := .or) (.alone (c := .and) h)
  disjunct _ := .alone (c := .and) h
  member _ := h

theorem of_series {c : Connective} {ts : List RuleTree} {cs : List Char}
    (h : (Phrase.series c (c.join ts)).Written cs) : (c.join ts).WrittenAtLevels cs := by
  cases c with
  | and => exact ⟨.alone (c := .or) h, fun _ => h, nofun⟩
  | or => exact ⟨h, nofun, nofun⟩

theorem part {c : Connective} {t : RuleTree} {cs : List Char} (h : t.WrittenAtLevels cs)
    (takes : c.takes t = true) : (c.part t).Written cs := by
  cases c with
  | and => exact h.member takes
  | or => exact h.disjunct (by simpa [Connective.takes] using takes)

end RuleTree.WrittenAtLevels

/-- Behind a gap that is not empty no word goes on. -/
theorem ends_of_isGap {g cs : List Char} (hg : IsGap g) (full : g ≠ []) :
    Ends isWordChar (g ++ cs) := by
  obtain ⟨c, r, rfl⟩ := List.exists_cons_of_ne_nil full
  exact ends_cons.mpr (isWordChar_of_isGap (hg c (by simp)))

theorem written_further {c : Connective} {ms : List FurtherMember}
    (joints : ∀ m ∈ ms, WritesJoint c m.joint)
    (members : ∀ m ∈ ms, (c.part m.tree).Written m.text) :
    (Phrase.further c (ms.map FurtherMember.tree)).Written
      (ms.flatMap (fun m => m.joint ++ m.text)) := by
  induction ms with
  | nil => exact .nil
  | cons m ms ih =>
    obtain ⟨⟨g, w, h, joint, ⟨before, _⟩, word, after, full⟩, joints'⟩ :=
      List.forall_mem_cons.mp joints
    obtain ⟨member, members'⟩ := List.forall_mem_cons.mp members
    rw [List.flatMap_cons, joint]
    simp only [List.append_assoc]
    exact .cons before word after (ends_of_isGap after full) member (ih joints' members')

theorem RuleTree.Spelled.levels {t : RuleTree} {cs : List Char} (h : t.Spelled cs)
    (formed : t.Formed (fun _ => True)) : t.WrittenAtLevels cs := by
  -- The shape of the tree says at which level each part stands.
  induction h with
  | condition h => exact .of_unit (.condition h.written)
  | group before after _ ih =>
    exact .of_unit (.group before after (ih formed.inner_of_group).rule)
  | not word gap apart _ ih =>
    obtain ⟨member, inner⟩ := formed.inner_of_not
    exact .of_unit (.not word gap (ends_of_isGap gap apart) ((ih inner).member member))
  | @chain c t cs ms _ joints _ ihFirst ihMembers =>
    obtain ⟨several, takes, all⟩ := formed_join_iff.mp formed
    obtain ⟨takesFirst, takesOthers⟩ := List.forall_mem_cons.mp takes
    obtain ⟨first, others⟩ := List.forall_mem_cons.mp all
    have members : ∀ m ∈ ms, (c.part m.tree).Written m.text := by
      intro m hm
      have mem : m.tree ∈ ms.map FurtherMember.tree := List.mem_map_of_mem hm
      exact (ihMembers m hm (others _ mem)).part (takesOthers _ mem)
    have further : ms.map FurtherMember.tree ≠ [] := by
      intro none
      rw [none] at several
      simp at several
    exact .of_series (.joined further ((ihFirst first).part takesFirst)
      (written_further joints members))

/-! ### Reading a spelling -/

theorem RuleTree.Spelled.readAll {t : RuleTree} {cs g h : List Char} (spelled : t.Spelled cs)
    (formed : t.Formed (fun _ => True)) (before : IsGap g) (after : IsGap h) :
    wholeRule.readAll (g ++ (cs ++ h)) = .ok t :=
  wholeRule_readAll_iff.mpr ⟨g, cs, h, rfl, before, after, (spelled.levels formed).rule⟩

/-- No two trees of the right shape have a spelling in common. -/
theorem RuleTree.Spelled.unique {t u : RuleTree} {cs : List Char} (ht : t.Spelled cs)
    (hu : u.Spelled cs) (formedLeft : t.Formed (fun _ => True))
    (formedRight : u.Formed (fun _ => True)) : t = u := by
  have left := ht.readAll formedLeft isGap_nil isGap_nil
  have right := hu.readAll formedRight isGap_nil isGap_nil
  exact Except.ok.inj (left.symm.trans right)

theorem ConditionTree.quoting_eq_each_iff (t : ConditionTree) :
    t.quoting = .each ↔ 1 < t.values.length := by
  rw [t.quoting_eq, Quoting.ofCount]
  split
  · next several => exact ⟨fun _ => several, fun _ => rfl⟩
  · next single => exact ⟨nofun, fun several => absurd several single⟩

/-- Every spelling of a tree of the right shape is read as this tree, with gaps in front of it and
behind it; and the values of a condition have quotes of their own just when they are several. -/
theorem RuleTree.readAll_spelling {t : RuleTree} {cs g h : List Char}
    (formed : t.Formed ConditionTree.Quotable) (spelled : t.Spelled cs) (before : IsGap g)
    (after : IsGap h) :
    wholeRule.readAll (g ++ (cs ++ h)) = .ok t ∧
      ∀ c ∈ t.conditions, c.quoting = .each ↔ 1 < c.values.length :=
  ⟨spelled.readAll (formed.mono fun _ _ => trivial) before after,
    fun c _ => c.quoting_eq_each_iff⟩

/-- A negated group between words in mixed case, with a value that looks like part of a rule. -/
theorem RuleTree.readAll_spelling_negated_group :
    let user : ConditionTree := .of (.bind .userDn) .equal ["ldap:///a", "b (or) c"] true
    let address : ConditionTree := .of (.bind .ip) .unequal ["x"] false
    let strength : ConditionTree := .of (.bind .ssf) .greaterOrEqual ["AND"] false
    let tree : RuleTree :=
      .and [.condition user, .not (.group true (.or [.condition address, .condition strength]))]
    wholeRule.readAll ("\tUserDN =\n\"ldap:///a\"||\"b (or) c\" AnD  NoT\t" ++
      "(  iP!=\"x\" oR\r\nSSF>=\"AND\") ").toList = .ok tree ∧
      ∀ c ∈ tree.conditions, c.quoting = .each ↔ 1 < c.values.length := by
  intro user address strength tree
  let either : RuleTree := .or [.condition address, .condition strength]
  have quotable : user.Quotable ∧ address.Quotable ∧ strength.Quotable :=
    ⟨⟨by decide, by decide⟩, ⟨by decide, by decide⟩, ⟨by decide, by decide⟩⟩
  have formedEither : either.Formed ConditionTree.Quotable := by
    refine RuleTree.Formed.chain (c := .or) (by decide) (by decide) ?_
    simpa using ⟨.condition quotable.2.1, .condition quotable.2.2⟩
  have formed : tree.Formed ConditionTree.Quotable := by
    refine RuleTree.Formed.chain (c := .and) (by simp) (by decide) ?_
    simpa using ⟨.condition quotable.1, .not rfl (.group formedEither)⟩
  have values : ∀ t : ConditionTree, t.Quotable →
      WritesValues t.values (['|', '|'].intercalate (t.values.map (fun v => (quoted v).toList))) :=
    fun t h => ConditionTree.writesValues_sign ⟨[], [], by decide, isGap_nil, isGap_nil⟩ h.full
      h.unquoted
  have users : user.Spelled _ :=
    .intro (w := "UserDN".toList) (g := [' ']) (h := ['\n']) (.inl (by decide)) isGap_blank
      (by decide) (values user quotable.1)
  have addresses : address.Spelled _ :=
    .intro (w := "iP".toList) (.inl (by decide)) isGap_nil isGap_nil (values address quotable.2.1)
  have strengths : strength.Spelled _ :=
    .intro (w := "SSF".toList) (.inl (by decide)) isGap_nil isGap_nil (values strength quotable.2.2)
  have orWord : WritesJoint .or [' ', 'o', 'R', '\r', '\n'] :=
    ⟨[' '], ['o', 'R'], ['\r', '\n'], by decide⟩
  have andWord : WritesJoint .and [' ', 'A', 'n', 'D', ' ', ' '] :=
    ⟨[' '], ['A', 'n', 'D'], [' ', ' '], by decide⟩
  have spelledEither : either.Spelled _ :=
    .pair (c := .or) (.condition addresses) orWord (.condition strengths)
  have negation : (RuleTree.not (.group true either)).Spelled _ :=
    .not (w := "NoT".toList) (g := ['\t']) (by decide) (by decide) (by decide)
      (.group (g := [' ', ' ']) (by decide) isGap_nil spelledEither)
  have spelled : tree.Spelled _ := .pair (c := .and) (.condition users) andWord negation
  obtain ⟨read, quoting⟩ := RuleTree.readAll_spelling (g := ['\t']) (h := [' ']) formed spelled
    (by decide) isGap_blank
  refine ⟨Eq.trans (congrArg wholeRule.readAll ?_) read, quoting⟩
  decide

/-! ### The text of a tree is one of its spellings -/

theorem writesJoint_joint (c : Connective) : WritesJoint c c.joint.toList :=
  ⟨[' '], c.text.toList, [' '], c.toList_joint, ⟨isGap_blank, by simp⟩, spells_self c.text,
    isGap_blank, by simp⟩

namespace RuleTree

theorem spelled_group {padded : Bool} {t : RuleTree} (h : t.Spelled t.text.toList) :
    (RuleTree.group padded t).Spelled (RuleTree.group padded t).text.toList := by
  cases padded with
  | true =>
    have opening : "( ".toList = ['(', ' '] := by decide
    have closing : " )".toList = [' ', ')'] := by decide
    have split : (RuleTree.group true t).text.toList
        = '(' :: ([' '] ++ (t.text.toList ++ ([' '] ++ [')']))) := by
      simp [RuleTree.text, enclosed, opening, closing]
    rw [split]
    exact .group isGap_blank isGap_blank h
  | false =>
    have opening : "(".toList = ['('] := by decide
    have closing : ")".toList = [')'] := by decide
    have split : (RuleTree.group false t).text.toList
        = '(' :: ([] ++ (t.text.toList ++ ([] ++ [')']))) := by
      simp [RuleTree.text, enclosed, opening, closing]
    rw [split]
    exact .group isGap_nil isGap_nil h

theorem spelled_not {t : RuleTree} (h : t.Spelled t.text.toList) :
    (RuleTree.not t).Spelled (RuleTree.not t).text.toList := by
  have word : "NOT ".toList = "NOT".toList ++ [' '] := by decide
  have split : (RuleTree.not t).text.toList = "NOT".toList ++ ([' '] ++ t.text.toList) := by
    rw [RuleTree.text, String.toList_append, word, List.append_assoc]
  rw [split]
  exact .not (spells_self "NOT") isGap_blank (by simp) h

theorem spelled_join {c : Connective} {ts : List RuleTree} (full : ts ≠ [])
    (h : ∀ t ∈ ts, t.Spelled t.text.toList) : (c.join ts).Spelled (c.join ts).text.toList := by
  cases ts with
  | nil => exact absurd rfl full
  | cons t ts =>
    obtain ⟨first, others⟩ := List.forall_mem_cons.mp h
    let ms : List FurtherMember := ts.map fun u => ⟨c.joint.toList, u, u.text.toList⟩
    have joints : ∀ m ∈ ms, WritesJoint c m.joint := by
      simpa [ms] using fun _ _ => writesJoint_joint c
    have members : ∀ m ∈ ms, m.tree.Spelled m.text := by
      simpa [ms] using others
    have spelled := Spelled.chain first joints members
    rw [c.text_join, String.toList_intercalate, List.map_cons, List.map_cons, intercalate_cons]
    simpa [ms, List.flatMap_map, List.map_map, Function.comp_def] using spelled

theorem Formed.spelled_text {t : RuleTree} (h : t.Formed ConditionTree.Quotable) :
    t.Spelled t.text.toList := by
  induction h with
  | condition h => exact .condition h.spelled_text
  | group _ ih => exact spelled_group ih
  | chain several _ _ ih =>
    refine spelled_join ?_ ih
    rintro rfl
    simp at several
  | not _ _ ih => exact spelled_not ih

theorem Formed.written {t : RuleTree} (h : t.Formed ConditionTree.Quotable) :
    (Phrase.series .or t).Written t.text.toList :=
  (h.spelled_text.levels (h.mono fun _ _ => trivial)).rule

end RuleTree

end DirectoryAccess.Grammar
