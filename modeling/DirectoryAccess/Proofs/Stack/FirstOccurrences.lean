import DirectoryAccess.Instruction.Basic
import DirectoryAccess.Proofs.Stack.Runs
import Mathlib.Data.List.Induction
import Mathlib.Data.List.Perm.Subperm

/-!
# First occurrences

Values are pushed one after the other, and refused ones are left out. What stays can be told from
the list alone: of the values that fit, each that is not like one before it. It makes no difference
which of those before it have been refused themselves, because what they were refused for is still
there and is alike, too.

Target rules differ in their keywords, of which there are no more than the stack has room for, so
that the room never decides. Clauses and instructions differ in writing.
-/
namespace DirectoryAccess

/-! ### The first of those that are alike -/

section Firsts

variable {α : Type} {alike : α → α → Bool}

/-- The members that are not like any member before them. -/
def firsts (alike : α → α → Bool) (xs : List α) : List α :=
  (xs.zipIdx.filter fun p => (xs.take p.2).all fun y => !alike y p.1).map Prod.fst

theorem firsts_append_singleton (xs : List α) (x : α) :
    firsts alike (xs ++ [x]) = firsts alike xs ++ if xs.any (alike · x) then [] else [x] := by
  have earlier : ∀ p ∈ xs.zipIdx, (xs ++ [x]).take p.2 = xs.take p.2 := by
    rintro ⟨y, i⟩ mem
    have inside : i < xs.length := by
      have := List.snd_lt_of_mem_zipIdx mem
      omega
    exact List.take_append_of_le_length (Nat.le_of_lt inside)
  have others : (xs.zipIdx.filter fun p => ((xs ++ [x]).take p.2).all fun y => !alike y p.1) =
      xs.zipIdx.filter fun p => (xs.take p.2).all fun y => !alike y p.1 :=
    List.filter_congr fun p mem => by rw [earlier p mem]
  unfold firsts
  rw [List.zipIdx_append, List.filter_append, List.map_append, others]
  congr 1
  cases h : xs.any (alike · x) with
  | true => simp_all
  | false => simp_all

/-- Where nothing is alike, all members are the first. -/
theorem firsts_of_never (xs : List α) : firsts (fun _ _ => false) xs = xs := by
  induction xs using List.reverseRecOn with
  | nil => rfl
  | append_singleton xs x ih =>
    rw [firsts_append_singleton, ih]
    simp

/-- What is like one of the members is like the first of those that are alike. -/
theorem any_firsts (trans : ∀ a b c, alike a b = true → alike b c = true → alike a c = true)
    (xs : List α) (x : α) : (firsts alike xs).any (alike · x) = xs.any (alike · x) := by
  induction xs using List.reverseRecOn generalizing x with
  | nil => rfl
  | append_singleton xs w ih =>
    rw [firsts_append_singleton, List.any_append, List.any_append, ih x]
    cases before : xs.any (alike · w) with
    | false => rfl
    | true =>
      -- The last member is not kept, but one before it is like it.
      obtain ⟨y, mem, like⟩ := List.any_eq_true.mp before
      have covered : alike w x = true → xs.any (alike · x) = true := fun also =>
        List.any_eq_true.mpr ⟨y, mem, trans y w x like also⟩
      cases last : alike w x with
      | false => simp [last]
      | true => simp [covered last]

end Firsts

variable {α : Type} [Element α]

/-- How a stack of these settings chooses among values: those may stand in it together that fit, and
of which no two are alike. -/
structure Settings.Chooses (s : Settings) (fits : α → Bool) (alike : α → α → Bool) : Prop where
  admits : ∀ as : List α, s.Admits (as.map .leaf) ↔
    (∀ a ∈ as, fits a = true) ∧ as.Pairwise (fun b a => alike b a = false)
  trans : ∀ a b c, alike a b = true → alike b c = true → alike a c = true

namespace Stack

variable {s : Settings} {fits : α → Bool} {alike : α → α → Bool}

theorem lawful_append_iff (chooses : s.Chooses fits alike) {kept : List α}
    (lawful : Lawful ⟨s, kept.map .leaf⟩) (a : α) :
    Lawful ⟨s, (kept ++ [a]).map .leaf⟩ ↔ fits a = true ∧ kept.any (alike · a) = false := by
  obtain ⟨fit, apart⟩ := (chooses.admits kept).mp lawful
  refine (chooses.admits (kept ++ [a])).trans ?_
  simp only [List.mem_append, List.mem_singleton, List.pairwise_append, List.any_eq_false,
    Bool.not_eq_true]
  constructor
  · rintro ⟨fits, _, _, differ⟩
    exact ⟨fits a (.inr rfl), fun b hb => differ b hb a rfl⟩
  · rintro ⟨fits, differ⟩
    refine ⟨?_, apart, List.pairwise_singleton _ a, ?_⟩
    · rintro b (hb | rfl)
      · exact fit b hb
      · exact fits
    · rintro b hb _ rfl
      exact differ b hb

theorem push_leaf (chooses : s.Chooses fits alike) {kept : List α}
    (lawful : Lawful ⟨s, kept.map .leaf⟩) (a : α) :
    push ⟨s, kept.map .leaf⟩ (.leaf a) =
      ⟨s, (kept ++ if fits a && !kept.any (alike · a) then [a] else []).map .leaf⟩ := by
  have pushed : push? ⟨s, kept.map .leaf⟩ (.leaf a) = .ok ⟨s, (kept ++ [a]).map .leaf⟩ ↔
      (fits a && !kept.any (alike · a)) = true := by
    rw [push?_eq_ok_iff lawful, lawful_append_iff chooses lawful]
    simp
  rw [push_eq]
  cases outcome : push? ⟨s, kept.map .leaf⟩ (.leaf a) with
  | ok t =>
    have added : t = ⟨s, (kept ++ [a]).map .leaf⟩ := by
      rw [elements_of_push? outcome, List.map_append, List.map_singleton]
    rw [if_pos (pushed.mp (added ▸ outcome))]
    exact added
  | error e =>
    have refused : ¬ (fits a && !kept.any (alike · a)) = true := by
      intro accepted
      rw [pushed.mpr accepted] at outcome
      cases outcome
    rw [if_neg refused, List.append_nil]

/-- Pushing leaves the first of the values that fit and are alike. -/
theorem pushAll_leaves (chooses : s.Chooses fits alike) (as : List α) :
    pushAll ⟨s, []⟩ (as.map .leaf) = ⟨s, (firsts alike (as.filter fits)).map .leaf⟩ := by
  induction as using List.reverseRecOn with
  | nil => rfl
  | append_singleton as a ih =>
    have lawful := (keeps_pushAll ⟨s, []⟩ (as.map .leaf)).lawful Settings.admits_nil
    rw [ih] at lawful
    have last : pushAll ⟨s, []⟩ ((as ++ [a]).map .leaf) =
        (pushAll ⟨s, []⟩ (as.map .leaf)).push (.leaf a) := by
      unfold pushAll
      rw [List.map_append, List.foldl_append]
      rfl
    -- The last value is compared with what stays, which is as good as with all before it that fit.
    rw [last, ih, push_leaf chooses lawful, any_firsts chooses.trans, List.filter_append]
    cases fit : fits a with
    | false => simp [fit]
    | true =>
      rw [Bool.true_and, List.filter_cons_of_pos fit, List.filter_nil, firsts_append_singleton]
      cases (as.filter fits).any (alike · a) <;> rfl

end Stack

/-! ### Values without a keyword -/

namespace Element

def isValid (a : α) : Bool :=
  decide (validate a = .ok ())

def writtenAlike (a b : α) : Bool :=
  Text.sameWord (render a) (render b)

end Element

namespace Settings

variable {s : Settings}

theorem chooses_of_byText (byText : s.uniqueness = .byText) (capacity : s.capacity = none)
    (keyless : ∀ a : α, Element.keyword a = none) :
    s.Chooses (Element.isValid : α → Bool) Element.writtenAlike where
  admits as := by
    rw [admits_leaves_of_byText byText, capacity, List.pairwise_map]
    simp only [suits_leaf_iff (keyless _), Element.isValid, decide_eq_true_eq,
      Element.writtenAlike]
    simp
  trans _ _ _ first second := Text.sameWord_trans first second

theorem chooses_of_unrestricted (unrestricted : s.uniqueness = .unrestricted)
    (capacity : s.capacity = none) (keyless : ∀ a : α, Element.keyword a = none) :
    s.Chooses (Element.isValid : α → Bool) fun _ _ => false where
  admits as := by
    have apart : as.Pairwise fun _ _ => false = false := List.pairwise_of_forall fun _ _ => rfl
    rw [admits_iff_of_unrestricted capacity unrestricted, List.forall_mem_map, and_iff_left apart]
    simp only [suits_leaf_iff (keyless _), Element.isValid, decide_eq_true_eq]
  trans _ _ _ first _ := first

end Settings

/-! ### Target rules, which differ in their keywords -/

namespace Condition

/-- The condition is valid, and it is about the entry that is accessed. -/
def isTargetRule (c : Condition) : Bool :=
  Element.isValid c && c.keyword.any Keyword.isTarget

def sameKeyword (c d : Condition) : Bool :=
  c.keyword == d.keyword

theorem isTargetRule_iff {c : Condition} :
    c.isTargetRule = true ↔ c.validate = .ok () ∧ ∃ k, c.keyword = some (.target k) := by
  unfold isTargetRule Element.isValid
  rw [Bool.and_eq_true, decide_eq_true_eq, Option.any_eq_true]
  refine and_congr_right fun _ => ?_
  constructor
  · rintro ⟨k, keyword, target⟩
    cases k with
    | target k => exact ⟨k, keyword⟩
    | bind k => cases target
  · rintro ⟨k, keyword⟩
    exact ⟨.target k, keyword, rfl⟩

theorem exists_keyword_of_validate {c : Condition} (h : c.validate = .ok ()) :
    ∃ k, c.keyword = some k := by
  unfold validate at h
  cases keyword : c.keyword with
  | none => simp [keyword] at h
  | some k => exact ⟨k, rfl⟩

/-- Conditions with different target keywords are no more than there are such keywords. -/
theorem length_le_of_targets {cs : List Condition}
    (targets : ∀ c ∈ cs, ∃ k, c.keyword = some (.target k))
    (distinct : cs.Pairwise (fun d c => sameKeyword d c = false)) :
    cs.length ≤ TargetKeyword.all.length := by
  have different : (cs.map keyword).Nodup := by
    refine List.pairwise_map.mpr (distinct.imp fun differ => ?_)
    simpa [sameKeyword] using differ
  have among : cs.map keyword ⊆ TargetKeyword.all.map (fun k => some (.target k)) := by
    intro k hk
    obtain ⟨c, hc, rfl⟩ := List.mem_map.mp hk
    obtain ⟨k, keyword⟩ := targets c hc
    exact List.mem_map.mpr ⟨k, k.mem_all, keyword.symm⟩
  have bound := (List.subperm_of_subset different among).length_le
  rwa [List.length_map, List.length_map] at bound

end Condition

namespace Stack

open Condition Element

variable {layout : Layout}

theorem suits_targetRules_iff {c : Condition} :
    (targetRules layout).settings.Suits (.leaf c) ↔ c.isTargetRule = true := by
  rw [isTargetRule_iff]
  refine (and_iff_right rfl).trans (and_congr_right fun valid => ?_)
  obtain ⟨k, keyword⟩ := exists_keyword_of_validate valid
  have own : Node.keyword (.leaf c) = some k := keyword
  rw [Settings.checkPlace_eq_ok_iff, own, keyword]
  cases k with
  | target k => simp [targetRules, Category.misplaced?, Keyword.isTarget]
  | bind k => simp [targetRules, Category.misplaced?, Keyword.isTarget]

theorem apart_targetRules_iff {d c : Condition} {k : Keyword} (keyword : d.keyword = some k) :
    (targetRules layout).settings.Apart (.leaf d) (.leaf c) ↔ sameKeyword d c = false := by
  have first : Node.keyword (.leaf d) = some k := keyword
  have second : Node.keyword (.leaf c) = c.keyword := rfl
  rw [Settings.apart_iff_of_byKeyword rfl, first, second, sameKeyword, keyword, beq_eq_false_iff_ne]
  simp [eq_comm]

theorem chooses_targetRules (layout : Layout) :
    (targetRules layout).settings.Chooses isTargetRule sameKeyword where
  admits cs := by
    have apart (targets : ∀ c ∈ cs, ∃ k, c.keyword = some (.target k)) :
        (cs.map .leaf).Pairwise (targetRules layout).settings.Apart ↔
          cs.Pairwise (fun d c => sameKeyword d c = false) := by
      rw [List.pairwise_map]
      refine List.Pairwise.iff_of_mem fun hd _ => ?_
      obtain ⟨k, keyword⟩ := targets _ hd
      exact apart_targetRules_iff keyword
    have keywords (suit : ∀ c ∈ cs, c.isTargetRule = true) :
        ∀ c ∈ cs, ∃ k, c.keyword = some (.target k) :=
      fun c hc => (isTargetRule_iff.mp (suit c hc)).2
    constructor
    · rintro ⟨_, proper, distinct⟩
      have suit : ∀ c ∈ cs, c.isTargetRule = true := fun c hc =>
        suits_targetRules_iff.mp (proper _ (List.mem_map_of_mem hc))
      exact ⟨suit, (apart (keywords suit)).mp distinct⟩
    · rintro ⟨suit, distinct⟩
      refine ⟨?_, ?_, (apart (keywords suit)).mpr distinct⟩
      · rintro n ⟨⟩
        rw [List.length_map]
        exact length_le_of_targets (keywords suit) distinct
      · exact List.forall_mem_map.mpr fun c hc => suits_targetRules_iff.mpr (suit c hc)
  trans _ _ _ first second := by
    simp only [sameKeyword, beq_iff_eq] at *
    exact first.trans second

/-- Where no condition has the target keyword yet, there is room for one that has. -/
theorem checkRoom_targetRules {kept : List Condition} {c : Condition} {k : TargetKeyword}
    (lawful : Lawful ⟨(targetRules layout).settings, kept.map .leaf⟩)
    (keyword : c.keyword = some (.target k))
    (unique : (targetRules layout).settings.checkUnique (kept.map .leaf) (.leaf c) = .ok ()) :
    (targetRules layout).settings.checkRoom kept.length = .ok () := by
  obtain ⟨suit, distinct⟩ := ((chooses_targetRules layout).admits kept).mp lawful
  have targets : ∀ d ∈ kept, ∃ j, d.keyword = some (.target j) :=
    fun d hd => (isTargetRule_iff.mp (suit d hd)).2
  have new : ∀ d ∈ kept, sameKeyword d c = false := by
    intro d hd
    obtain ⟨j, own⟩ := targets d hd
    exact (apart_targetRules_iff own).mp
      (Settings.checkUnique_eq_ok_iff.mp unique _ (List.mem_map_of_mem hd))
  have joined : (kept ++ [c]).length ≤ TargetKeyword.all.length := by
    have apart : (kept ++ [c]).Pairwise (fun d c => sameKeyword d c = false) :=
      List.pairwise_append.mpr ⟨distinct, List.pairwise_singleton _ c, by simpa using new⟩
    refine length_le_of_targets (fun d hd => ?_) apart
    rcases List.mem_append.mp hd with hd | hd
    · exact targets d hd
    · exact ⟨k, List.mem_singleton.mp hd ▸ keyword⟩
  rw [List.length_append] at joined
  exact Settings.checkRoom_eq_ok_iff.mpr fun n hn => by cases hn; exact joined

/-! ### Pushing onto an empty collection -/

/-- What stays where values are pushed one after the other: of conditions, the first valid one of
each target keyword, so that there always is room for a target keyword that is not there yet; of
clauses and of instructions, the valid ones that are not written like a valid one before them. -/
theorem pushAll_eq_firsts (layout : Layout) (cs : List Condition) (ps : List Clause)
    (is : List Instruction) :
    (targetRules layout).pushAll (cs.map .leaf) =
      ⟨(targetRules layout).settings, (firsts sameKeyword (cs.filter isTargetRule)).map .leaf⟩ ∧
    (∀ c k, c.keyword = some (.target k) →
      (targetRules layout).settings.checkUnique
        ((targetRules layout).pushAll (cs.map .leaf)).elements (.leaf c) = .ok () →
      (targetRules layout).settings.checkRoom
        ((targetRules layout).pushAll (cs.map .leaf)).size = .ok ()) ∧
    clauses.pushAll (ps.map .leaf) =
      ⟨clauses.settings, (firsts writtenAlike (ps.filter isValid)).map .leaf⟩ ∧
    instructions.pushAll (is.map .leaf) =
      ⟨instructions.settings, (firsts writtenAlike (is.filter isValid)).map .leaf⟩ := by
  have targets := pushAll_leaves (chooses_targetRules layout) cs
  refine ⟨targets, ?_, ?_, ?_⟩
  · intro c k keyword unique
    have lawful := (keeps_pushAll (targetRules layout) (cs.map .leaf)).lawful Settings.admits_nil
    rw [show (targetRules layout).pushAll (cs.map .leaf) = _ from targets] at unique lawful ⊢
    have room := checkRoom_targetRules lawful keyword unique
    rwa [size, List.length_map]
  · exact pushAll_leaves (Settings.chooses_of_byText rfl rfl fun _ => rfl) ps
  · exact pushAll_leaves (Settings.chooses_of_byText rfl rfl fun _ => rfl) is

end Stack

end DirectoryAccess
