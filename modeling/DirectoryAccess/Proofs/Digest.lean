import DirectoryAccess.Digest.Basic
import DirectoryAccess.Proofs.Stack.Runs

/-!
# The digest of a set of instructions

The digests of the members are sorted before they are hashed together, so the digest of a collection
does not depend on its order. A sorted list of digests can be told from the bytes that it is put
together to, so two collections with the same digest have the same written forms, each as often as
the other, unless two of the texts that were hashed collide.
-/
namespace DirectoryAccess

/-! ### Lists of bytes -/

namespace Digest

theorem bytes_injective {s t : String} (same : bytes s = bytes t) : s = t := by
  unfold bytes at same
  have arrays : s.toUTF8.data = t.toUTF8.data := Array.toList_inj.mp same
  exact String.toByteArray_inj.mp (ByteArray.ext arrays)

/-- Digests that are put one after the other come apart again. -/
theorem eq_of_flatMap_toList {ds es : List Digest}
    (same : ds.flatMap Vector.toList = es.flatMap Vector.toList) : ds = es := by
  induction ds generalizing es with
  | nil =>
    cases es with
    | nil => rfl
    | cons e es =>
      have lengths := congrArg List.length same
      simp at lengths
      omega
  | cons d ds ih =>
    cases es with
    | nil =>
      have lengths := congrArg List.length same
      simp at lengths
    | cons e es =>
      obtain ⟨first, others⟩ := List.append_inj same (by simp)
      rw [Vector.toList_inj.mp first, ih others]

/-! ### Sorted digests -/

theorem members_perm (hash : List UInt8 → Digest) (texts : List String) :
    (members hash texts).Perm (texts.map (ofText hash)) :=
  List.mergeSort_perm _ _

theorem sorted_members (hash : List UInt8 → Digest) (texts : List String) :
    (members hash texts).Pairwise fun a b => a.toList ≤ b.toList := by
  have sorted : (members hash texts).Pairwise fun a b => decide (a.toList ≤ b.toList) = true := by
    apply List.pairwise_mergeSort
    · intro a b c hab hbc
      exact decide_eq_true (List.le_trans (of_decide_eq_true hab) (of_decide_eq_true hbc))
    · intro a b
      rw [Bool.or_eq_true, decide_eq_true_eq, decide_eq_true_eq]
      exact List.le_total a.toList b.toList
  exact sorted.imp of_decide_eq_true

/-- Sorting leaves nothing of the order. -/
theorem members_eq_iff {hash : List UInt8 → Digest} {xs ys : List String} :
    members hash xs = members hash ys ↔ (xs.map (ofText hash)).Perm (ys.map (ofText hash)) := by
  constructor
  · intro same
    have left := members_perm hash xs
    rw [same] at left
    exact left.symm.trans (members_perm hash ys)
  · intro perm
    refine List.Perm.eq_of_pairwise ?_ (sorted_members hash xs) (sorted_members hash ys) ?_
    · intro a b _ _ hab hba
      exact Vector.toList_inj.mp (List.le_antisymm hab hba)
    · exact (members_perm hash xs).trans (perm.trans (members_perm hash ys).symm)

/-! ### Collisions -/

/-- Two of the inputs are different and have the same digest. -/
def Collides (hash : List UInt8 → Digest) (inputs : List (List UInt8)) : Prop :=
  ∃ x ∈ inputs, ∃ y ∈ inputs, x ≠ y ∧ hash x = hash y

/-- A map that tells the elements of both lists apart does not hide whether these are the same but
for their order. -/
theorem perm_of_map_perm {α β : Type} {f : α → β} {xs ys : List α}
    (apart : ∀ x ∈ xs, ∀ y ∈ ys, f x = f y → x = y) (perm : (xs.map f).Perm (ys.map f)) :
    xs.Perm ys := by
  induction xs generalizing ys with
  | nil =>
    have empty : ys = [] := by simpa using perm.symm
    rw [empty]
  | cons x xs ih =>
    obtain ⟨first, others⟩ := List.forall_mem_cons.mp apart
    have mem : f x ∈ ys.map f := perm.subset (by simp)
    obtain ⟨y, hy, same⟩ := List.mem_map.mp mem
    obtain rfl := first y hy same.symm
    obtain ⟨front, back, rfl⟩ := List.append_of_mem hy
    have moved : (f x :: xs.map f).Perm (f x :: (front ++ back).map f) := by
      have middle : (front ++ x :: back).Perm (x :: (front ++ back)) := List.perm_middle
      exact perm.trans (middle.map f)
    have kept : front ++ back ⊆ front ++ x :: back :=
      ((List.sublist_cons_self x back).append_left front).subset
    have rest := ih (fun z hz y hy => others z hz y (kept hy)) moved.cons_inv
    exact (rest.cons x).trans List.perm_middle.symm

theorem joined_perm {hash : List UInt8 → Digest} {xs ys : List String} (perm : xs.Perm ys) :
    joined hash xs = joined hash ys := by
  unfold joined
  rw [members_eq_iff.mpr (perm.map (ofText hash))]

/-- Where nothing collides, the digest of a set tells its written forms. -/
theorem perm_of_hash_joined_eq {hash : List UInt8 → Digest} {xs ys : List String}
    (none : ¬ Collides hash (hashed hash xs ++ hashed hash ys))
    (same : hash (joined hash xs) = hash (joined hash ys)) : xs.Perm ys := by
  have apart : ∀ a ∈ hashed hash xs, ∀ b ∈ hashed hash ys, hash a = hash b → a = b := by
    intro a ha b hb digests
    by_contra differ
    exact none ⟨a, List.mem_append_left _ ha, b, List.mem_append_right _ hb, differ, digests⟩
  have joined := apart _ List.mem_cons_self _ List.mem_cons_self same
  have perm := members_eq_iff.mp (eq_of_flatMap_toList joined)
  refine perm_of_map_perm ?_ perm
  intro x hx y hy digests
  refine bytes_injective (apart _ ?_ _ ?_ digests)
  · exact List.mem_cons_of_mem _ (List.mem_map_of_mem hx)
  · exact List.mem_cons_of_mem _ (List.mem_map_of_mem hy)

end Digest

/-! ### Collections of instructions -/

namespace Stack

variable {σ : Type}

theorem setDigest_eq_setDigestBy {h : Hasher σ} (own : h.hash = Blake3.hash)
    (s : Stack Instruction) : s.setDigest = s.setDigestBy h := by
  unfold setDigest
  rw [setDigestBy_eq, setDigestBy_eq, own]
  rfl

/-- In a collection of instructions all elements are instructions. -/
theorem elements_run_instructions (ops : List (Operation Instruction)) :
    (run instructions ops).elements = (run instructions ops).leaves.map .leaf := by
  have lawful : (run instructions ops).Lawful := lawful_run instructions.settings ops
  have same : (run instructions ops).settings = instructions.settings := (keeps_run _ ops).settings
  exact elements_eq_leaves lawful (by rw [same]; rfl)

theorem render_elements_run_instructions (ops : List (Operation Instruction)) :
    (run instructions ops).elements.map Node.render =
      (run instructions ops).leaves.map Instruction.render := by
  rw [elements_run_instructions, List.map_map]
  refine List.map_congr_left fun i _ => ?_
  simp only [Function.comp_apply, Node.render, Element.render]

/-- Collections of instructions that are changed in any way have the same digest where they are the
same but for the order. Where they have the same digest, they have the same written forms, each as
often in one as in the other, unless two of the inputs that were hashed collide. -/
theorem set_digest_identifies_written_forms (h : Hasher σ)
    (ops ops' : List (Operation Instruction)) :
    let s := run instructions ops
    let t := run instructions ops'
    (h.hash = Blake3.hash → s.setDigest = s.setDigestBy h) ∧
    (s.elements.Perm t.elements → s.setDigestBy h = t.setDigestBy h) ∧
    (s.setDigestBy h = t.setDigestBy h →
      (s.elements.map Node.render).Perm (t.elements.map Node.render) ∨
        Digest.Collides h.hash (s.hashedBy h ++ t.hashedBy h)) := by
  intro s t
  refine ⟨fun own => setDigest_eq_setDigestBy own s, ?_, ?_⟩
  · intro perm
    have texts : (s.leaves.map Instruction.render).Perm (t.leaves.map Instruction.render) :=
      (perm.filterMap Node.leaf?).map Instruction.render
    rw [setDigestBy_eq, setDigestBy_eq, Digest.joined_perm texts]
  · intro same
    rw [setDigestBy_eq, setDigestBy_eq] at same
    rw [render_elements_run_instructions, render_elements_run_instructions]
    by_cases collides : Digest.Collides h.hash (s.hashedBy h ++ t.hashedBy h)
    · exact .inr collides
    · exact .inl (Digest.perm_of_hash_joined_eq collides same)

/-- The same two instructions in another order, one of them taken out and put back. -/
theorem set_digest_of_reordered_instructions :
    let rule (least : String) : BindRule :=
      .leaf (.new (.bind .ssf) .greaterOrEqual (.value least))
    let reading : Instruction :=
      ⟨"one", targetRules {}, ofClause ⟨.ofRights .allow [.read], rule "56"⟩⟩
    let writing : Instruction :=
      ⟨"two", targetRules {}, ofClause ⟨.ofRights .deny [.write], rule "0"⟩⟩
    let s := run instructions [.push (.leaf reading), .push (.leaf writing)]
    let t := run instructions
      [.tryPush (.leaf reading), .adding (.leaf writing), .remove 0, .push (.leaf reading)]
    let h := Hasher.buffering Blake3.hash
    s.elements ≠ t.elements ∧ s.elements.Perm t.elements ∧ s.setDigest = t.setDigest ∧
      ((s.elements.map Node.render).Perm (t.elements.map Node.render) ∨
        Digest.Collides h.hash (s.hashedBy h ++ t.hashedBy h)) := by
  intro rule reading writing s t h
  have perm : s.elements.Perm t.elements := by decide +kernel
  obtain ⟨own, order, texts⟩ := set_digest_identifies_written_forms h
    [.push (.leaf reading), .push (.leaf writing)]
    [.tryPush (.leaf reading), .adding (.leaf writing), .remove 0, .push (.leaf reading)]
  obtain ⟨own', _⟩ := set_digest_identifies_written_forms h
    [.tryPush (.leaf reading), .adding (.leaf writing), .remove 0, .push (.leaf reading)] []
  refine ⟨by decide +kernel, perm, ?_, texts (order perm)⟩
  exact (own rfl).trans ((order perm).trans (own' rfl).symm)

end Stack

end DirectoryAccess
