import DirectoryAccess.Instruction.Reading
import DirectoryAccess.Proofs.Checks
import DirectoryAccess.Proofs.Grammar.InstructionReading

/-!
# Permissions are read from what they are written as

The words for a set of rights make up that set again, so a permission that grants or withholds is
read from its own written form.
-/
namespace DirectoryAccess

open Grammar

namespace Grammar.RightWord

/-- The spelling of a word in the list of a permission. -/
def text : RightWord → String
  | all => "all"
  | none => "none"
  | right r => r.name

theorem spells_text (w : RightWord) : SpellsRight w w.text.toList := by
  rcases w with _ | _ | r
  · exact ⟨by decide, List.all_eq_true.mp (by decide), by decide⟩
  · exact ⟨by decide, List.all_eq_true.mp (by decide), by decide⟩
  · refine ⟨?_, List.all_eq_true.mp ?_, ?_⟩
    · cases r <;> decide
    · cases r <;> decide
    · cases r <;> decide

end Grammar.RightWord

namespace Permission

/-- The words that are written for a set of rights. -/
def rightWords (rights : EnumSet Right) : List RightWord :=
  if common.subset rights then
    .all :: (if rights.contains .proxy then [.right .proxy] else [])
  else if rights.isEmpty then [.none]
  else rights.toList.map .right

theorem rightWords_text (rights : EnumSet Right) :
    (rightWords rights).map RightWord.text = words rights := by
  unfold rightWords words
  split
  · split <;> rfl
  split
  · rfl
  · rw [List.map_map]
    rfl

theorem rightWords_ne_nil (rights : EnumSet Right) : rightWords rights ≠ [] := by
  unfold rightWords
  split
  · simp
  split
  · simp
  next full =>
    intro empty
    unfold EnumSet.isEmpty at full
    rw [List.map_eq_nil_iff.mp empty] at full
    exact full rfl

/-- The word for all rights covers every right but one. -/
theorem contains_common (r : Right) : common.contains r = (r != .proxy) := by
  cases r <;> decide

theorem contains_of_subset {s t : EnumSet Right} (h : s.subset t = true) {r : Right}
    (mem : s.contains r = true) : t.contains r = true :=
  List.all_eq_true.mp h r (EnumSet.mem_toList.mpr mem)

/-- Of a set that covers what the word for all rights covers, the word says everything but whether
the one right that is left is in it. -/
theorem union_common {rights : EnumSet Right} (covered : common.subset rights = true)
    {named : List Right} (own : ∀ r, named.contains r = (r == .proxy && rights.contains r)) :
    (EnumSet.ofList named).union common = rights := by
  have others : ∀ r : Right, r ≠ .proxy → rights.contains r = true := by
    intro r other
    refine contains_of_subset covered ?_
    rw [contains_common]
    simpa using other
  ext r
  rw [EnumSet.contains_union, EnumSet.contains_ofList, own, contains_common]
  by_cases proxy : r = .proxy
  · simp [proxy]
  · simp [proxy, others r proxy]

theorem ofList_nil_of_isEmpty {rights : EnumSet Right} (empty : rights.isEmpty = true) :
    EnumSet.ofList [] = rights := by
  ext r
  have absent : rights.contains r = false := by
    rw [Bool.eq_false_iff]
    intro mem
    have listed := EnumSet.mem_toList.mpr mem
    unfold EnumSet.isEmpty at empty
    rw [List.isEmpty_iff.mp empty] at listed
    cases listed
  simp [absent]

theorem permissionOf_rights (d : Disposition) (rights : EnumSet Right) :
    permissionOf d (rights.toList.map .right) = ⟨some d, rights⟩ := by
  have named : (rights.toList.map RightWord.right).filterMap RightWord.right? =
      rights.toList := by
    rw [List.filterMap_map]
    exact List.filterMap_some
  have noAll : (rights.toList.map RightWord.right).contains .all = false := by
    rw [Bool.eq_false_iff]
    intro mem
    obtain ⟨r, _, same⟩ := List.mem_map.mp (List.contains_iff_mem.mp mem)
    cases same
  have whole : EnumSet.ofList rights.toList = rights := by
    ext r
    rw [EnumSet.contains_ofList, Bool.eq_iff_iff, List.contains_iff_mem, EnumSet.mem_toList]
  unfold permissionOf
  dsimp only
  rw [noAll, named, if_neg (by simp)]
  show Permission.mk (some d) (EnumSet.ofList rights.toList) = _
  rw [whole]

/-- The words for a set of rights make up the set. -/
theorem permissionOf_rightWords (d : Disposition) (rights : EnumSet Right) :
    permissionOf d (rightWords rights) = ⟨some d, rights⟩ := by
  unfold rightWords
  split
  · next covered =>
    cases proxy : rights.contains .proxy with
    | true =>
      have own : ∀ r, [Right.proxy].contains r = (r == .proxy && rights.contains r) := by
        intro r
        cases r <;> simp [proxy]
      have union := union_common covered own
      show Permission.mk (some d) ((EnumSet.ofList [.proxy]).union common) = _
      rw [union]
    | false =>
      have own : ∀ r, [].contains r = (r == Right.proxy && rights.contains r) := by
        intro r
        cases r <;> simp [proxy]
      have union := union_common covered own
      show Permission.mk (some d) ((EnumSet.ofList []).union common) = _
      rw [union]
  split
  · next _ empty =>
    show Permission.mk (some d) (EnumSet.ofList []) = _
    rw [ofList_nil_of_isEmpty empty]
  · exact permissionOf_rights d rights

/-- What a permission is written as is a written form of it. -/
theorem writes_render {p : Permission} {d : Disposition} (h : p.disposition = some d) :
    WritesPermission p p.render.toList := by
  obtain ⟨_, rights⟩ := p
  obtain rfl : _ = some d := h
  have listed : Reader.Listed (WritesSign ",") SpellsRight (rightWords rights)
      (",".intercalate (words rights)).toList := by
    have pieces : Reader.Listed (WritesSign ",") SpellsRight ((rightWords rights).map id)
        ([','].intercalate ((rightWords rights).map (fun w => w.text.toList))) :=
      Reader.listed_intercalate ⟨[], [], by decide, isGap_nil, isGap_nil⟩ (rightWords_ne_nil rights)
        fun w _ => w.spells_text
    have comma : ",".toList = [','] := by decide
    rw [List.map_id] at pieces
    rw [String.toList_intercalate, comma, ← rightWords_text, List.map_map]
    exact pieces
  have opening : "(".toList = ['('] := by decide
  have closing : ")".toList = [')'] := by decide
  have split : (render ⟨some d, rights⟩).toList =
      d.name.toList ++ ([] ++ ('(' :: ([] ++ ((",".intercalate (words rights)).toList ++
        ([] ++ [')']))))) := by
    simp [render, opening, closing]
  rw [split, ← permissionOf_rightWords]
  exact .intro (spells_self d.name) isGap_nil isGap_nil listed isGap_nil

theorem exists_disposition {p : Permission} (h : p.validate = .ok ()) :
    ∃ d, p.disposition = some d := by
  unfold validate isVoid at h
  cases disposition : p.disposition with
  | some d => exact ⟨d, rfl⟩
  | none =>
    rw [disposition] at h
    cases h

/-- Every permission that grants or withholds is read from its written form. -/
theorem read_render {p : Permission} (h : p.validate = .ok ()) :
    Permission.read p.render = .ok p := by
  obtain ⟨d, disposition⟩ := exists_disposition h
  have parsed : wholePermission.readAll p.render.toList = .ok p :=
    wholePermission_readAll_iff.mpr
      ⟨[], p.render.toList, [], by simp, isGap_nil, isGap_nil, writes_render disposition⟩
  exact mapError_eq_ok.mpr (readText_eq_ok.mpr parsed)

end Permission

/-- What is written as a permission grants or withholds. -/
theorem Grammar.WritesPermission.validate {p : Permission} {cs : List Char}
    (h : WritesPermission p cs) : p.validate = .ok () := by
  cases h with
  | intro =>
    unfold permissionOf
    dsimp only
    split <;> rfl

end DirectoryAccess
