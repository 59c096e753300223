/-!
# Sets of members of an enumeration

A set of values of a type with finitely many, listed values is a mask with one bit for each value.
Two sets with the same members are equal.
-/
namespace DirectoryAccess

/-- A type whose values are listed, each once. -/
class Enumerated (α : Type) [DecidableEq α] where
  all : List α
  mem_all : ∀ a, a ∈ all
  nodup_all : all.Nodup

namespace Enumerated

variable {α : Type} [DecidableEq α] [Enumerated α]

/-- The place of a value in the list, counted from zero. -/
def index (a : α) : Nat :=
  (all : List α).idxOf a

theorem index_lt (a : α) : index a < (all : List α).length :=
  List.idxOf_lt_length_iff.mpr (mem_all a)

theorem get_index (a : α) : (all : List α).get ⟨index a, index_lt a⟩ = a :=
  List.getElem_idxOf (index_lt a)

theorem index_inj {a b : α} : index a = index b ↔ a = b := by
  refine ⟨fun h => ?_, fun h => by rw [h]⟩
  rw [← get_index a, ← get_index b]
  simp only [h]

theorem index_getElem {i : Nat} (h : i < (all : List α).length) :
    index (all : List α)[i] = i :=
  (List.getElem_inj nodup_all).mp (get_index _)

end Enumerated

/-- A set of values of an enumeration. -/
structure EnumSet (α : Type) [DecidableEq α] [Enumerated α] where
  /-- One bit for each value, the first of the list lowest. -/
  mask : BitVec (Enumerated.all : List α).length := 0

namespace EnumSet

variable {α : Type} [DecidableEq α] [Enumerated α]

instance : DecidableEq (EnumSet α)
  | ⟨m⟩, ⟨n⟩ => decidable_of_iff (m = n) (by simp)

def contains (s : EnumSet α) (a : α) : Bool :=
  s.mask.getLsbD (Enumerated.index a)

def insert (s : EnumSet α) (a : α) : EnumSet α :=
  ⟨s.mask ||| BitVec.twoPow _ (Enumerated.index a)⟩

def erase (s : EnumSet α) (a : α) : EnumSet α :=
  ⟨s.mask &&& ~~~ BitVec.twoPow _ (Enumerated.index a)⟩

def union (s t : EnumSet α) : EnumSet α :=
  ⟨s.mask ||| t.mask⟩

def ofList (values : List α) : EnumSet α :=
  values.foldl insert {}

/-- The members in the order of the enumeration. -/
def toList (s : EnumSet α) : List α :=
  Enumerated.all.filter s.contains

def isEmpty (s : EnumSet α) : Bool :=
  s.toList.isEmpty

/-- Every member of the first set is one of the second. -/
def subset (s t : EnumSet α) : Bool :=
  s.toList.all t.contains

@[ext] theorem ext {s t : EnumSet α} (h : ∀ a, s.contains a = t.contains a) : s = t := by
  rcases s with ⟨m⟩
  rcases t with ⟨n⟩
  congr 1
  apply BitVec.eq_of_getLsbD_eq
  intro i hi
  have := h (Enumerated.all : List α)[i]
  rwa [contains, contains, Enumerated.index_getElem hi] at this

@[simp] theorem contains_empty (a : α) : (({} : EnumSet α)).contains a = false := by
  simp [contains]

@[simp] theorem contains_insert (s : EnumSet α) (a b : α) :
    (s.insert a).contains b = (s.contains b || a == b) := by
  have := Enumerated.index_lt b
  by_cases h : a = b
  · subst h; simp [insert, contains, this]
  · have ne : Enumerated.index a ≠ Enumerated.index b := fun e => h (Enumerated.index_inj.mp e)
    simp [insert, contains, BitVec.getLsbD_twoPow, ne, h]

@[simp] theorem contains_erase (s : EnumSet α) (a b : α) :
    (s.erase a).contains b = (s.contains b && a != b) := by
  have := Enumerated.index_lt b
  by_cases h : a = b
  · subst h; simp [erase, contains, this]
  · have ne : Enumerated.index b ≠ Enumerated.index a :=
      fun e => h (Enumerated.index_inj.mp e).symm
    have differ : (a != b) = true := by simp [h]
    simp [erase, contains, ne, differ, this]

@[simp] theorem contains_union (s t : EnumSet α) (a : α) :
    (s.union t).contains a = (s.contains a || t.contains a) := by
  simp [union, contains]

theorem contains_foldl_insert (values : List α) (s : EnumSet α) (a : α) :
    (values.foldl insert s).contains a = (s.contains a || values.contains a) := by
  induction values generalizing s with
  | nil => simp
  | cons b r ih =>
    rw [List.foldl_cons, ih, contains_insert, List.contains_cons, Bool.or_assoc, BEq.comm]

@[simp] theorem contains_ofList (values : List α) (a : α) :
    (ofList values).contains a = values.contains a := by
  rw [ofList, contains_foldl_insert, contains_empty, Bool.false_or]

theorem mem_toList {s : EnumSet α} {a : α} : a ∈ s.toList ↔ s.contains a = true := by
  simp [toList, Enumerated.mem_all]

end EnumSet

end DirectoryAccess
