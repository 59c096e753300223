import DirectoryAccess.Digest.Blake3
import DirectoryAccess.Instruction.Basic

/-!
# Digests

The digest of a rule is the hash of its written form. A set of instructions has a digest that does
not depend on their order: the digests of its members are sorted, put one after the other, and
hashed again.
-/
namespace DirectoryAccess

/-- Thirty-two bytes. -/
abbrev Digest := Vector UInt8 32

namespace Digest

/-- Two hexadecimal digits for each byte. -/
def hex (d : Digest) : String :=
  let digit (n : Nat) : Char := "0123456789abcdef".toList.getD n '0'
  String.ofList (d.toList.flatMap (fun b => [digit (b.toNat / 16), digit (b.toNat % 16)]))

def bytes (text : String) : List UInt8 :=
  text.toUTF8.data.toList

/-- The digest of a written form by the given hash function. -/
def ofText (hash : List UInt8 → Digest) (text : String) : Digest :=
  hash (bytes text)

/-- The digests of the written forms, in the order of their bytes. -/
def members (hash : List UInt8 → Digest) (texts : List String) : List Digest :=
  (texts.map (ofText hash)).mergeSort (fun a b => a.toList ≤ b.toList)

/-- What is hashed when the digests of the written forms are hashed together. -/
def joined (hash : List UInt8 → Digest) (texts : List String) : List UInt8 :=
  (members hash texts).flatMap Vector.toList

/-- Everything that is hashed for the digest of a set of written forms. -/
def hashed (hash : List UInt8 → Digest) (texts : List String) : List (List UInt8) :=
  joined hash texts :: texts.map bytes

end Digest

/-- A hash function that can also be given its input in pieces. -/
structure Hasher (σ : Type) where
  hash : List UInt8 → Digest
  start : σ
  update : σ → List UInt8 → σ
  finish : σ → Digest
  finish_updates (pieces : List (List UInt8)) :
    finish (pieces.foldl update start) = hash pieces.flatten

/-- The pieces are kept until the end. -/
def Hasher.buffering (hash : List UInt8 → Digest) : Hasher (List UInt8) where
  hash := hash
  start := []
  update := (· ++ ·)
  finish := hash
  finish_updates pieces := by
    have joined : pieces.foldl (fun xs ys => xs ++ id ys) [] = [] ++ (pieces.map id).flatten :=
      List.foldl_append_eq_append
    rw [List.nil_append, List.map_id] at joined
    exact congrArg hash joined

namespace Stack

variable {σ : Type}

/-- The digest of the instructions as a set, by any hash function: the members are given to it one
after the other. -/
def setDigestBy (h : Hasher σ) (s : Stack Instruction) : Digest :=
  let members := Digest.members h.hash (s.leaves.map Instruction.render)
  h.finish ((members.map Vector.toList).foldl h.update h.start)

/-- Everything that is hashed for it. -/
def hashedBy (h : Hasher σ) (s : Stack Instruction) : List (List UInt8) :=
  Digest.hashed h.hash (s.leaves.map Instruction.render)

/-- The digest of the instructions as a set. -/
def setDigest (s : Stack Instruction) : Digest :=
  s.setDigestBy (.buffering Blake3.hash)

theorem setDigestBy_eq (h : Hasher σ) (s : Stack Instruction) :
    s.setDigestBy h = h.hash (Digest.joined h.hash (s.leaves.map Instruction.render)) := by
  have together := h.finish_updates
    ((Digest.members h.hash (s.leaves.map Instruction.render)).map Vector.toList)
  rw [← List.flatMap_def] at together
  exact together

end Stack

end DirectoryAccess
