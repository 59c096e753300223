/-!
# The hash function

BLAKE3 with 32 bytes of output and no key. The text is cut into chunks of 1024 bytes and these into
blocks of 64; each chunk is compressed block by block, and the chunks are the leaves of a binary
tree whose root gives the output.
-/
namespace DirectoryAccess.Blake3

/-- What is handed on from one compression to the next. -/
abbrev ChainingValue := Vector UInt32 8

/-- The words of a block, and the words that a compression works on. -/
abbrev Words := Vector UInt32 16

/-- The chaining value at the start of a chunk, and that of inner nodes. -/
def start : ChainingValue :=
  #v[0x6A09E667, 0xBB67AE85, 0x3C6EF372, 0xA54FF53A, 0x510E527F, 0x9B05688C, 0x1F83D9AB,
    0x5BE0CD19]

/-- Where each word of a block comes from for the next round. -/
def permutation : Vector (Fin 16) 16 :=
  #v[2, 6, 3, 10, 7, 0, 4, 13, 1, 11, 12, 5, 9, 14, 15, 8]

/-- The columns and then the diagonals of the state, seen as a square. -/
def quarters : List (Fin 16 × Fin 16 × Fin 16 × Fin 16) :=
  [(0, 4, 8, 12), (1, 5, 9, 13), (2, 6, 10, 14), (3, 7, 11, 15),
    (0, 5, 10, 15), (1, 6, 11, 12), (2, 7, 8, 13), (3, 4, 9, 14)]

def rotateRight (w n : UInt32) : UInt32 :=
  (w >>> n) ||| (w <<< (32 - n))

/-- Mixes two words of the block into four words of the state. -/
def mix (s : Words) (quarter : Fin 16 × Fin 16 × Fin 16 × Fin 16) (x y : UInt32) : Words :=
  let (a, b, c, d) := quarter
  let half (s : Words) (w m n : UInt32) : Words :=
    let s := s.set a (s[a] + s[b] + w)
    let s := s.set d (rotateRight (s[d] ^^^ s[a]) m)
    let s := s.set c (s[c] + s[d])
    s.set b (rotateRight (s[b] ^^^ s[c]) n)
  half (half s x 16 12) y 8 7

/-- One round: each quarter takes the next two words of the block. -/
def round (s block : Words) : Words :=
  (quarters.zipIdx).foldl
    (fun s (quarter, i) =>
      mix s quarter (block[2 * i]?.getD 0) (block[2 * i + 1]?.getD 0)) s

/-- So many rounds, the block permuted after each. -/
def rounds : Nat → Words → Words → Words
  | 0, s, _ => s
  | n + 1, s, block => rounds n (round s block) (permutation.map (fun i => block[i]))

/-- A compression that is still to be done; for the root of the tree it is done in another way. -/
structure Node where
  chaining : ChainingValue
  block : Words
  counter : UInt64
  length : UInt32
  flags : UInt32

def chunkStart : UInt32 := 1

def chunkEnd : UInt32 := 2

def inner : UInt32 := 4

def root : UInt32 := 8

namespace Node

/-- The compression, with more flags. -/
def compress (n : Node) (flags : UInt32) : ChainingValue :=
  let state : Words :=
    (n.chaining ++ #v[start[0], start[1], start[2], start[3]]) ++
      #v[n.counter.toUInt32, (n.counter >>> 32).toUInt32, n.length, n.flags ||| flags]
  let s := rounds 7 state n.block
  Vector.ofFn (fun (i : Fin 8) => s[i.val] ^^^ s[i.val + 8])

/-- The node above two others. -/
def above (left right : Node) : Node where
  chaining := start
  block := left.compress 0 ++ right.compress 0
  counter := 0
  length := 64
  flags := inner

end Node

/-- The text in pieces of the given size, the last of them perhaps shorter; the empty text is one
empty piece. -/
def pieces (size : Nat) (bytes : List UInt8) : List (List UInt8) :=
  (List.range (max 1 ((bytes.length + size - 1) / size))).map
    (fun i => (bytes.drop (size * i)).take size)

/-- The words of a block, least byte first; missing bytes are zero. -/
def words (block : List UInt8) : Words :=
  let bytes := block.toArray
  let byte (i : Nat) : UInt32 := (bytes[i]?.getD 0).toUInt32
  Vector.ofFn (fun (i : Fin 16) =>
    byte (4 * i.val) ||| (byte (4 * i.val + 1) <<< 8) ||| (byte (4 * i.val + 2) <<< 16) |||
      (byte (4 * i.val + 3) <<< 24))

/-- The last compression of a chunk, the others done; the flags are for the next block. -/
def chunkFrom (counter : UInt64) (chaining : ChainingValue) (flags : UInt32) :
    List (List UInt8) → Node
  | [] => { chaining, block := words [], counter, length := 0, flags }
  | [b] =>
    { chaining, block := words b, counter, length := b.length.toUInt32,
      flags := flags ||| chunkEnd }
  | b :: bs =>
    let node : Node := { chaining, block := words b, counter, length := b.length.toUInt32, flags }
    chunkFrom counter (node.compress 0) 0 bs

/-- The last compression of the chunk with the given number. -/
def chunk (number : Nat) (bytes : List UInt8) : Node :=
  chunkFrom number.toUInt64 start chunkStart (pieces 64 bytes)

/-- The level of the tree above a level; a node without a partner moves up as it is. -/
def levelAbove : List Node → List Node
  | a :: b :: rest => a.above b :: levelAbove rest
  | rest => rest

/-- The root above the nodes of a level, which is reached in so many steps. -/
def rootAbove : Nat → Node → List Node → Node
  | 0, first, _ => first
  | n + 1, first, others =>
    match levelAbove (first :: others) with
    | [] => first
    | node :: nodes => rootAbove n node nodes

def hash (bytes : List UInt8) : Vector UInt8 32 :=
  let leaves := (pieces 1024 bytes).zipIdx.map (fun (piece, i) => chunk i piece)
  let top := rootAbove leaves.length (leaves.headD (chunk 0 [])) leaves.tail
  let output := top.compress root
  Vector.ofFn (fun (i : Fin 32) =>
    (output[i.val / 4] >>> (8 * (i.val % 4).toUInt32)).toUInt8)

end DirectoryAccess.Blake3
