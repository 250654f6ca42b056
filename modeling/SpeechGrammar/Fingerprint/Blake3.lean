set_option autoImplicit false

/-!
# The hash function BLAKE3

The input is cut into chunks of 1024 bytes and these into blocks of 64. The blocks of a chunk
are compressed in turn, and the chunks are combined in pairs, level by level, until one node is
left. The last compression of that node is marked as the root and gives the 32 bytes of the
hash.
-/

namespace SpeechGrammar.Blake3

/-! ## Compression -/

/-- A column of the four by four state. -/
structure Column where
  a : UInt32
  b : UInt32
  c : UInt32
  d : UInt32

/-- Rotate a word to the right. -/
def rotateRight (x : UInt32) (n : UInt32) : UInt32 := (x >>> n) ||| (x <<< (32 - n))

/-- Mix two message words into a column. -/
def Column.mix (k : Column) (x y : UInt32) : Column :=
  let a := k.a + k.b + x
  let d := rotateRight (k.d ^^^ a) 16
  let c := k.c + d
  let b := rotateRight (k.b ^^^ c) 12
  let a := a + b + y
  let d := rotateRight (d ^^^ a) 8
  let c := c + d
  let b := rotateRight (b ^^^ c) 7
  ⟨a, b, c, d⟩

/-- The state of a compression, as four columns. -/
structure State where
  k0 : Column
  k1 : Column
  k2 : Column
  k3 : Column

/-- The word of a message block at a place. -/
def word (block : Array UInt32) (i : Nat) : UInt32 := block.getD i 0

/-- One round: the columns are mixed, then the diagonals. -/
def State.round (s : State) (m : Array UInt32) : State :=
  let k0 := s.k0.mix (word m 0) (word m 1)
  let k1 := s.k1.mix (word m 2) (word m 3)
  let k2 := s.k2.mix (word m 4) (word m 5)
  let k3 := s.k3.mix (word m 6) (word m 7)
  let d0 := Column.mix ⟨k0.a, k1.b, k2.c, k3.d⟩ (word m 8) (word m 9)
  let d1 := Column.mix ⟨k1.a, k2.b, k3.c, k0.d⟩ (word m 10) (word m 11)
  let d2 := Column.mix ⟨k2.a, k3.b, k0.c, k1.d⟩ (word m 12) (word m 13)
  let d3 := Column.mix ⟨k3.a, k0.b, k1.c, k2.d⟩ (word m 14) (word m 15)
  ⟨⟨d0.a, d3.b, d2.c, d1.d⟩, ⟨d1.a, d0.b, d3.c, d2.d⟩, ⟨d2.a, d1.b, d0.c, d3.d⟩,
    ⟨d3.a, d2.b, d1.c, d0.d⟩⟩

/-- The order in which a round takes the words of the round before. -/
def permutation : List Nat := [2, 6, 3, 10, 7, 0, 4, 13, 1, 11, 12, 5, 9, 14, 15, 8]

/-- The message block of the next round. -/
def permute (m : Array UInt32) : Array UInt32 := (permutation.map (word m)).toArray

/-- A number of rounds. -/
def State.rounds : Nat → State → Array UInt32 → State
  | 0, s, _ => s
  | n + 1, s, m => State.rounds n (s.round m) (permute m)

/-- The initial chaining value. -/
def initialValue : Array UInt32 :=
  #[0x6a09e667, 0xbb67ae85, 0x3c6ef372, 0xa54ff53a, 0x510e527f, 0x9b05688c, 0x1f83d9ab,
    0x5be0cd19]

/-- What a last compression takes: a chaining value, a block with its length and position, and
the marks that say what it is. -/
structure Node where
  chaining : Array UInt32
  block : Array UInt32
  counter : UInt64
  length : UInt32
  marks : UInt32

/-- The chaining value that a node is compressed into. -/
def Node.compress (n : Node) (root : Bool) : Array UInt32 :=
  let h := word n.chaining
  let iv := word initialValue
  let marks := if root then n.marks ||| 8 else n.marks
  let s := State.rounds 7
    ⟨⟨h 0, h 4, iv 0, n.counter.toUInt32⟩, ⟨h 1, h 5, iv 1, (n.counter >>> 32).toUInt32⟩,
      ⟨h 2, h 6, iv 2, n.length⟩, ⟨h 3, h 7, iv 3, marks⟩⟩ n.block
  #[s.k0.a ^^^ s.k0.c, s.k1.a ^^^ s.k1.c, s.k2.a ^^^ s.k2.c, s.k3.a ^^^ s.k3.c,
    s.k0.b ^^^ s.k0.d, s.k1.b ^^^ s.k1.d, s.k2.b ^^^ s.k2.d, s.k3.b ^^^ s.k3.d]

/-! ## Chunks -/

/-- Cut a list into pieces of `n + 1`; the last one may be shorter. There is at least one. -/
def pieces {α : Type} (n : Nat) (xs : List α) : List (List α) :=
  if xs.length ≤ n + 1 then [xs] else xs.take (n + 1) :: pieces n (xs.drop (n + 1))
termination_by xs.length
decreasing_by
  rw [List.length_drop]
  omega

/-- The word that four bytes write, the least byte first. -/
def wordOfBytes : List UInt8 → UInt32
  | [] => 0
  | b :: bs => b.toUInt32 ||| (wordOfBytes bs <<< 8)

/-- The words of a block; missing bytes are zero. -/
def wordsOfBlock (bytes : List UInt8) : Array UInt32 :=
  ((pieces 3 bytes).map wordOfBytes).toArray

/-- The node for the blocks of a chunk from a chaining value on. The first block of a chunk is
marked, and so is the last one. -/
def chunkNode (counter : UInt64) (chaining : Array UInt32) (first : Bool) :
    List (List UInt8) → Node
  | [] => ⟨chaining, #[], counter, 0, (if first then 1 else 0) ||| 2⟩
  | [block] =>
      ⟨chaining, wordsOfBlock block, counter, block.length.toUInt32,
        (if first then 1 else 0) ||| 2⟩
  | block :: rest =>
      let node : Node :=
        ⟨chaining, wordsOfBlock block, counter, block.length.toUInt32, if first then 1 else 0⟩
      chunkNode counter (node.compress false) false rest

/-- The nodes of the chunks of an input, counted from `counter`. -/
def chunkNodes : (counter : Nat) → List (List UInt8) → List Node
  | _, [] => []
  | counter, chunk :: chunks =>
      chunkNode counter.toUInt64 initialValue true (pieces 63 chunk) ::
        chunkNodes (counter + 1) chunks

/-! ## The tree of chunks -/

/-- The node above two nodes. -/
def parent (left right : Node) : Node :=
  ⟨initialValue, left.compress false ++ right.compress false, 0, 64, 4⟩

/-- One level up: the nodes are combined in pairs, and one that is left over is kept. -/
def pairUp : List Node → List Node
  | left :: right :: rest => parent left right :: pairUp rest
  | rest => rest

theorem length_pairUp_le (nodes : List Node) : (pairUp nodes).length ≤ nodes.length := by
  fun_induction pairUp nodes with
  | case1 left right rest ih =>
      simp only [List.length_cons]
      omega
  | case2 => exact Nat.le_refl _

/-- The node above all nodes, which start with the given one. -/
def top (first : Node) (others : List Node) : Node :=
  match others with
  | [] => first
  | second :: rest => top (parent first second) (pairUp rest)
termination_by others.length
decreasing_by
  have := length_pairUp_le rest
  simp only [List.length_cons]
  omega

/-! ## The hash -/

/-- The bytes of a word, the least byte first. -/
def bytesOfWord (w : UInt32) : List UInt8 :=
  [w.toUInt8, (w >>> 8).toUInt8, (w >>> 16).toUInt8, (w >>> 24).toUInt8]

/-- The 32 bytes of the hash of an input. -/
def hash (bytes : List UInt8) : List UInt8 :=
  match chunkNodes 0 (pieces 1023 bytes) with
  | [] => []
  | first :: others => ((top first others).compress true).toList.flatMap bytesOfWord

/-- A byte as two hexadecimal digits. -/
def hexByte (b : UInt8) : List Char :=
  [Nat.digitChar (b.toNat / 16), Nat.digitChar (b.toNat % 16)]

/-- The hash of an input in hexadecimal. -/
def hexHash (bytes : List UInt8) : String := String.ofList ((hash bytes).flatMap hexByte)

end SpeechGrammar.Blake3
