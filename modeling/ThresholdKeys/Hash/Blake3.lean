import ThresholdKeys.Hash.Words

/-!
# BLAKE3

A hash tree over chunks of 1024 octets. A node of the tree is kept uncompressed, as a `Node`, for
the root is compressed once per 64 octets of output, with a counter and a flag of its own; every
other node enters its parent as a chaining value of eight words.

* `blake3 message` is the plain hash of 32 octets.
* `blake3Derived context material len` is the first `len` octets derived from key material within a
  context; outputs of different lengths agree on the shorter one.
-/

namespace ThresholdKeys

namespace Blake3

/-- Flags that say which part of a computation a compression belongs to. -/
def chunkStart : UInt32 := 1
def chunkEnd : UInt32 := 2
def parentNode : UInt32 := 4
def rootNode : UInt32 := 8
def deriveContext : UInt32 := 32
def deriveMaterial : UInt32 := 64

/-- The chaining value before the first block. -/
def initial : List UInt32 :=
  [0x6a09e667, 0xbb67ae85, 0x3c6ef372, 0xa54ff53a, 0x510e527f, 0x9b05688c, 0x1f83d9ab, 0x5be0cd19]

/-- The order of the message words in the next round. -/
def permute (m : Square) : Square :=
  ⟨m.x2, m.x6, m.x3, m.x10, m.x7, m.x0, m.x4, m.x13,
   m.x1, m.x11, m.x12, m.x5, m.x9, m.x14, m.x15, m.x8⟩

/-- Mixes four words of the state with two words of the message. -/
def mix (x y : UInt32) (q : Quad) : Quad :=
  let a := q.a + q.b + x
  let d := rotateRight (q.d ^^^ a) 16
  let c := q.c + d
  let b := rotateRight (q.b ^^^ c) 12
  let a := a + b + y
  let d := rotateRight (d ^^^ a) 8
  let c := c + d
  ⟨a, rotateRight (b ^^^ c) 7, c, d⟩

/-- One round: the columns with the first eight words of the message, the diagonals with the
rest. -/
def round (m s : Square) : Square :=
  let down := s.columns fun
    | 0 => mix m.x0 m.x1
    | 1 => mix m.x2 m.x3
    | 2 => mix m.x4 m.x5
    | _ => mix m.x6 m.x7
  down.diagonals fun
    | 0 => mix m.x8 m.x9
    | 1 => mix m.x10 m.x11
    | 2 => mix m.x12 m.x13
    | _ => mix m.x14 m.x15

/-- A number of rounds, the message words permuted in between. -/
def rounds : Nat → (m s : Square) → Square
  | 0, _, s => s
  | n + 1, m, s => rounds n (permute m) (round m s)

/-- A compression that has not been done yet. -/
structure Node where
  chaining : List UInt32
  block : Square
  counter : Nat
  length : Nat
  flags : UInt32

/-- The compression of a node, with the counter and the further flags that are asked for. -/
def Node.compress (node : Node) (counter : Nat) (flags : UInt32) : Square :=
  let start := Square.ofList (node.chaining ++ initial.take 4 ++
    [UInt32.ofNat counter, UInt32.ofNat (counter >>> 32), UInt32.ofNat node.length,
     node.flags ||| flags])
  let s := rounds 7 node.block start
  let c := Square.ofList (node.chaining ++ node.chaining)
  ⟨s.x0 ^^^ s.x8, s.x1 ^^^ s.x9, s.x2 ^^^ s.x10, s.x3 ^^^ s.x11,
   s.x4 ^^^ s.x12, s.x5 ^^^ s.x13, s.x6 ^^^ s.x14, s.x7 ^^^ s.x15,
   s.x8 ^^^ c.x8, s.x9 ^^^ c.x9, s.x10 ^^^ c.x10, s.x11 ^^^ c.x11,
   s.x12 ^^^ c.x12, s.x13 ^^^ c.x13, s.x14 ^^^ c.x14, s.x15 ^^^ c.x15⟩

/-- The chaining value of a node that is not the root. -/
def Node.chain (node : Node) : List UInt32 := (node.compress node.counter 0).toList.take 8

/-- The node of a chunk, given its number of blocks: all blocks but the last one are compressed. -/
def chunkNode (flags : UInt32) (counter : Nat) :
    (blocks : Nat) → List UInt32 → UInt32 → Bytes → Node
  | 0, chaining, start, b =>
    ⟨chaining, Square.ofBytes b, counter, b.length, flags ||| start ||| chunkEnd⟩
  | blocks + 1, chaining, start, b =>
    let node : Node := ⟨chaining, Square.ofBytes (b.take 64), counter, 64, flags ||| start⟩
    chunkNode flags counter blocks node.chain 0 (b.drop 64)

/-- The nodes of `count + 1` chunks, the first of them number `counter`. -/
def chunkNodes (key : List UInt32) (flags : UInt32) : (count counter : Nat) → Bytes → List Node
  | 0, counter, b => [chunkNode flags counter ((b.length - 1) / 64) key chunkStart b]
  | count + 1, counter, b =>
    chunkNode flags counter 15 key chunkStart (b.take 1024)
      :: chunkNodes key flags count (counter + 1) (b.drop 1024)

/-- The next level of the tree: neighbours are joined, and a last one without a neighbour stays. -/
def joinPairs (key : List UInt32) (flags : UInt32) : List Node → List Node
  | left :: right :: rest =>
    ⟨key, Square.ofList (left.chain ++ right.chain), 0, 64, flags ||| parentNode⟩
      :: joinPairs key flags rest
  | rest => rest

/-- The root above a first node and further ones, `levels` levels up. -/
def rootAbove (key : List UInt32) (flags : UInt32) : (levels : Nat) → Node → List Node → Node
  | 0, node, _ => node
  | levels + 1, node, rest =>
    match joinPairs key flags (node :: rest) with
    | top :: others => rootAbove key flags levels top others
    | [] => node

/-- The root of the tree over a message. -/
def root (key : List UInt32) (flags : UInt32) (message : Bytes) : Node :=
  let count := (message.length - 1) / 1024
  match chunkNodes key flags count 0 message with
  | node :: rest => rootAbove key flags (bitLength count) node rest
  | [] => ⟨key, Square.ofList [], 0, 0, flags⟩

/-- `blocks` blocks of output, from the one number `counter` on. -/
def Node.outputBlocks (node : Node) : (blocks counter : Nat) → Bytes
  | 0, _ => []
  | blocks + 1, counter =>
    (node.compress counter rootNode).toBytes ++ outputBlocks node blocks (counter + 1)

/-- The first `len` octets of output. -/
def Node.output (node : Node) (len : Nat) : Bytes :=
  (node.outputBlocks ((len + 63) / 64) 0).take len

end Blake3

/-- The BLAKE3 hash of a message. -/
def blake3 (message : Bytes) : Bytes := (Blake3.root Blake3.initial 0 message).output 32

/-- The first `len` octets that BLAKE3 derives from `material` within `context`. -/
def blake3Derived (context material : Bytes) (len : Nat) : Bytes :=
  let key := littleWords ((Blake3.root Blake3.initial Blake3.deriveContext context).output 32)
  (Blake3.root key Blake3.deriveMaterial material).output len

/-- The short form of a hash by which a public key is named in texts: sixteen digits. -/
def fingerprint (der : Bytes) : String := Bytes.hex ((blake3 der).take 8)

end ThresholdKeys
