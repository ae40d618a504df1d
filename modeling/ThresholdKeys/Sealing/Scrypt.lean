import ThresholdKeys.Hash.Sha256
import ThresholdKeys.Hash.Words

/-!
# Keys from passwords

`scrypt` derives key material from a password and a salt at a cost of memory, as in RFC 7914: the
password is stretched with PBKDF2, each block is mixed through a table of `2 ^ logCost` earlier
states, and the result is stretched again.
-/

namespace ThresholdKeys

/-- HMAC with SHA-256. -/
def hmac (key message : Bytes) : Bytes :=
  let key := if key.length > 64 then sha256 key else key
  let key := key ++ List.replicate (64 - key.length) 0
  sha256 (key.map (· ^^^ 0x5c) ++ sha256 (key.map (· ^^^ 0x36) ++ message))

/-- `len` octets stretched from a password by one round of PBKDF2 with HMAC. -/
def stretch (password salt : Bytes) (len : Nat) : Bytes :=
  ((List.range ((len + 31) / 32)).flatMap fun i =>
    hmac password (salt ++ Bytes.fixed 4 (i + 1))).take len

namespace Scrypt

/-- Mixes four words. -/
@[inline] def mix (q : Quad) : Quad :=
  let b := q.b ^^^ rotateLeft (q.a + q.d) 7
  let c := q.c ^^^ rotateLeft (b + q.a) 9
  let d := q.d ^^^ rotateLeft (c + b) 13
  ⟨q.a ^^^ rotateLeft (d + c) 18, b, c, d⟩

/-- Mixes the columns and then the rows of a square, each from its diagonal element on. -/
def doubleRound (s : Square) : Square :=
  let p := mix ⟨s.x0, s.x4, s.x8, s.x12⟩
  let q := mix ⟨s.x5, s.x9, s.x13, s.x1⟩
  let r := mix ⟨s.x10, s.x14, s.x2, s.x6⟩
  let t := mix ⟨s.x15, s.x3, s.x7, s.x11⟩
  let u := mix ⟨p.a, q.d, r.c, t.b⟩
  let v := mix ⟨q.a, r.d, t.c, p.b⟩
  let w := mix ⟨r.a, t.d, p.c, q.b⟩
  let x := mix ⟨t.a, p.d, q.c, r.b⟩
  ⟨u.a, u.b, u.c, u.d, v.d, v.a, v.b, v.c, w.c, w.d, w.a, w.b, x.b, x.c, x.d, x.a⟩

/-- The Salsa20 core with eight rounds. -/
def core (s : Square) : Square :=
  (doubleRound (doubleRound (doubleRound (doubleRound s)))).add s

/-- Chains the core through the squares of a block; results of even and of odd positions are kept
apart, latest first. -/
def chain : List Square → Square → (even odd : List Square) → List Square × List Square
  | s :: t :: rest, last, even, odd =>
    let u := core (last.xor s)
    let v := core (u.xor t)
    chain rest v (u :: even) (v :: odd)
  | _, _, even, odd => (even, odd)

/-- The last square of a block. -/
def lastSquare (block : List Square) : Square := block.getLast?.getD (Square.ofList [])

/-- Mixes the squares of a block: the even results first, then the odd ones. -/
def mixBlock (block : List Square) : List Square :=
  let (even, odd) := chain block (lastSquare block) [] []
  even.reverse ++ odd.reverse

/-- Records `n` states, each mixed from the one before; also the state after the last. -/
def fill : (n : Nat) → Array (List Square) → List Square → Array (List Square) × List Square
  | 0, table, block => (table, block)
  | n + 1, table, block => fill n (table.push block) (mixBlock block)

/-- Mixes `n` times with the recorded state that the block itself points to. -/
def revisit (table : Array (List Square)) : (n : Nat) → List Square → List Square
  | 0, block => block
  | n + 1, block =>
    let position := (lastSquare block).x0.toNat % table.size
    revisit table n (mixBlock (List.zipWith Square.xor block (table.getD position [])))

/-- The squares of a string of octets, 64 by 64. -/
def squares : (n : Nat) → Bytes → List Square
  | 0, _ => []
  | n + 1, b => Square.ofBytes (b.take 64) :: squares n (b.drop 64)

/-- Mixes a block through a table of `2 ^ logCost` states, `logCost` at most 32. -/
def mixThroughTable (logCost : Nat) (b : Bytes) : Bytes :=
  let (table, block) := fill (2 ^ logCost) #[] (squares (b.length / 64) b)
  (revisit table (2 ^ logCost) block).flatMap Square.toBytes

end Scrypt

/-- `len` octets of key material, with blocks of `2 * blockSize` squares and no parallel lanes. -/
def scrypt (password salt : Bytes) (logCost blockSize len : Nat) : Bytes :=
  stretch password (Scrypt.mixThroughTable logCost (stretch password salt (128 * blockSize))) len

end ThresholdKeys
