import ThresholdKeys.Hash.Words

/-!
# Sealed boxes

Authenticated encryption with ChaCha20 and Poly1305, as in RFC 8439, without associated data. A box
is the message, masked by a key stream, followed by a tag of 16 octets over it; `openBox?` refuses
a box whose tag does not fit. `openBox?_seal` says that a box opens under the key and the nonce that
sealed it.
-/

namespace ThresholdKeys

namespace ChaCha20

/-- Mixes four words. -/
@[inline] def mix (q : Quad) : Quad :=
  let a := q.a + q.b
  let d := rotateLeft (q.d ^^^ a) 16
  let c := q.c + d
  let b := rotateLeft (q.b ^^^ c) 12
  let a := a + b
  let d := rotateLeft (d ^^^ a) 8
  let c := c + d
  ⟨a, rotateLeft (b ^^^ c) 7, c, d⟩

/-- A number of double rounds: columns, then diagonals. -/
def doubleRounds : Nat → Square → Square
  | 0, s => s
  | n + 1, s => doubleRounds n ((s.columns fun _ => mix).diagonals fun _ => mix)

/-- The block number `counter` of the key stream. -/
def block (key nonce : Bytes) (counter : Nat) : Bytes :=
  let start := Square.ofList ([0x61707865, 0x3320646e, 0x79622d32, 0x6b206574] ++ littleWords key ++
    [UInt32.ofNat counter] ++ littleWords nonce)
  ((doubleRounds 10 start).add start).toBytes

/-- `blocks` blocks of the key stream, from the one number `counter` on. -/
def stream (key nonce : Bytes) : (blocks counter : Nat) → Bytes
  | 0, _ => []
  | blocks + 1, counter => block key nonce counter ++ stream key nonce blocks (counter + 1)

/-- A message masked by the key stream, or a masked message unmasked. -/
def mask (key nonce message : Bytes) : Bytes :=
  Bytes.xor message (stream key nonce ((message.length + 63) / 64) 1)

end ChaCha20

namespace Poly1305

/-- The prime of the polynomial. -/
def prime : Nat := 2 ^ 130 - 5

/-- Adds `blocks` blocks of a message to an accumulator, each as a number with a one bit above
it. -/
def accumulate (r : Nat) : (blocks acc : Nat) → Bytes → Nat
  | 0, acc, _ => acc
  | blocks + 1, acc, b =>
    let piece := b.take 16
    accumulate r blocks ((acc + Bytes.toNatLittle piece + 256 ^ piece.length) * r % prime)
      (b.drop 16)

/-- The tag of a message under a key of 32 octets that is used once. -/
def tag (key message : Bytes) : Bytes :=
  let r := Bytes.toNatLittle (key.take 16) &&& 0x0ffffffc0ffffffc0ffffffc0fffffff
  let s := Bytes.toNatLittle (key.drop 16)
  Bytes.littleEndian 16 (accumulate r ((message.length + 15) / 16) 0 message + s)

end Poly1305

namespace Box

/-- Zeros up to the next multiple of sixteen octets. -/
def filler (b : Bytes) : Bytes := List.replicate ((16 - b.length % 16) % 16) 0

/-- The tag of a masked message. -/
def tag (key nonce masked : Bytes) : Bytes :=
  Poly1305.tag ((ChaCha20.block key nonce 0).take 32)
    (masked ++ filler masked ++ Bytes.littleEndian 8 0 ++ Bytes.littleEndian 8 masked.length)

end Box

/-- Seals a message under a key of 32 and a nonce of 12 octets. -/
def sealBox (key nonce message : Bytes) : Bytes :=
  let masked := ChaCha20.mask key nonce message
  masked ++ Box.tag key nonce masked

/-- Opens a box, if its tag fits. -/
def openBox? (key nonce box : Bytes) : Option Bytes :=
  if box.length < 16 then none
  else
    let masked := box.take (box.length - 16)
    if Box.tag key nonce masked = box.drop (box.length - 16) then
      some (ChaCha20.mask key nonce masked)
    else none

/-! ## Opening undoes sealing -/

theorem ChaCha20.length_stream (key nonce : Bytes) (blocks counter : Nat) :
    (ChaCha20.stream key nonce blocks counter).length = 64 * blocks := by
  induction blocks generalizing counter with
  | zero => rfl
  | succ blocks ih =>
    rw [ChaCha20.stream, List.length_append, ih, ChaCha20.block, Square.length_toBytes]
    omega

@[simp] theorem ChaCha20.length_mask (key nonce message : Bytes) :
    (ChaCha20.mask key nonce message).length = message.length := by
  rw [ChaCha20.mask, Bytes.xor, List.length_zipWith, ChaCha20.length_stream]
  omega

/-- Masking twice gives the message back. -/
theorem ChaCha20.mask_mask (key nonce message : Bytes) :
    ChaCha20.mask key nonce (ChaCha20.mask key nonce message) = message := by
  rw [ChaCha20.mask, ChaCha20.length_mask, ChaCha20.mask, Bytes.xor_xor]
  rw [ChaCha20.length_stream]
  omega

@[simp] theorem Box.length_tag (key nonce masked : Bytes) :
    (Box.tag key nonce masked).length = 16 := by
  simp [Box.tag, Poly1305.tag, Bytes.littleEndian]

/-- A box opens under the key and the nonce that sealed it. -/
theorem openBox?_seal (key nonce message : Bytes) :
    openBox? key nonce (sealBox key nonce message) = some message := by
  simp [openBox?, sealBox, ChaCha20.mask_mask]

end ThresholdKeys
