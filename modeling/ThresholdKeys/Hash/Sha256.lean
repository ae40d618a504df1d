import ThresholdKeys.Bytes

/-!
# SHA-256

The hash function of FIPS 180-4. A message is padded to whole blocks of 64 octets; each block is
expanded to 64 words and mixed into a state of eight words. Only the length of the digest matters
to the rest of the library: `length_sha256`.
-/

namespace ThresholdKeys

namespace Sha256

/-- The state of the hash: eight words. -/
structure State where
  (a b c d e f g h : UInt32)

/-- The state before the first block. -/
def State.initial : State :=
  ⟨0x6a09e667, 0xbb67ae85, 0x3c6ef372, 0xa54ff53a, 0x510e527f, 0x9b05688c, 0x1f83d9ab, 0x5be0cd19⟩

/-- The constants of the 64 rounds. -/
def roundConstants : List UInt32 :=
  [0x428a2f98, 0x71374491, 0xb5c0fbcf, 0xe9b5dba5, 0x3956c25b, 0x59f111f1, 0x923f82a4, 0xab1c5ed5,
   0xd807aa98, 0x12835b01, 0x243185be, 0x550c7dc3, 0x72be5d74, 0x80deb1fe, 0x9bdc06a7, 0xc19bf174,
   0xe49b69c1, 0xefbe4786, 0x0fc19dc6, 0x240ca1cc, 0x2de92c6f, 0x4a7484aa, 0x5cb0a9dc, 0x76f988da,
   0x983e5152, 0xa831c66d, 0xb00327c8, 0xbf597fc7, 0xc6e00bf3, 0xd5a79147, 0x06ca6351, 0x14292967,
   0x27b70a85, 0x2e1b2138, 0x4d2c6dfc, 0x53380d13, 0x650a7354, 0x766a0abb, 0x81c2c92e, 0x92722c85,
   0xa2bfe8a1, 0xa81a664b, 0xc24b8b70, 0xc76c51a3, 0xd192e819, 0xd6990624, 0xf40e3585, 0x106aa070,
   0x19a4c116, 0x1e376c08, 0x2748774c, 0x34b0bcb5, 0x391c0cb3, 0x4ed8aa4a, 0x5b9cca4f, 0x682e6ff3,
   0x748f82ee, 0x78a5636f, 0x84c87814, 0x8cc70208, 0x90befffa, 0xa4506ceb, 0xbef9a3f7, 0xc67178f2]

/-- Rotation to the right. -/
@[inline] def rotate (x n : UInt32) : UInt32 := (x >>> n) ||| (x <<< (32 - n))

/-- One round. -/
def round (s : State) (constant word : UInt32) : State :=
  let choice := (s.e &&& s.f) ^^^ (~~~ s.e &&& s.g)
  let majority := (s.a &&& s.b) ^^^ (s.a &&& s.c) ^^^ (s.b &&& s.c)
  let sum₁ := rotate s.e 6 ^^^ rotate s.e 11 ^^^ rotate s.e 25
  let sum₀ := rotate s.a 2 ^^^ rotate s.a 13 ^^^ rotate s.a 22
  let t₁ := s.h + sum₁ + choice + constant + word
  let t₂ := sum₀ + majority
  ⟨t₁ + t₂, s.a, s.b, s.c, s.d + t₁, s.e, s.f, s.g⟩

/-- The word that four octets hold. -/
@[inline] def word (w x y z : UInt8) : UInt32 :=
  w.toUInt32 <<< 24 ||| x.toUInt32 <<< 16 ||| y.toUInt32 <<< 8 ||| z.toUInt32

/-- The words of a string of octets, four by four. -/
def words : Bytes → List UInt32
  | w :: x :: y :: z :: rest => word w x y z :: words rest
  | _ => []

/-- Appends words to the schedule until it has `n` more of them. -/
def extend : (n : Nat) → Array UInt32 → Array UInt32
  | 0, schedule => schedule
  | n + 1, schedule =>
    let back (k : Nat) : UInt32 := schedule.getD (schedule.size - k) 0
    let x := back 15
    let y := back 2
    let small₀ := rotate x 7 ^^^ rotate x 18 ^^^ (x >>> 3)
    let small₁ := rotate y 17 ^^^ rotate y 19 ^^^ (y >>> 10)
    extend n (schedule.push (back 16 + small₀ + back 7 + small₁))

/-- Mixes a block of 64 octets into the state. -/
def State.absorb (s : State) (block : Bytes) : State :=
  let schedule := extend 48 (words block).toArray
  let t := (roundConstants.zip schedule.toList).foldl (fun t (k, w) => round t k w) s
  ⟨s.a + t.a, s.b + t.b, s.c + t.c, s.d + t.d, s.e + t.e, s.f + t.f, s.g + t.g, s.h + t.h⟩

/-- The message, a one bit, zeros up to the next full block less eight octets, and its length in
bits. -/
def pad (message : Bytes) : Bytes :=
  let n := message.length
  message ++ 0x80 :: List.replicate ((119 - n % 64) % 64) 0 ++ Bytes.fixed 8 (8 * n)

/-- Mixes `n` blocks into the state. -/
def State.absorbBlocks (s : State) : (n : Nat) → Bytes → State
  | 0, _ => s
  | n + 1, message => (s.absorb (message.take 64)).absorbBlocks n (message.drop 64)

/-- The four octets of a word. -/
@[inline] def octets (x : UInt32) : Bytes :=
  [(x >>> 24).toUInt8, (x >>> 16).toUInt8, (x >>> 8).toUInt8, x.toUInt8]

/-- The octets of the state. -/
def State.digest (s : State) : Bytes :=
  octets s.a ++ octets s.b ++ octets s.c ++ octets s.d ++ octets s.e ++ octets s.f ++ octets s.g
    ++ octets s.h

end Sha256

/-- The SHA-256 digest of a message. -/
def sha256 (message : Bytes) : Bytes :=
  let padded := Sha256.pad message
  (Sha256.State.initial.absorbBlocks (padded.length / 64) padded).digest

/-- A digest has 32 octets. -/
@[simp] theorem length_sha256 (message : Bytes) : (sha256 message).length = 32 := rfl

end ThresholdKeys
