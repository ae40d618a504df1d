import ThresholdKeys.Cause
import ThresholdKeys.Hash.Sha256
import ThresholdKeys.Number.Checked

/-!
# The PSS encoding

The encoding of a message for an RSA signature (RFC 8017, section 9.1) with SHA-256, its mask
generation and a salt of 32 octets. An encoding of `emBits` binary digits is a masked data block,
the digest of the message with the salt, and a trailer; the data block is zeros, a one and the salt.
The salt is an argument, as all shares of a signature have to sign the same encoding.
-/

namespace ThresholdKeys.Pss

/-- The octets of a digest. -/
def hashLength : Nat := 32

/-- The octets of a salt. -/
def saltLength : Nat := 32

/-- The last octet of every encoding. -/
def trailer : UInt8 := 0xbc

/-- The fewest binary digits that an encoding can have. -/
def minBits : Nat := 8 * (hashLength + saltLength + 2) - 7

/-- The first `len` octets generated from a seed. The counter has four octets. -/
def maskOctets (seed : Bytes) (len : Nat) : Bytes :=
  ((List.range ((len + 31) / 32)).flatMap fun i => sha256 (seed ++ Bytes.fixed 4 i)).take len

/-- The mask of `len` octets. The counter must not run over. -/
def mask {ε : Type} (seed : Bytes) (len : Nat) : Outcome ε Bytes :=
  if 2 ^ 32 ≤ (len + 31) / 32 then .fault else .ok (maskOctets seed len)

/-- The digest of a message digest with a salt. -/
def saltedDigest (messageDigest salt : Bytes) : Bytes :=
  sha256 (List.replicate 8 0 ++ messageDigest ++ salt)

/-- The first octet with only the bits of `top` kept. -/
def keepTop (top : UInt8) : Bytes → Bytes
  | [] => []
  | x :: rest => (x &&& top) :: rest

/-- The bits of the first octet that belong to an encoding of `emLength` octets. -/
def topBits {ε : Type} (emLength emBits : Nat) : Outcome ε UInt8 := do
  let excess ← Checked.sub (8 * emLength) emBits
  Checked.shiftRight 0xff excess

/-- The encoding of a message with a salt in `emBits` binary digits. -/
def encode (message : Bytes) (emBits : Nat) (salt : Bytes) : Outcome ArithmeticError Bytes :=
  let emLength := (emBits + 7) / 8
  if salt.length ≠ saltLength then .error .badPadding
  else if emLength < hashLength + saltLength + 2 then .error .badModulus
  else do
    let h := saltedDigest (sha256 message) salt
    let dataLength ← Checked.sub emLength (hashLength + 1)
    let zeros ← Checked.sub dataLength (saltLength + 1)
    let maskOctets ← mask h dataLength
    let top ← topBits emLength emBits
    let masked := Bytes.xor (List.replicate zeros 0 ++ 0x01 :: salt) maskOctets
    return keepTop top masked ++ h ++ [trailer]

/-- Whether a string of octets is the encoding of a message, with any salt. -/
def verify {ε : Type} (message em : Bytes) (emBits : Nat) : Outcome ε Bool :=
  let emLength := (emBits + 7) / 8
  if em.length ≠ emLength ∨ emLength < hashLength + saltLength + 2 then .ok false
  else if em.getLast? ≠ some trailer then .ok false
  else do
    let dataLength ← Checked.sub emLength (hashLength + 1)
    let (masked, rest) ← Checked.split dataLength em
    let (h, _) ← Checked.split hashLength rest
    let top ← topBits emLength emBits
    if keepTop (~~~top) (masked.take 1) ≠ [0] then return false
    else
      let maskOctets ← mask h dataLength
      let block := keepTop top (Bytes.xor masked maskOctets)
      let zeros ← Checked.sub dataLength (saltLength + 1)
      let (filler, rest) ← Checked.split zeros block
      match rest with
      | [] => .fault
      | x :: salt =>
        if filler.any (· ≠ 0) ∨ x ≠ 0x01 then return false
        else return saltedDigest (sha256 message) salt = h

end ThresholdKeys.Pss
