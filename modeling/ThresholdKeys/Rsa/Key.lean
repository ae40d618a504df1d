import ThresholdKeys.Der.Reader
import ThresholdKeys.Number.Power
import ThresholdKeys.Rsa.Pss

/-!
# RSA keys

A public key is a modulus with an exponent; its encoding is that of a subject public key. The
private exponent exists only in shares, each of them stored together with the public key.
-/

namespace ThresholdKeys.Rsa

open Der

/-- The public exponent of the keys that are generated. -/
def standardExponent : Nat := 65537

theorem one_lt_standardExponent : 1 < standardExponent := by decide

theorem standardExponent_odd : standardExponent % 2 = 1 := by decide

/-- The fewest binary digits of a modulus that is generated. -/
def minModulusBits : Nat := 768

/-- A public key: both numbers are odd, and the exponent is above one and below the modulus. -/
structure PublicKey where
  modulus : Nat
  exponent : Nat
  one_lt : 1 < exponent
  exponent_odd : exponent % 2 = 1
  exponent_lt : exponent < modulus
  modulus_odd : modulus % 2 = 1
  deriving DecidableEq

namespace PublicKey

theorem modulus_pos (pk : PublicKey) : 0 < pk.modulus :=
  Nat.lt_of_le_of_lt (Nat.zero_le _) pk.exponent_lt

/-- The public key, if the numbers have the right shape. -/
def of (modulus exponent : Nat) : Outcome ArithmeticError PublicKey :=
  if h : 1 < exponent ∧ exponent % 2 = 1 ∧ exponent < modulus ∧ modulus % 2 = 1 then
    .ok ⟨modulus, exponent, h.1, h.2.1, h.2.2.1, h.2.2.2⟩
  else .error .badModulus

/-- The binary digits of the modulus. -/
def bits (pk : PublicKey) : Nat := bitLength pk.modulus

/-- The octets of a signature. -/
def length (pk : PublicKey) : Nat := (pk.bits + 7) / 8

/-- The binary digits of an encoded message: one less than those of the modulus. -/
def emBits {ε : Type} (pk : PublicKey) : Outcome ε Nat := Checked.sub pk.bits 1

/-- The encoding of a message as a number below the modulus. -/
def encodeMessage (pk : PublicKey) (message salt : Bytes) : Outcome ArithmeticError Nat := do
  let emBits ← pk.emBits
  let em ← Pss.encode message emBits salt
  return Bytes.toNat em

/-- Whether a string of octets is a signature of a message. -/
def verify {ε : Type} (pk : PublicKey) (message signature : Bytes) : Outcome ε Bool :=
  let s := Bytes.toNat signature
  if signature.length ≠ pk.length then .ok false
  else if pk.modulus ≤ s then .ok false
  else do
    let emBits ← pk.emBits
    match Bytes.fixed? (powMod s pk.exponent pk.modulus) ((emBits + 7) / 8) with
    | some em => Pss.verify message em emBits
    | none => return false

/-- The key as a subject public key: the algorithm, and the two numbers in a bit string. -/
def item (pk : PublicKey) : Item :=
  .sequence [.sequence [.identifier rsaIdentifier, .null],
    .bitString (Item.sequence [.integer pk.modulus, .integer pk.exponent]).encode]

/-- The encoding of the key. -/
def toDer (pk : PublicKey) : Bytes := pk.item.encode

/-- The key that a string of octets encodes. -/
def ofDer (der : Bytes) : Outcome DerError PublicKey := do
  let inner ← decode (Reader.inSequence do
    Reader.inSequence do
      Reader.identifier rsaIdentifier
      Reader.null
    Reader.bitString) der
  let (modulus, exponent) ← decode (Reader.inSequence do
    let modulus ← Reader.integer
    let exponent ← Reader.integer
    return (modulus, exponent)) inner
  (of modulus exponent).mapError fun _ => DerError.badValue

end PublicKey

/-- A share of a private exponent, with the public key. -/
structure KeyShare where
  publicKey : PublicKey
  exponent : Nat
  deriving DecidableEq

namespace KeyShare

/-- The power of the encoded message to the share. -/
def partialSign (share : KeyShare) (message salt : Bytes) : Outcome ArithmeticError Nat := do
  let em ← share.publicKey.encodeMessage message salt
  return powMod em share.exponent share.publicKey.modulus

/-- The share as an element: a version, the public key and the exponent. -/
def item (share : KeyShare) : Item :=
  .sequence [.integer 0, .integer share.publicKey.modulus, .integer share.publicKey.exponent,
    .integer share.exponent]

/-- The encoding of the share. -/
def toDer (share : KeyShare) : Bytes := share.item.encode

/-- The share that a string of octets encodes. -/
def ofDer (der : Bytes) : Outcome DerError KeyShare := do
  let (modulus, exponent, value) ← decode (Reader.inSequence do
    let version ← Reader.smallInteger
    if version ≠ 0 then throw .badValue
    else
      let modulus ← Reader.integer
      let exponent ← Reader.integer
      let value ← Reader.integer
      return (modulus, exponent, value)) der
  let publicKey ← (PublicKey.of modulus exponent).mapError fun _ => DerError.badValue
  return ⟨publicKey, value⟩

end KeyShare

end ThresholdKeys.Rsa
