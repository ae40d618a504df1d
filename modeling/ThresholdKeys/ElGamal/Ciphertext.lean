import ThresholdKeys.ElGamal.Block
import ThresholdKeys.ElGamal.Key

/-!
# ElGamal ciphertexts

A ciphertext is a pair of numbers. It means something if both are residues; the check of a
ciphertext and its decryption agree on that.
-/

namespace ThresholdKeys.ElGamal

open Der

/-- `g ^ r` and `m * y ^ r`, for a message `m` under the key `y`. -/
structure Ciphertext where
  blind : Nat
  blinded : Nat
  deriving DecidableEq

/-- The verdict on the encoding of a ciphertext. -/
inductive Correctness where
  | valid
  /-- It does not parse. -/
  | malformed
  /-- A component is outside the group. -/
  | outside
  /-- All components are in range, and one is no residue. -/
  | nonResidue
  deriving DecidableEq, Repr

namespace Ciphertext

/-- The ciphertext as an element: the algorithm and the two components. -/
def item (ct : Ciphertext) : Item :=
  .sequence [.identifier elGamalIdentifier, .integer ct.blind, .integer ct.blinded]

/-- The encoding of the ciphertext. -/
def toDer (ct : Ciphertext) : Bytes := ct.item.encode

/-- The ciphertext that a string of octets encodes. -/
def ofDer (der : Bytes) : Outcome DerError Ciphertext :=
  decode (Reader.inSequence do
    Reader.identifier elGamalIdentifier
    let blind ← Reader.integer
    let blinded ← Reader.integer
    return ⟨blind, blinded⟩) der

/-- The verdict on a ciphertext: a component outside the group weighs more than one that is no
residue. -/
def correctness (ct : Ciphertext) (G : Group) : Correctness :=
  match G.standing ct.blind, G.standing ct.blinded with
  | .outside, _ => .outside
  | _, .outside => .outside
  | .residue, .residue => .valid
  | _, _ => .nonResidue

end Ciphertext

/-- The verdict on a string of octets as a ciphertext under a key. -/
def PublicKey.checkCiphertext (pk : PublicKey) (der : Bytes) : Correctness :=
  match Ciphertext.ofDer der with
  | .ok ct => ct.correctness pk.parameters.group
  | _ => .malformed

/-- An encoded message, blinded with the exponent `r`. -/
def blinded (pk : PublicKey) (encoded r : Nat) : Ciphertext :=
  ⟨pk.parameters.group.pow pk.parameters.generator r,
    pk.parameters.group.mul encoded (pk.parameters.group.pow pk.key r)⟩

/-- Pads, encodes and blinds a message. -/
def PublicKey.encrypt (pk : PublicKey) (message : Bytes) :
    Proc Source ArithmeticError Ciphertext := do
  let G := pk.parameters.group
  let block ← Block.pad message G.messageLength
  let encoded ← G.encode block.toNat
  let r ← randomNonzeroBelow G.order
  return blinded pk encoded r

/-- Removes the blinding, decodes and strips the padding, after both components have been found to
be residues. -/
def PrivateKey.decrypt (sk : PrivateKey) (ct : Ciphertext) : Outcome ArithmeticError Bytes :=
  let G := sk.parameters.group
  match ct.correctness G with
  | .valid => do
    let encoded ← G.div ct.blinded (G.pow ct.blind sk.secret)
    let decoded ← G.decode encoded
    let block ← Outcome.ofOption .messageTooLong (Bytes.fixed? decoded G.messageLength)
    Block.unpad block
  | .nonResidue => .error .notResidue
  | _ => .error .notElement

end ThresholdKeys.ElGamal
