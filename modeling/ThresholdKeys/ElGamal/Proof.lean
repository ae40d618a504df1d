import ThresholdKeys.ElGamal.Ciphertext

/-!
# Proofs of correct decryption

A proof of Chaum and Pedersen that the logarithm of `y` to the base `g` is that of `c₂ / d` to the
base `c₁`, where `d` is the encoded plaintext. The challenge is the digest of a transcript of all
that the proof is about. `Proof.verifyWith` takes any number for the challenge, and `Proof.verify`
takes the digest.
-/

namespace ThresholdKeys.ElGamal

open Der

/-- Two commitments `c₁ ^ r` and `g ^ r`, and the response `k * x + r` modulo the order. -/
structure Proof where
  messageCommitment : Nat
  keyCommitment : Nat
  response : Nat
  deriving DecidableEq

/-- A plaintext, and a proof of it if one was asked for. -/
structure Decryption where
  plaintext : Bytes
  proof : Option Proof
  deriving DecidableEq

/-- What a challenge is about: the key, the ciphertext, the plaintext and the commitments. -/
def transcript (pk : PublicKey) (ct : Ciphertext) (plaintext : Bytes)
    (messageCommitment keyCommitment : Nat) : Item :=
  .sequence [.octetString (Bytes.ofText "DECRYPTION"), pk.item, ct.item, .octetString plaintext,
    .integer messageCommitment, .integer keyCommitment]

/-- The challenge: the digest of the transcript as a number. -/
def challenge (pk : PublicKey) (ct : Ciphertext) (plaintext : Bytes)
    (messageCommitment keyCommitment : Nat) : Nat :=
  Bytes.toNat (sha256 (transcript pk ct plaintext messageCommitment keyCommitment).encode)

/-- What is left of the second component when an encoded plaintext is divided out. -/
def blindingFactor (ps : Parameters) (ct : Ciphertext) (plaintext : Bytes) :
    Outcome ArithmeticError Nat := do
  let block ← Block.pad plaintext ps.group.messageLength
  let encoded ← ps.group.encode block.toNat
  ps.group.div ct.blinded encoded

namespace Proof

/-- Checks both halves of a proof for the challenge `k`. -/
def verifyWith (k : Nat) (proof : Proof) (pk : PublicKey) (ct : Ciphertext) (plaintext : Bytes) :
    Outcome ArithmeticError Bool :=
  let G := pk.parameters.group
  if !G.isResidue proof.messageCommitment || !G.isResidue proof.keyCommitment then .ok false
  else if G.pow pk.parameters.generator proof.response
      ≠ G.mul proof.keyCommitment (G.pow pk.key k) then .ok false
  else do
    let factor ← blindingFactor pk.parameters ct plaintext
    return G.pow ct.blind proof.response = G.mul proof.messageCommitment (G.pow factor k)

/-- Checks a proof that `plaintext` is the decryption of `ct` under the key of `pk`. -/
def verify (proof : Proof) (pk : PublicKey) (ct : Ciphertext) (plaintext : Bytes) :
    Outcome ArithmeticError Bool :=
  proof.verifyWith (challenge pk ct plaintext proof.messageCommitment proof.keyCommitment)
    pk ct plaintext

/-- The proof as an element: the commitments and the response. -/
def item (proof : Proof) : Item :=
  .sequence [.integer proof.messageCommitment, .integer proof.keyCommitment,
    .integer proof.response]

/-- The encoding of the proof. -/
def toDer (proof : Proof) : Bytes := proof.item.encode

/-- The proof that a string of octets encodes. -/
def ofDer (der : Bytes) : Outcome DerError Proof :=
  decode (Reader.inSequence do
    let messageCommitment ← Reader.integer
    let keyCommitment ← Reader.integer
    let response ← Reader.integer
    return ⟨messageCommitment, keyCommitment, response⟩) der

end Proof

namespace PrivateKey

/-- The challenge that belongs to the commitments of a nonce. -/
def challengeOf (sk : PrivateKey) (ct : Ciphertext) (plaintext : Bytes) (nonce : Nat) : Nat :=
  challenge sk.publicKey ct plaintext (sk.parameters.group.pow ct.blind nonce)
    (sk.parameters.group.pow sk.parameters.generator nonce)

/-- The proof that a nonce leads to when the challenge is `k`. -/
def answer (sk : PrivateKey) (ct : Ciphertext) (nonce k : Nat) : Proof where
  messageCommitment := sk.parameters.group.pow ct.blind nonce
  keyCommitment := sk.parameters.group.pow sk.parameters.generator nonce
  response := (k * sk.secret + nonce) % sk.parameters.group.order

/-- Decrypts, and proves the plaintext correct with a random nonce. -/
def provableDecrypt (sk : PrivateKey) (ct : Ciphertext) :
    Proc Source ArithmeticError Decryption := do
  let plaintext ← sk.decrypt ct
  let nonce ← randomBelow sk.parameters.group.order
  return ⟨plaintext, some (sk.answer ct nonce (sk.challengeOf ct plaintext nonce))⟩

end PrivateKey

end ThresholdKeys.ElGamal
