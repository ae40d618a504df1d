import ThresholdKeys.Ceremony.Collection
import ThresholdKeys.Ceremony.Session
import ThresholdKeys.Rsa.Combination
import ThresholdKeys.Sharing.Polynomial

/-!
# The signing key

The private exponent of the signing key is shared over the number of units modulo `n`, and is never
put together again: a quorum of holders signs the same encoded message, and the signature is
combined from what they contribute.
-/

namespace ThresholdKeys

open Rsa

namespace SigningKey

/-- Draws two primes until the standard exponent is a unit modulo `phi`, for at most `rounds`
rounds after `attempts` earlier ones; the modulus and `phi`. -/
def drawModulusAfter (modulusBits : Nat) :
    (rounds attempts : Nat) → Proc Source ProtocolError (Nat × Nat)
  | 0, _ => Proc.lift .stalled
  | rounds + 1, attempts => do
    let p ← (randomPrime (modulusBits / 2)).mapError .ofArithmetic
    let q ← (randomPrime (modulusBits - modulusBits / 2)).mapError .ofArithmetic
    if p = q then drawModulusAfter modulusBits rounds (attempts + 1)
    else do
      let phi ← (totientOfTwoPrimes p q : Outcome ProtocolError Nat)
      if phi.gcd standardExponent = 1 then do
        Proc.note .debug s!"RSA modulus found after {attempts + 1} attempts"
        return (p * q, phi)
      else do
        Proc.note .debug "e shares a factor with φ(n), drawing new primes"
        drawModulusAfter modulusBits rounds (attempts + 1)

/-- A modulus of `modulusBits` binary digits, and the number of its units. -/
def drawModulus (modulusBits : Nat) : Proc Source ProtocolError (Nat × Nat) := fun patience s =>
  drawModulusAfter modulusBits patience 0 patience s

/-- Draws a key: the public key, and the polynomial whose constant term is the private exponent. -/
def draw (modulusBits : Nat) (t : Threshold) :
    Proc Source ProtocolError (PublicKey × Polynomial) := do
  let (n, phi) ← drawModulus modulusBits
  let pk ← (PublicKey.of n standardExponent).mapError ProtocolError.ofArithmetic
  let d ← (inverse pk.exponent phi).mapError ProtocolError.ofArithmetic
  let f ← (Polynomial.randomWith (t.threshold - 1) phi d).mapError .ofArithmetic
  return (pk, f)

/-- The form of a share on a token. -/
def shareForm (pk : PublicKey) (share : Share) : Outcome ProtocolError Bytes :=
  .ok (KeyShare.mk pk share.value).toDer

/-- Stores the shares of a polynomial and returns the encoded public key. -/
def deal (pk : PublicKey) (t : Threshold) (tag identifier : Bytes) (f : Polynomial) :
    Proc Cards ProtocolError Bytes := do
  storeShares (shareForm pk) tag identifier 0 (f.shares t.parties)
  let der := pk.toDer
  Proc.note .info (s!"RSA-{pk.bits} signing key generated, {t.text} shares stored, "
    ++ s!"fingerprint {fingerprint der}")
  return der

/-- Generates a key onto the tokens; its encoded public key. -/
def generate (t : Threshold) (modulusBits : Nat) (tag identifier : Bytes) :
    Proc Session ProtocolError Bytes :=
  if modulusBits < minModulusBits then throw (.badParameters .smallModulus)
  else generation t (draw modulusBits t) fun (pk, f) => deal pk t tag identifier f

end SigningKey

/-- Holders who sign together: the public key, their shares by index, and the number of all
parties. -/
structure Signers where
  publicKey : PublicKey
  shares : List (Nat × KeyShare)
  parties : Nat
  deriving DecidableEq

namespace Signers

/-- Reads shares from blobs. They have to carry different indices of parties and the same public
key, which is that of the first one. -/
def readShares (t : Threshold) : List IndexedBlob → (publicKey : Option PublicKey) →
    (before : List (Nat × KeyShare)) →
      Outcome ProtocolError (Option PublicKey × List (Nat × KeyShare))
  | [], publicKey, before => .ok (publicKey, before)
  | b :: rest, publicKey, before =>
    if !t.isIndex b.index then .error (.indexMismatch b.index)
    else if before.any (·.1 = b.index) then .error (.duplicateShare b.index)
    else do
      let share ← (KeyShare.ofDer b.blob).mapError .malformedShare
      if publicKey.any (· ≠ share.publicKey) then .error .parameterMismatch
      else readShares t rest (some share.publicKey) (before ++ [(b.index, share)])

/-- The signers whose shares are in blobs. -/
def ofBlobs (t : Threshold) (blobs : List IndexedBlob) : Outcome ProtocolError Signers := do
  requireThreshold blobs.length t
  match ← readShares t blobs none [] with
  | (none, _) => .error (.tooFewShares 0 t.threshold)
  | (some publicKey, shares) => do
    let _ ← unitCoefficients publicKey.exponent (factorial t.parties)
    return ⟨publicKey, shares, t.parties⟩

/-- The signers whose shares are on the tokens. -/
def ofCards (t : Threshold) (tag identifier : Bytes) : Proc Cards ProtocolError Signers := do
  let blobs ← collectPresent t tag identifier
  ofBlobs t blobs

/-- What each share contributes to a signature of the message with the salt. -/
def partialSignatures (message salt : Bytes) :
    List (Nat × KeyShare) → Outcome ProtocolError (List PartialSignature)
  | [] => .ok []
  | (index, share) :: rest => do
    let value ← (share.partialSign message salt).mapError .ofArithmetic
    let others ← partialSignatures message salt rest
    return ⟨index, value⟩ :: others

/-- The signature of a message with a salt, checked. -/
def signWith {σ : Type} (s : Signers) (message salt : Bytes) : Proc σ ProtocolError Bytes := do
  let partials ← partialSignatures message salt s.shares
  let encoded ← (s.publicKey.encodeMessage message salt).mapError ProtocolError.ofArithmetic
  let y ← combine partials encoded s.publicKey s.parties
  let signature ← Outcome.ofOption ProtocolError.signatureRejected
    (Bytes.fixed? y s.publicKey.length)
  Proc.note .debug s!"Message signed with {partials.length} shares"
  return signature

/-- Signs a message with a random salt. -/
def sign (s : Signers) (message : Bytes) : Proc Source ProtocolError Bytes := do
  let salt ← (draw Pss.saltLength).mapError .entropy
  s.signWith message salt

end Signers

end ThresholdKeys
