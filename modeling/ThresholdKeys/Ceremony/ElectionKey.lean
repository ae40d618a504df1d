import ThresholdKeys.Ceremony.Collection
import ThresholdKeys.Ceremony.Session
import ThresholdKeys.ElGamal.Proof
import ThresholdKeys.Sharing.Interpolation
import ThresholdKeys.Sharing.Polynomial

/-!
# The election key

The private key of an election is the constant term of a random polynomial over the order of the
group. Each token gets one value of the polynomial, in the form of a private key of its own, and
only the public key leaves the generation (`ElectionKey.generate`). To decrypt, the private key is
put together from enough of the shares (`RecoveredKey.ofBlobs`).
-/

namespace ThresholdKeys

open ElGamal

namespace ElectionKey

/-- The form of a share on a token: a private key. -/
def shareForm (parameters : Parameters) (share : Share) : Outcome ProtocolError Bytes := do
  let sk ← (PrivateKey.of parameters share.value).mapError .ofArithmetic
  return sk.toDer

/-- Draws the polynomial of a new key. -/
def drawPolynomial (parameters : Parameters) (t : Threshold) :
    Proc Source ProtocolError Polynomial :=
  (Polynomial.random (t.threshold - 1) parameters.group.order).mapError .ofArithmetic

/-- Stores the shares of a polynomial and returns the encoded public key that belongs to its
constant term. -/
def deal (parameters : Parameters) (t : Threshold) (tag identifier : Bytes) (f : Polynomial) :
    Proc Cards ProtocolError Bytes := do
  storeShares (shareForm parameters) tag identifier 0 (f.shares t.parties)
  let y := parameters.group.pow parameters.generator f.constant
  let pk ← (PublicKey.of parameters y).mapError ProtocolError.ofArithmetic
  let der := pk.toDer
  Proc.note .info (s!"ElGamal key for {parameters.electionId} generated, {t.text} shares stored, "
    ++ s!"fingerprint {fingerprint der}")
  return der

/-- Generates a key onto the tokens; its encoded public key. -/
def generate (parameters : Parameters) (t : Threshold) (tag identifier : Bytes) :
    Proc Session ProtocolError Bytes :=
  generation t (drawPolynomial parameters t) (deal parameters t tag identifier)

end ElectionKey

/-- A private key put together from shares, and whether its decryptions come with a proof. -/
structure RecoveredKey where
  key : PrivateKey
  withProof : Bool
  deriving DecidableEq

namespace RecoveredKey

/-- Reads shares from blobs. They have to carry indices of parties and to agree on the parameters,
which are those of the first one. -/
def readShares (t : Threshold) : List IndexedBlob → (parameters : Option Parameters) →
    Outcome ProtocolError (Option Parameters × List Share)
  | [], parameters => .ok (parameters, [])
  | b :: rest, parameters =>
    if !t.isIndex b.index then .error (.indexMismatch b.index)
    else do
      let sk ← (PrivateKey.ofDer b.blob).mapError .malformedShare
      if parameters.any (· ≠ sk.parameters) then .error .parameterMismatch
      else
        let share ← (Share.of b.index sk.secret).mapError .ofSharing
        let (parameters, shares) ← readShares t rest (some sk.parameters)
        return (parameters, share :: shares)

/-- The key that the shares in blobs determine; nothing is logged. -/
def recover (t : Threshold) (blobs : List IndexedBlob) : Outcome ProtocolError PrivateKey := do
  requireThreshold blobs.length t
  match ← readShares t blobs none with
  | (none, _) => .error (.tooFewShares 0 t.threshold)
  | (some parameters, shares) => do
    let secret ← (interpolateAtZero shares parameters.group.order).mapError .ofSharing
    (PrivateKey.of parameters secret).mapError .ofArithmetic

/-- Puts the key together from blobs. -/
def ofBlobs {σ : Type} (t : Threshold) (withProof : Bool) (blobs : List IndexedBlob) :
    Proc σ ProtocolError RecoveredKey := do
  let key ← recover t blobs
  Proc.note .info (s!"Election key reconstructed from {blobs.length} shares, "
    ++ s!"fingerprint {fingerprint key.publicKey.toDer}")
  return ⟨key, withProof⟩

/-- Puts the key together from the tokens. -/
def ofCards (t : Threshold) (tag identifier : Bytes) (withProof : Bool) :
    Proc Cards ProtocolError RecoveredKey := do
  let blobs ← collectPresent t tag identifier
  ofBlobs t withProof blobs

/-- The public key. -/
def publicKey (r : RecoveredKey) : PublicKey := r.key.publicKey

/-- The verdict on an encoded ciphertext. -/
def checkCorrectness (r : RecoveredKey) (ciphertext : Bytes) : Correctness :=
  r.publicKey.checkCiphertext ciphertext

/-- Decrypts an encoded ciphertext. -/
def decrypt (r : RecoveredKey) (ciphertext : Bytes) : Proc Source ProtocolError Decryption := do
  let ct ← (Ciphertext.ofDer ciphertext).mapError ProtocolError.malformedInput
  if r.withProof then (r.key.provableDecrypt ct).mapError .ofArithmetic
  else do
    let plaintext ← (r.key.decrypt ct).mapError ProtocolError.ofArithmetic
    return ⟨plaintext, none⟩

end RecoveredKey

end ThresholdKeys
