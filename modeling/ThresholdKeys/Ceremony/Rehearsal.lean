import ThresholdKeys.Ceremony.Config
import ThresholdKeys.Ceremony.ElectionKey
import ThresholdKeys.Ceremony.SigningKey
import ThresholdKeys.Sharing.Quorum

/-!
# Ceremony and rehearsal

A ceremony generates the two keys of an election onto the same tokens. A rehearsal reads the shares
back and lets each of a few quorums do its work, so that a share that is missing or damaged shows
before the day of the election. A ceremony that broke off leaves shares behind, on which a second
one fails until they are removed.
-/

namespace ThresholdKeys

/-- The encoded public keys of a ceremony. -/
structure CeremonyKeys where
  electionKey : Bytes
  signingKey : Bytes
  deriving DecidableEq

/-- Generates the keys of an election onto the tokens. -/
def runCeremony (parameters : ElGamal.Parameters) (t : Threshold) (c : Config) :
    Proc Session ProtocolError CeremonyKeys := do
  c.validate
  Proc.note .info s!"Key ceremony for {parameters.electionId} started, {t.text} shares"
  let electionKey ← ElectionKey.generate parameters t c.shareTag c.decryptionIdentifier
  let signingKey ← SigningKey.generate t c.modulusBits c.shareTag c.signingIdentifier
  return ⟨electionKey, signingKey⟩

/-- The indices of the shares of a quorum. -/
def quorumIndices (quorum : List IndexedBlob) : List Nat := quorum.map IndexedBlob.index

/-- The quorums that a rehearsal tries. -/
def rehearsalQuorums (t : Threshold) (tag identifier : Bytes) :
    Proc Cards ProtocolError (List (List IndexedBlob)) := do
  let blobs ← collectPresent t tag identifier
  requireThreshold blobs.length t
  (selectQuorums blobs t.threshold).mapError ProtocolError.ofSharing

/-- Tries quorums one after the other, the first of them number `n`, until one fails. -/
def tryQuorums (kind : String) (passes : Nat → List IndexedBlob → Proc Source ProtocolError Bool) :
    (n : Nat) → List (List IndexedBlob) → Proc Source ProtocolError Unit
  | _, [] => return ()
  | n, quorum :: rest => do
    if ← passes n quorum then tryQuorums kind passes (n + 1) rest
    else do
      Proc.note .warn (kind ++ " quorum " ++ indexList (quorumIndices quorum)
        ++ " failed rehearsal")
      throw (.quorumRejected (quorumIndices quorum))

/-- The message that the quorum number `n` works on. -/
def probe (n : Nat) : Bytes := Bytes.ofText s!"rehearsal {n}"

/-- Whether a quorum puts together the private key of `pk` and decrypts a message under it. -/
def quorumDecrypts (pk : ElGamal.PublicKey) (t : Threshold) (withProof : Bool) (n : Nat)
    (quorum : List IndexedBlob) : Proc Source ProtocolError Bool := do
  let ct ← (pk.encrypt (probe n)).mapError .ofArithmetic
  let recovered ← RecoveredKey.ofBlobs t withProof quorum
  if recovered.publicKey ≠ pk then return false
  else
    match ← (recovered.decrypt ct.toDer).attempt with
    | .error e => do
      Proc.note .warn ("Rehearsal decryption failed: " ++ ProtocolError.message e)
      return false
    | .ok out =>
      if out.plaintext ≠ probe n then return false
      else match out.proof with
        | none => return true
        | some proof => (proof.verify pk ct out.plaintext).mapError ProtocolError.ofArithmetic

/-- Lets the quorums decrypt under the encoded public key of the election; how many did. -/
def rehearseDecryption (t : Threshold) (c : Config) (electionKey : Bytes) :
    Proc Session ProtocolError Nat := do
  let pk ← (ElGamal.PublicKey.ofDer electionKey).mapError ProtocolError.malformedInput
  let quorums ← Session.onCards (rehearsalQuorums t c.shareTag c.decryptionIdentifier)
  Session.onSource (tryQuorums "Decryption" (quorumDecrypts pk t c.decryptWithProof) 0 quorums)
  Proc.note .info s!"Decryption rehearsal passed for {quorums.length} quorums"
  return quorums.length

/-- Whether a quorum holds shares of the key of `pk` and signs a message under it. -/
def quorumSigns (pk : Rsa.PublicKey) (t : Threshold) (n : Nat) (quorum : List IndexedBlob) :
    Proc Source ProtocolError Bool := do
  let signers ← Signers.ofBlobs t quorum
  if signers.publicKey ≠ pk then return false
  else
    match ← (signers.sign (probe n)).attempt with
    | .error e => do
      Proc.note .warn ("Rehearsal signing failed: " ++ ProtocolError.message e)
      return false
    | .ok signature => (pk.verify (probe n) signature : Outcome ProtocolError Bool)

/-- Lets the quorums sign under the encoded public key; how many did. -/
def rehearseSigning (t : Threshold) (c : Config) (signingKey : Bytes) :
    Proc Session ProtocolError Nat := do
  let pk ← (Rsa.PublicKey.ofDer signingKey).mapError ProtocolError.malformedInput
  let quorums ← Session.onCards (rehearsalQuorums t c.shareTag c.signingIdentifier)
  Session.onSource (tryQuorums "Signing" (quorumSigns pk t) 0 quorums)
  Proc.note .info s!"Signing rehearsal passed for {quorums.length} quorums"
  return quorums.length

end ThresholdKeys
