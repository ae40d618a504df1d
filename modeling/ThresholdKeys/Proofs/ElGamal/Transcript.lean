import ThresholdKeys.Proofs.Der.Prefixes
import ThresholdKeys.Proofs.ElGamal.RoundTrip

/-!
# A challenge is about one statement

The challenge of a proof is the digest of a transcript. Its octets determine all that the proof is
about, down to the modulus, the generator and the election, so a proof for one statement has the
challenge of another only where the digest itself collides: `transcript_encode_eq_iff`. It holds for
plaintexts and numbers of any length that a length field can announce. That the digest does not
collide is not claimed.
-/

namespace ThresholdKeys.ElGamal

open Der

/-! ## Transcripts, call by call -/

/-- The parameters as they are written. -/
def Parameters.entry (ps : Parameters) : Entry :=
  .sequence [.identifier elGamalIdentifier,
    .sequence [.integer ps.group.modulus, .integer ps.generator, .utf8String ps.electionId]]

/-- The public key as it is written. -/
def PublicKey.entry (pk : PublicKey) : Entry :=
  .sequence [pk.parameters.entry, .integer pk.key]

/-- The ciphertext as it is written. -/
def Ciphertext.entry (ct : Ciphertext) : Entry :=
  .sequence [.identifier elGamalIdentifier, .integer ct.blind, .integer ct.blinded]

/-- The transcript as it is written. -/
def transcriptEntry (pk : PublicKey) (ct : Ciphertext) (plaintext : Bytes)
    (messageCommitment keyCommitment : Nat) : Entry :=
  .sequence [.octetString (Bytes.ofText "DECRYPTION"), pk.entry, ct.entry, .octetString plaintext,
    .integer messageCommitment, .integer keyCommitment]

theorem item_transcriptEntry (pk : PublicKey) (ct : Ciphertext) (plaintext : Bytes) (a b : Nat) :
    (transcriptEntry pk ct plaintext a b).item = transcript pk ct plaintext a b := rfl

/-! ## What a transcript holds -/

/-- Parameters are known from the tree they are written as. -/
theorem Parameters.item_inj {ps ps' : Parameters} (h : ps.item = ps'.item) : ps = ps' := by
  obtain ⟨⟨p, _, _⟩, g, name, _⟩ := ps
  obtain ⟨⟨p', _, _⟩, g', name', _⟩ := ps'
  simp only [item, Item.sequence.injEq, List.cons.injEq, Item.integer.injEq, Item.utf8String.injEq,
    true_and, and_true] at h
  obtain ⟨rfl, rfl, rfl⟩ := h
  rfl

theorem PublicKey.item_inj {pk pk' : PublicKey} (h : pk.item = pk'.item) : pk = pk' := by
  obtain ⟨ps, y, _⟩ := pk
  obtain ⟨ps', y', _⟩ := pk'
  simp only [item, Item.sequence.injEq, List.cons.injEq, Item.integer.injEq, and_true] at h
  obtain ⟨hps, rfl⟩ := h
  cases Parameters.item_inj hps
  rfl

theorem Ciphertext.item_inj {ct ct' : Ciphertext} (h : ct.item = ct'.item) : ct = ct' := by
  obtain ⟨c, d⟩ := ct
  obtain ⟨c', d'⟩ := ct'
  simp only [item, Item.sequence.injEq, List.cons.injEq, Item.integer.injEq, true_and,
    and_true] at h
  obtain ⟨rfl, rfl⟩ := h
  rfl

variable {pk pk' : PublicKey} {ct ct' : Ciphertext} {plaintext plaintext' : Bytes}
  {a a' b b' : Nat}

/-- Equal transcripts are about the same. -/
theorem transcript_inj (h : transcript pk ct plaintext a b = transcript pk' ct' plaintext' a' b') :
    pk = pk' ∧ ct = ct' ∧ plaintext = plaintext' ∧ a = a' ∧ b = b' := by
  simp only [transcript, Item.sequence.injEq, List.cons.injEq, Item.octetString.injEq,
    Item.integer.injEq, true_and, and_true] at h
  obtain ⟨hpk, hct, hplaintext, ha, hb⟩ := h
  exact ⟨PublicKey.item_inj hpk, Ciphertext.item_inj hct, hplaintext, ha, hb⟩

/-- Equal octets are about the same, if a length field can announce them. -/
theorem transcript_encode_inj
    (h : (transcriptEntry pk ct plaintext a b).content.length < lengthLimit)
    (h' : (transcriptEntry pk' ct' plaintext' a' b').content.length < lengthLimit)
    (heq : (transcript pk ct plaintext a b).encode
      = (transcript pk' ct' plaintext' a' b').encode) :
    pk = pk' ∧ ct = ct' ∧ plaintext = plaintext' ∧ a = a' ∧ b = b' := by
  have hencode : (transcriptEntry pk ct plaintext a b).item.encode ++ []
      = (transcriptEntry pk' ct' plaintext' a' b').item.encode ++ [] := by
    rw [item_transcriptEntry, item_transcriptEntry, heq]
  exact transcript_inj (Entry.item_inj h h' hencode).1

/-- A challenge is a digest as a number, and of digests of one length no two are the same number. -/
theorem challenge_eq_iff : challenge pk ct plaintext a b = challenge pk' ct' plaintext' a' b' ↔
    sha256 (transcript pk ct plaintext a b).encode
      = sha256 (transcript pk' ct' plaintext' a' b').encode := by
  constructor
  · intro h
    have hdigests := congrArg (Bytes.fixed 32) h
    unfold challenge at hdigests
    rwa [Bytes.fixed_toNat (length_sha256 _), Bytes.fixed_toNat (length_sha256 _)] at hdigests
  · intro h
    rw [challenge, challenge, h]

/-- **A transcript binds everything**: the octets that are hashed are the same only if the keys with
their parameters, the ciphertexts, the plaintexts and the commitments are. The content of the whole
contains all other contents, so the bound on it is a bound on all of them. The challenge is the
digest of these octets, and two challenges are the same exactly if the digests are, so that one
challenge of two statements is a collision of the digest. -/
theorem transcript_encode_eq_iff
    (h : (transcriptEntry pk ct plaintext a b).content.length < lengthLimit)
    (h' : (transcriptEntry pk' ct' plaintext' a' b').content.length < lengthLimit) :
    ((transcript pk ct plaintext a b).encode = (transcript pk' ct' plaintext' a' b').encode ↔
      pk = pk' ∧ ct = ct' ∧ plaintext = plaintext' ∧ a = a' ∧ b = b') ∧
    challenge pk ct plaintext a b
      = Bytes.toNat (sha256 (transcript pk ct plaintext a b).encode) ∧
    (challenge pk ct plaintext a b = challenge pk' ct' plaintext' a' b' ↔
      sha256 (transcript pk ct plaintext a b).encode
        = sha256 (transcript pk' ct' plaintext' a' b').encode) := by
  refine ⟨⟨transcript_encode_inj h h', fun heq => ?_⟩, rfl, challenge_eq_iff⟩
  obtain ⟨rfl, rfl, rfl, rfl, rfl⟩ := heq
  rfl

/-- The key of another election with the same group, generator and residue. -/
def parishKey : PublicKey where
  parameters := { smallKey.parameters with electionId := "parish" }
  key := smallKey.publicKey.key
  isResidue := smallKey.publicKey.isResidue

/-- What is proved in one election is not proved in the other. -/
theorem transcript_encode_ne_parishKey :
    (transcriptEntry smallKey.publicKey ⟨4, 16⟩ [0x79] 64 256).content.length < lengthLimit ∧
    (transcriptEntry parishKey ⟨4, 16⟩ [0x79] 64 256).content.length < lengthLimit ∧
    (transcript smallKey.publicKey ⟨4, 16⟩ [0x79] 64 256).encode
      ≠ (transcript parishKey ⟨4, 16⟩ [0x79] 64 256).encode ∧
    challenge smallKey.publicKey ⟨4, 16⟩ [0x79] 64 256
      ≠ challenge parishKey ⟨4, 16⟩ [0x79] 64 256 := by
  have h : (transcriptEntry smallKey.publicKey ⟨4, 16⟩ [0x79] 64 256).content.length
      < lengthLimit := by decide +kernel
  have h' : (transcriptEntry parishKey ⟨4, 16⟩ [0x79] 64 256).content.length < lengthLimit := by
    decide +kernel
  obtain ⟨hoctets, -, hchallenges⟩ := transcript_encode_eq_iff h h'
  refine ⟨h, h', fun heq => ?_, fun heq => ?_⟩
  · obtain ⟨hkey, -⟩ := hoctets.1 heq
    have hname : smallKey.parameters.electionId = "parish" :=
      congrArg (fun pk => pk.parameters.electionId) hkey
    exact absurd hname (by decide)
  · exact absurd (hchallenges.1 heq) (by decide +kernel)

end ThresholdKeys.ElGamal
