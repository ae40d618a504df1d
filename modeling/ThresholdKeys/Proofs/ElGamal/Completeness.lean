import ThresholdKeys.Proofs.ElGamal.RoundTrip

/-!
# Decryption proofs are complete

A proof is accepted exactly if its commitments are residues and two equations hold, one for each
base (`Proof.verifyWith_eq_true_iff`). The holder of the key answers the same challenge in both of
them, with exponents that matter modulo the order only (`Group.pow_mod_order`). Hence whatever
decrypts has a proof for every nonce and every challenge, and so has it for the digest of the
transcript: `provableDecrypt_complete`. Nothing is assumed of the ciphertext but that it decrypts.
-/

namespace ThresholdKeys

namespace Group

variable {G : Group}

/-- The response to a challenge, as an exponent. -/
theorem pow_mul_add (c k x nonce : Nat) :
    G.pow c (k * x + nonce) = G.mul (G.pow c nonce) (G.pow (G.pow c x) k) := by
  rw [← natCast_inj (pow_lt _ _) (mul_lt _ _)]
  simp only [natCast_pow, natCast_mul]
  rw [pow_add, mul_comm k x, pow_mul, mul_comm]

/-- Exponents of residues matter modulo the order only. -/
theorem pow_mod_order {c : Nat} (hc : G.isResidue c = true) (e : Nat) :
    G.pow c (e % G.order) = G.pow c e := by
  obtain ⟨-, -, hpow⟩ := isResidue_iff_cast.1 hc
  rw [← natCast_inj (pow_lt _ _) (pow_lt _ _), natCast_pow, natCast_pow, ← pow_eq_pow_mod _ hpow]

theorem pow_response {c : Nat} (hc : G.isResidue c = true) (k x nonce : Nat) :
    G.pow c ((k * x + nonce) % G.order) = G.mul (G.pow c nonce) (G.pow (G.pow c x) k) := by
  rw [pow_mod_order hc, pow_mul_add]

end Group

namespace ElGamal

variable {pk : PublicKey} {sk : PrivateKey} {ct : Ciphertext} {plaintext : Bytes} {k : Nat}

/-- What the check of a proof for the challenge `k` amounts to. -/
theorem Proof.verifyWith_eq_true_iff {proof : Proof} :
    proof.verifyWith k pk ct plaintext = .ok true ↔
      pk.parameters.group.isResidue proof.messageCommitment = true ∧
      pk.parameters.group.isResidue proof.keyCommitment = true ∧
      pk.parameters.group.pow pk.parameters.generator proof.response
        = pk.parameters.group.mul proof.keyCommitment (pk.parameters.group.pow pk.key k) ∧
      ∃ factor, blindingFactor pk.parameters ct plaintext = .ok factor ∧
        pk.parameters.group.pow ct.blind proof.response
          = pk.parameters.group.mul proof.messageCommitment
            (pk.parameters.group.pow factor k) := by
  simp only [verifyWith]
  cases pk.parameters.group.isResidue proof.messageCommitment with
  | false => simp
  | true =>
    cases pk.parameters.group.isResidue proof.keyCommitment with
    | false => simp
    | true =>
      by_cases hkey : pk.parameters.group.pow pk.parameters.generator proof.response
          = pk.parameters.group.mul proof.keyCommitment (pk.parameters.group.pow pk.key k)
      · simp [hkey, Outcome.bind_eq_ok]
      · simp [hkey]

/-! ## The proof of the key's holder -/

/-- Whatever the nonce and the challenge, the answer is accepted. -/
theorem verifyWith_answer (h : sk.decrypt ct = .ok plaintext) (nonce k : Nat) :
    (sk.answer ct nonce k).verifyWith k sk.publicKey ct plaintext = .ok true := by
  obtain ⟨hvalid, hfactor⟩ := blindingFactor_of_decrypt h
  have hblind := (Ciphertext.correctness_eq_valid_iff.1 hvalid).1
  have hgenerator := sk.parameters.isResidue_generator
  exact Proof.verifyWith_eq_true_iff.2
    ⟨Group.isResidue_pow hblind nonce, Group.isResidue_pow hgenerator nonce,
      Group.pow_response hgenerator k sk.secret nonce, _, hfactor,
      Group.pow_response hblind k sk.secret nonce⟩

/-- Once the ciphertext is decrypted, a decryption with proof runs as the draw of the nonce does. -/
theorem provableDecrypt_apply (h : sk.decrypt ct = .ok plaintext) {patience nonce : Nat}
    {s s' : Source} {log : List LogRecord}
    (hdraw : randomBelow sk.parameters.group.order patience s = ⟨.ok nonce, s', log⟩) :
    sk.provableDecrypt ct patience s = ⟨.ok ⟨plaintext,
      some (sk.answer ct nonce (sk.challengeOf ct plaintext nonce))⟩, s', log⟩ := by
  rw [PrivateKey.provableDecrypt, h, Proc.liftM_ok_bind]
  exact Proc.bind_pure_apply hdraw _

/-- A decryption with proof returns what decryption does, with the answer for the nonce drawn. -/
theorem provableDecrypt_eq_ok_iff {patience : Nat} {s : Source} {D : Decryption} :
    (sk.provableDecrypt ct patience s).outcome = .ok D ↔ ∃ plaintext nonce,
      sk.decrypt ct = .ok plaintext ∧
      (randomBelow sk.parameters.group.order patience s).outcome = .ok nonce ∧
      D = ⟨plaintext, some (sk.answer ct nonce (sk.challengeOf ct plaintext nonce))⟩ := by
  rw [PrivateKey.provableDecrypt, Proc.outcome_bind_eq_ok]
  constructor
  · rintro ⟨plaintext, hdecrypt, hdraw⟩
    obtain ⟨nonce, hnonce, hanswer⟩ := Proc.outcome_bind_eq_ok.1 hdraw
    cases hanswer
    exact ⟨plaintext, nonce, hdecrypt, hnonce, rfl⟩
  · rintro ⟨plaintext, nonce, hdecrypt, hnonce, rfl⟩
    exact ⟨plaintext, hdecrypt, Proc.outcome_bind_eq_ok.2 ⟨nonce, hnonce, rfl⟩⟩

/-- **Decryption proofs are complete.** A decryption with proof returns the plaintext that
decryption returns, and its proof is accepted; it would be with any other nonce, and with any other
number for the digest. -/
theorem provableDecrypt_complete (sk : PrivateKey) (ct : Ciphertext) (patience : Nat) (s : Source)
    {D : Decryption} (h : (sk.provableDecrypt ct patience s).outcome = .ok D) :
    sk.decrypt ct = .ok D.plaintext ∧
    (∃ nonce < sk.parameters.group.order, ∃ proof, D.proof = some proof ∧
      proof = sk.answer ct nonce (sk.challengeOf ct D.plaintext nonce) ∧
      proof.verify sk.publicKey ct D.plaintext = .ok true) ∧
    ∀ nonce k, (sk.answer ct nonce k).verifyWith k sk.publicKey ct D.plaintext = .ok true := by
  obtain ⟨plaintext, nonce, hdecrypt, hnonce, rfl⟩ := provableDecrypt_eq_ok_iff.1 h
  have hlt := randomBelow_ends sk.parameters.group.order_pos patience s
  rw [hnonce] at hlt
  exact ⟨hdecrypt, ⟨nonce, hlt, _, rfl, rfl, verifyWith_answer hdecrypt nonce _⟩,
    verifyWith_answer hdecrypt⟩

/-- A ciphertext that nobody blinded, with the nonce zero: both commitments are one. -/
theorem provableDecrypt_complete_zero_nonce :
    (smallKey.provableDecrypt ⟨1, 33488980⟩ 10 (.ofBytes [0x00, 0x00, 0x00, 0x00])).outcome
      = .ok ⟨[0x03], some ⟨1, 1, 13494408⟩⟩ ∧
    smallKey.decrypt ⟨1, 33488980⟩ = .ok [0x03] ∧
    (⟨1, 1, 13494408⟩ : Proof).verify smallKey.publicKey ⟨1, 33488980⟩ [0x03] = .ok true ∧
    ∀ nonce k, (smallKey.answer ⟨1, 33488980⟩ nonce k).verifyWith k smallKey.publicKey
      ⟨1, 33488980⟩ [0x03] = .ok true := by
  have hrun : (smallKey.provableDecrypt ⟨1, 33488980⟩ 10
      (.ofBytes [0x00, 0x00, 0x00, 0x00])).outcome = .ok ⟨[0x03], some ⟨1, 1, 13494408⟩⟩ := by
    decide +kernel
  obtain ⟨hdecrypt, ⟨-, -, proof, hproof, -, hverify⟩, hall⟩ :=
    provableDecrypt_complete smallKey ⟨1, 33488980⟩ 10 (.ofBytes [0x00, 0x00, 0x00, 0x00]) hrun
  cases hproof
  exact ⟨hrun, hdecrypt, hverify, hall⟩

end ElGamal

end ThresholdKeys
