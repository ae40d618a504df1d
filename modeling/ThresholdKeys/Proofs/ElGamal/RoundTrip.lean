import Mathlib.Tactic.NormNum.Prime
import ThresholdKeys.Proofs.Der.Sizes
import ThresholdKeys.Proofs.ElGamal.Decryption
import ThresholdKeys.Proofs.Entropy.Draws

/-!
# Decryption undoes encryption

A ciphertext under the public key of `x`, with whatever exponent it is blinded, is a pair of
residues and decrypts under `x` to the message (`decrypt_blinded`). Encryption ends with such a
pair, with the cause that the source of entropy states, or not at all: `decrypt_encrypt`. The bound
on the encoding of the parameters is that of the machine; it is for the ciphertext's encoding, whose
numbers are below the modulus.
-/

namespace ThresholdKeys.ElGamal

variable {sk : PrivateKey} {message : Bytes}

/-- Both parties compute the same blinding factor. -/
theorem pow_pow_comm (sk : PrivateKey) (r : Nat) :
    sk.parameters.group.pow (sk.parameters.group.pow sk.parameters.generator r) sk.secret
      = sk.parameters.group.pow sk.publicKey.key r := by
  simp only [PrivateKey.publicKey, Group.pow, powMod_eq]
  rw [← Nat.pow_mod, ← Nat.pow_mod, ← Nat.pow_mul, ← Nat.pow_mul, Nat.mul_comm]

theorem correctness_blinded (pk : PublicKey) (hp : pk.parameters.group.modulus.Prime)
    {encoded : Nat} (he : pk.parameters.group.isResidue encoded = true) (r : Nat) :
    (blinded pk encoded r).correctness pk.parameters.group = .valid := by
  have h1 := Group.isResidue_pow pk.parameters.isResidue_generator r
  have h2 := Group.isResidue_mul hp he (Group.isResidue_pow pk.isResidue r)
  rw [Ciphertext.correctness, blinded, Group.standing_of_isResidue h1,
    Group.standing_of_isResidue h2]

/-- The encoding of a blinded message is found to be valid. -/
theorem checkCiphertext_blinded (pk : PublicKey) (hp : pk.parameters.group.modulus.Prime)
    (hsize : pk.parameters.toDer.length < Der.addressLimit) {encoded : Nat}
    (he : pk.parameters.group.isResidue encoded = true) (r : Nat) :
    pk.checkCiphertext (blinded pk encoded r).toDer = .valid := by
  have h1 : (blinded pk encoded r).blind < pk.parameters.group.modulus :=
    powMod_lt pk.parameters.group.modulus_pos _ _
  have h2 : (blinded pk encoded r).blinded < pk.parameters.group.modulus :=
    Nat.mod_lt _ pk.parameters.group.modulus_pos
  rw [PublicKey.checkCiphertext,
    Ciphertext.ofDer_toDer (Ciphertext.length_toDer_lt hsize h1 h2)]
  exact correctness_blinded pk hp he r

/-- **Whatever the blinding, the message comes back.** -/
theorem decrypt_blinded (sk : PrivateKey) (hp : sk.parameters.group.modulus.Prime)
    (h : message.length + 3 ≤ sk.parameters.group.messageLength) {encoded : Nat}
    (he : sk.parameters.group.isResidue encoded = true)
    (hdecode : sk.parameters.group.decode encoded
      = .ok (Bytes.toNat (Block.assemble message sk.parameters.group.messageLength)))
    (r : Nat) : sk.decrypt (blinded sk.publicKey encoded r) = .ok message := by
  have hvalid := correctness_blinded sk.publicKey hp he r
  have hparameters : sk.publicKey.parameters = sk.parameters := rfl
  refine (decrypt_iff_blindingFactor hp).2 ⟨hvalid, blindingFactor_eq_ok_iff.2
    ⟨_, encoded, Block.pad_eq_ok h, (Group.encode_of_decode hdecode).2, ?_⟩⟩
  rw [Group.div_eq_ok_iff he]
  refine ⟨Group.pow_lt _ _, ?_⟩
  rw [blinded, hparameters, pow_pow_comm, Group.natCast_mul, mul_comm]

/-! ## Encryption -/

theorem encrypt_eq_error (pk : PublicKey) (h : pk.parameters.group.messageLength
    < message.length + 3) (k : Nat) (s : Source) :
    (pk.encrypt message k s).outcome = .error .messageTooLong := by
  rw [PublicKey.encrypt, Block.pad_eq_error h, Proc.liftM_error_bind]
  rfl

/-- Once the message is encoded, encryption runs as the draw of the exponent does. -/
theorem encrypt_apply (pk : PublicKey)
    (h : message.length + 3 ≤ pk.parameters.group.messageLength) {encoded : Nat}
    (he : pk.parameters.group.encode
      (Bytes.toNat (Block.assemble message pk.parameters.group.messageLength)) = .ok encoded)
    {k : Nat} {s s' : Source} {o : Outcome ArithmeticError Nat} {log : List LogRecord}
    (hdraw : randomNonzeroBelow pk.parameters.group.order k s = ⟨o, s', log⟩) :
    pk.encrypt message k s = ⟨blinded pk encoded <$> o, s', log⟩ := by
  rw [PublicKey.encrypt, Block.pad_eq_ok h, Proc.liftM_ok_bind, he, Proc.liftM_ok_bind]
  exact Proc.bind_pure_apply hdraw _

theorem outcome_encrypt (pk : PublicKey)
    (h : message.length + 3 ≤ pk.parameters.group.messageLength) {encoded : Nat}
    (he : pk.parameters.group.encode
      (Bytes.toNat (Block.assemble message pk.parameters.group.messageLength)) = .ok encoded)
    (k : Nat) (s : Source) : (pk.encrypt message k s).outcome
      = blinded pk encoded <$> (randomNonzeroBelow pk.parameters.group.order k s).outcome :=
  congrArg Run.outcome (encrypt_apply pk h he rfl)

/-- **Decryption undoes encryption.** A message that fits is encrypted to a valid ciphertext that
decrypts to it, unless the draw of the exponent fails for want of entropy, which is then the cause
of the refusal, or does not end; a longer one is refused. -/
theorem decrypt_encrypt (sk : PrivateKey) (hp : sk.parameters.group.modulus.Prime)
    (hsize : sk.parameters.toDer.length < Der.addressLimit) (message : Bytes) (k : Nat)
    (s : Source) :
    (message.length + 3 ≤ sk.parameters.group.messageLength →
      match (sk.publicKey.encrypt message k s).outcome with
      | .ok ct => sk.publicKey.checkCiphertext ct.toDer = .valid ∧ sk.decrypt ct = .ok message
      | .error e => e.IsEntropy ∧
          (randomNonzeroBelow sk.parameters.group.order k s).outcome = .error e
      | .fault => False
      | .stalled => (randomNonzeroBelow sk.parameters.group.order k s).outcome = .stalled) ∧
    (sk.parameters.group.messageLength < message.length + 3 →
      (sk.publicKey.encrypt message k s).outcome = .error .messageTooLong) := by
  have hparameters : sk.publicKey.parameters = sk.parameters := rfl
  constructor
  · intro h
    obtain ⟨hpos, -⟩ := Block.toNat_assemble h
    obtain ⟨encoded, he, hresidue, hdecode⟩ :=
      Group.decode_encode hp hpos (Block.toNat_assemble_le_order h)
    have horder := sk.parameters.group.three_le_order
    have hdraw := randomNonzeroBelow_ends (Nat.lt_of_lt_of_le (by decide) horder) k s
    rw [outcome_encrypt sk.publicKey h he, hparameters]
    cases hrun : (randomNonzeroBelow sk.parameters.group.order k s).outcome with
    | ok r =>
      exact ⟨checkCiphertext_blinded sk.publicKey hp hsize hresidue r,
        decrypt_blinded sk hp h hresidue hdecode r⟩
    | error e =>
      rw [hrun] at hdraw
      exact ⟨hdraw, rfl⟩
    | fault =>
      rw [hrun] at hdraw
      exact hdraw
    | stalled => rfl
  · intro h
    exact encrypt_eq_error sk.publicKey h k s

/-- A key in a group whose blocks have four octets, room for a message of one. -/
def smallKey : PrivateKey where
  parameters :=
    { group := ⟨33554519, by decide, by decide⟩
      generator := 4
      electionId := "council"
      generates := by decide +kernel }
  secret := 12345678
  secret_lt := by decide

theorem smallKey_modulus_prime : smallKey.parameters.group.modulus.Prime := by
  show Nat.Prime 33554519
  norm_num

theorem smallKey_order_prime : smallKey.parameters.group.order.Prime := by
  show Nat.Prime ((33554519 - 1) / 2)
  norm_num

/-- A message whose block is no residue, blinded with octets that an operator put in. -/
theorem decrypt_encrypt_nonresidue :
    ∃ ct, (smallKey.publicKey.encrypt [0x03] 10 (.ofBytes [0x00, 0x12, 0x34, 0x56])).outcome
        = .ok ct ∧
      smallKey.publicKey.checkCiphertext ct.toDer = .valid ∧ smallKey.decrypt ct = .ok [0x03] := by
  have hrun : (smallKey.publicKey.encrypt [0x03] 10 (.ofBytes [0x00, 0x12, 0x34, 0x56])).outcome
      = .ok ⟨24580737, 24097978⟩ := by decide +kernel
  have hp : smallKey.parameters.group.modulus.Prime := by
    show Nat.Prime 33554519
    norm_num
  have h := (decrypt_encrypt smallKey hp (by decide +kernel) [0x03] 10
    (.ofBytes [0x00, 0x12, 0x34, 0x56])).1 (by decide +kernel)
  rw [hrun] at h
  exact ⟨_, hrun, h⟩

end ThresholdKeys.ElGamal
