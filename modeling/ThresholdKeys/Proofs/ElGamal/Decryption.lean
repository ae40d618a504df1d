import ThresholdKeys.ElGamal.Proof
import ThresholdKeys.Proofs.ElGamal.Blocks
import ThresholdKeys.Proofs.ElGamal.Residues

/-!
# What a plaintext says about a ciphertext

Decryption takes the blinding off a ciphertext and looks what plaintext is left. A verifier goes the
other way: it divides an encoded plaintext out and looks what blinding is left, the
`blindingFactor`. Each step of the one is undone by a step of the other, so the two agree for every
pair of residues (`decrypt_iff_blindingFactor`): a ciphertext decrypts to a plaintext exactly if the
blinding factor that the plaintext leaves is the power of the first component to the private
exponent.
-/

namespace ThresholdKeys.ElGamal

variable {ps : Parameters} {sk : PrivateKey} {ct : Ciphertext} {plaintext : Bytes} {factor : Nat}

theorem Parameters.isResidue_generator (ps : Parameters) :
    ps.group.isResidue ps.generator = true := by
  have h := ps.generates
  rw [Group.isGenerator, Bool.and_eq_true] at h
  exact h.2

theorem Ciphertext.correctness_eq_valid_iff {G : Group} {ct : Ciphertext} :
    ct.correctness G = .valid ↔ G.isResidue ct.blind = true ∧ G.isResidue ct.blinded = true := by
  rw [← Group.standing_eq_residue_iff, ← Group.standing_eq_residue_iff, correctness]
  cases G.standing ct.blind <;> cases G.standing ct.blinded <;> simp

/-- The steps of a division by a plaintext that goes through. -/
theorem blindingFactor_eq_ok_iff : blindingFactor ps ct plaintext = .ok factor ↔
    ∃ block encoded, Block.pad plaintext ps.group.messageLength = .ok block ∧
      ps.group.encode (Bytes.toNat block) = .ok encoded ∧
      ps.group.div ct.blinded encoded = .ok factor := by
  simp only [blindingFactor, Outcome.bind_eq_ok]
  constructor
  · rintro ⟨block, hpad, encoded, hencode, hdiv⟩
    exact ⟨block, encoded, hpad, hencode, hdiv⟩
  · rintro ⟨block, encoded, hpad, hencode, hdiv⟩
    exact ⟨block, hpad, encoded, hencode, hdiv⟩

/-- The steps of a decryption that goes through. -/
theorem decrypt_eq_ok_iff : sk.decrypt ct = .ok plaintext ↔
    ct.correctness sk.parameters.group = .valid ∧
    ∃ block encoded, block.length = sk.parameters.group.messageLength ∧
      sk.parameters.group.div ct.blinded (sk.parameters.group.pow ct.blind sk.secret)
        = .ok encoded ∧
      sk.parameters.group.decode encoded = .ok (Bytes.toNat block) ∧
      Block.unpad block = .ok plaintext := by
  cases hvalid : ct.correctness sk.parameters.group with
  | valid =>
    simp only [PrivateKey.decrypt, hvalid, Outcome.bind_eq_ok, true_and]
    constructor
    · rintro ⟨encoded, hdiv, decoded, hdecode, block, hblock, hunpad⟩
      cases hfixed : Bytes.fixed? decoded sk.parameters.group.messageLength with
      | none =>
        rw [hfixed] at hblock
        cases hblock
      | some block' =>
        rw [hfixed] at hblock
        cases hblock
        obtain ⟨hlen, rfl⟩ := Bytes.fixed?_eq_some_iff.1 hfixed
        exact ⟨block, encoded, hlen, hdiv, hdecode, hunpad⟩
    · rintro ⟨block, encoded, hlen, hdiv, hdecode, hunpad⟩
      refine ⟨encoded, hdiv, _, hdecode, block, ?_, hunpad⟩
      rw [Bytes.fixed?_eq_some_iff.2 ⟨hlen, rfl⟩]
      rfl
  | malformed => simp [PrivateKey.decrypt, hvalid]
  | outside => simp [PrivateKey.decrypt, hvalid]
  | nonResidue => simp [PrivateKey.decrypt, hvalid]

/-- A plaintext that was decrypted leaves the factor that was taken off, whatever the modulus. -/
theorem blindingFactor_of_decrypt (h : sk.decrypt ct = .ok plaintext) :
    ct.correctness sk.parameters.group = .valid ∧
      blindingFactor sk.parameters ct plaintext
        = .ok (sk.parameters.group.pow ct.blind sk.secret) := by
  obtain ⟨hvalid, block, encoded, hlen, hdiv, hdecode, hunpad⟩ := decrypt_eq_ok_iff.1 h
  have hfactor := Group.isResidue_pow (Ciphertext.correctness_eq_valid_iff.1 hvalid).1 sk.secret
  obtain ⟨hresidue, hencode⟩ := Group.encode_of_decode hdecode
  rw [Block.unpad_eq_ok_iff, hlen] at hunpad
  exact ⟨hvalid, blindingFactor_eq_ok_iff.2
    ⟨block, encoded, hunpad, hencode, (Group.div_eq_ok_comm hfactor hresidue).1 hdiv⟩⟩

/-- **Decryption and division by the plaintext agree.** -/
theorem decrypt_iff_blindingFactor (hp : sk.parameters.group.modulus.Prime) :
    sk.decrypt ct = .ok plaintext ↔ ct.correctness sk.parameters.group = .valid ∧
      blindingFactor sk.parameters ct plaintext
        = .ok (sk.parameters.group.pow ct.blind sk.secret) := by
  refine ⟨blindingFactor_of_decrypt, ?_⟩
  rintro ⟨hvalid, hleft⟩
  obtain ⟨block, encoded, hpad, hencode, hdiv⟩ := blindingFactor_eq_ok_iff.1 hleft
  have hfactor := Group.isResidue_pow (Ciphertext.correctness_eq_valid_iff.1 hvalid).1 sk.secret
  obtain ⟨hresidue, hdecode⟩ := Group.decode_of_encode hp hencode
  have hlen : block.length = sk.parameters.group.messageLength := by
    obtain ⟨hfits, rfl⟩ := Block.pad_eq_ok_iff.1 hpad
    exact Block.length_assemble hfits
  rw [← hlen, ← Block.unpad_eq_ok_iff] at hpad
  exact decrypt_eq_ok_iff.2
    ⟨hvalid, block, encoded, hlen, (Group.div_eq_ok_comm hfactor hresidue).2 hdiv, hdecode, hpad⟩

end ThresholdKeys.ElGamal
