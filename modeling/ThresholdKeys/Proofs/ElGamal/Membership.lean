import Mathlib.Algebra.Ring.Parity
import ThresholdKeys.Proofs.ElGamal.Completeness

/-!
# Which ciphertexts have proofs

The check of a proof looks whether the commitments are residues, and not whether the components of
the ciphertext are. All that it says of them is one equation between signs: the sign of the first
component to the response is that of the second one to the challenge (`sign_of_verifyWith`). Hence
an accepted proof is one for a ciphertext that decryption does not reject exactly if both components
are elements, one of them is a residue, and so is each whose exponent is even
(`correctness_of_verify`).

The rest is a gap. A pair of zeros is no ciphertext, and whoever holds the key has a proof that it
decrypts to any plaintext (`exists_proof_of_zeros`).
-/

namespace ThresholdKeys.ElGamal

variable {pk : PublicKey} {sk : PrivateKey} {ct : Ciphertext} {plaintext : Bytes} {proof : Proof}
  {k : Nat}

/-! ## What an accepted proof says -/

/-- The powers to the order, which are the signs of elements. -/
theorem sign_of_verifyWith (hp : pk.parameters.group.modulus.Prime)
    (h : proof.verifyWith k pk ct plaintext = .ok true) :
    ((ct.blind : ZMod pk.parameters.group.modulus) ^ pk.parameters.group.order) ^ proof.response
      = ((ct.blinded : ZMod pk.parameters.group.modulus) ^ pk.parameters.group.order) ^ k := by
  obtain ⟨hcommitment, -, -, factor, hfactor, hmessage⟩ := Proof.verifyWith_eq_true_iff.1 h
  obtain ⟨block, encoded, -, hencode, hdiv⟩ := blindingFactor_eq_ok_iff.1 hfactor
  have hresidue := (Group.decode_of_encode hp hencode).1
  obtain ⟨-, -, ha⟩ := Group.isResidue_iff_cast.1 hcommitment
  obtain ⟨-, -, hd⟩ := Group.isResidue_iff_cast.1 hresidue
  obtain ⟨-, hquotient⟩ := (Group.div_eq_ok_iff hresidue).1 hdiv
  have hcast := congrArg (fun n : Nat => (n : ZMod pk.parameters.group.modulus)) hmessage
  simp only [Group.natCast_pow, Group.natCast_mul] at hcast
  rw [← hquotient, mul_pow, hd, mul_one, pow_right_comm, hcast, mul_pow, ha, one_mul,
    pow_right_comm]

theorem neg_one_ne_one (G : Group) : (-1 : ZMod G.modulus) ≠ 1 := by
  have := Fact.mk (Nat.lt_of_lt_of_le (by decide) G.seven_le : 2 < G.modulus)
  exact ZMod.neg_one_ne_one

/-- If the first component alone is a residue, the challenge is even. -/
theorem even_challenge_of_verifyWith (hp : pk.parameters.group.modulus.Prime)
    (h : proof.verifyWith k pk ct plaintext = .ok true)
    (hblind : pk.parameters.group.isResidue ct.blind = true)
    (hblinded : pk.parameters.group.isElement ct.blinded = true)
    (hnot : pk.parameters.group.isResidue ct.blinded = false) : Even k := by
  have hsign := sign_of_verifyWith hp h
  rw [(Group.isResidue_iff_cast.1 hblind).2.2,
    Group.pow_order_of_not_isResidue hp hblinded hnot, one_pow] at hsign
  exact (neg_one_pow_eq_one_iff_even (neg_one_ne_one _)).1 hsign.symm

/-- If the second component alone is a residue, the response is even. -/
theorem even_response_of_verifyWith (hp : pk.parameters.group.modulus.Prime)
    (h : proof.verifyWith k pk ct plaintext = .ok true)
    (hblinded : pk.parameters.group.isResidue ct.blinded = true)
    (hblind : pk.parameters.group.isElement ct.blind = true)
    (hnot : pk.parameters.group.isResidue ct.blind = false) : Even proof.response := by
  have hsign := sign_of_verifyWith hp h
  rw [(Group.isResidue_iff_cast.1 hblinded).2.2,
    Group.pow_order_of_not_isResidue hp hblind hnot, one_pow] at hsign
  exact (neg_one_pow_eq_one_iff_even (neg_one_ne_one _)).1 hsign

/-- **When an accepted proof is one for a valid ciphertext**: exactly if what the check leaves out
holds, the range of both components, that one of them is a residue, and that each is one whose
exponent is even. -/
theorem correctness_of_verify (hp : pk.parameters.group.modulus.Prime)
    (h : proof.verify pk ct plaintext = .ok true) :
    ct.correctness pk.parameters.group = .valid ↔
      (pk.parameters.group.isElement ct.blind = true ∧
        pk.parameters.group.isElement ct.blinded = true) ∧
      (pk.parameters.group.isResidue ct.blind = true ∨
        pk.parameters.group.isResidue ct.blinded = true) ∧
      (Even proof.response → pk.parameters.group.isResidue ct.blind = true) ∧
      (Even (challenge pk ct plaintext proof.messageCommitment proof.keyCommitment) →
        pk.parameters.group.isResidue ct.blinded = true) := by
  rw [Ciphertext.correctness_eq_valid_iff]
  constructor
  · rintro ⟨hblind, hblinded⟩
    exact ⟨⟨Group.isElement_of_isResidue hblind, Group.isElement_of_isResidue hblinded⟩,
      Or.inl hblind, fun _ => hblind, fun _ => hblinded⟩
  · rintro ⟨⟨hblind, hblinded⟩, hone, hresponse, hchallenge⟩
    -- of two signs that are different, the minus one has an even exponent
    cases h1 : pk.parameters.group.isResidue ct.blind with
    | true =>
      cases h2 : pk.parameters.group.isResidue ct.blinded with
      | true => exact ⟨rfl, rfl⟩
      | false =>
        rw [hchallenge (even_challenge_of_verifyWith hp h h1 hblinded h2)] at h2
        cases h2
    | false =>
      have h2 : pk.parameters.group.isResidue ct.blinded = true := by
        rwa [h1, or_iff_right (by decide)] at hone
      rw [hresponse (even_response_of_verifyWith hp h h2 hblind h1)] at h1
      cases h1

/-- A proof whose response is odd, for a ciphertext of which only the second component is looked
at. -/
theorem correctness_of_verify_odd_response :
    (⟨16840663, 24580737, 15850507⟩ : Proof).verify smallKey.publicKey ⟨24580737, 24097978⟩ [0x03]
      = .ok true ∧
    (⟨24580737, 24097978⟩ : Ciphertext).correctness smallKey.publicKey.parameters.group
      = .valid := by
  have hverify : (⟨16840663, 24580737, 15850507⟩ : Proof).verify smallKey.publicKey
      ⟨24580737, 24097978⟩ [0x03] = .ok true := by decide +kernel
  have hblinded : smallKey.publicKey.parameters.group.isResidue 24097978 = true := by
    decide +kernel
  exact ⟨hverify, (correctness_of_verify smallKey_modulus_prime hverify).2
    ⟨⟨by decide, by decide⟩, Or.inr hblinded, fun heven => absurd heven (by decide),
      fun _ => hblinded⟩⟩

/-! ## The gap -/

theorem pow_zero_of_pos (G : Group) {e : Nat} (he : 0 < e) : G.pow 0 e = 0 := by
  rw [Group.pow, powMod_eq, Nat.zero_pow he, Nat.zero_mod]

/-- Every plaintext can be divided out of zero. -/
theorem blindingFactor_zeros {ps : Parameters} (hp : ps.group.modulus.Prime)
    (hfits : plaintext.length + 3 ≤ ps.group.messageLength) :
    blindingFactor ps ⟨0, 0⟩ plaintext = .ok 0 := by
  obtain ⟨hpos, -⟩ := Block.toNat_assemble hfits
  obtain ⟨encoded, hencode, hresidue, -⟩ :=
    Group.decode_encode hp hpos (Block.toNat_assemble_le_order hfits)
  refine blindingFactor_eq_ok_iff.2 ⟨_, encoded, Block.pad_eq_ok hfits, hencode, ?_⟩
  rw [Group.div_eq_ok_iff hresidue]
  exact ⟨ps.group.modulus_pos, by simp⟩

/-- For zeros nothing is checked but that the private key is known, and that does not depend on the
plaintext. -/
theorem verifyWith_zeros_iff (hp : pk.parameters.group.modulus.Prime)
    (hfits : plaintext.length + 3 ≤ pk.parameters.group.messageLength) (hk : 0 < k)
    (hresponse : 0 < proof.response) : proof.verifyWith k pk ⟨0, 0⟩ plaintext = .ok true ↔
      pk.parameters.group.isResidue proof.messageCommitment = true ∧
      pk.parameters.group.isResidue proof.keyCommitment = true ∧
      pk.parameters.group.pow pk.parameters.generator proof.response
        = pk.parameters.group.mul proof.keyCommitment (pk.parameters.group.pow pk.key k) := by
  have hmessage : pk.parameters.group.pow 0 proof.response
      = pk.parameters.group.mul proof.messageCommitment (pk.parameters.group.pow 0 k) := by
    rw [pow_zero_of_pos _ hk, pow_zero_of_pos _ hresponse, Group.mul, Nat.mul_zero, Nat.zero_mod]
  rw [Proof.verifyWith_eq_true_iff, blindingFactor_zeros hp hfits]
  simp [hmessage]

/-- **Zeros have proofs**: the holder of the key proves any plaintext for them. -/
theorem exists_proof_of_zeros (sk : PrivateKey) (hp : sk.parameters.group.modulus.Prime)
    (hfits : plaintext.length + 3 ≤ sk.parameters.group.messageLength) {nonce : Nat}
    (hnonce : 0 < nonce) (hchallenge : 0 < challenge sk.publicKey ⟨0, 0⟩ plaintext
      (sk.parameters.group.pow sk.parameters.generator nonce)
      (sk.parameters.group.pow sk.parameters.generator nonce)) :
    ∃ proof : Proof, proof.verify sk.publicKey ⟨0, 0⟩ plaintext = .ok true := by
  have hcommitment := Group.isResidue_pow sk.parameters.isResidue_generator nonce
  refine ⟨⟨_, _, _ * sk.secret + nonce⟩, (verifyWith_zeros_iff hp hfits hchallenge ?_).2
    ⟨hcommitment, hcommitment, Group.pow_mul_add _ _ _ _⟩⟩
  exact Nat.add_pos_right _ hnonce

/-- A proof that zeros decrypt to a plaintext, which they do not. -/
theorem zeros_verify_and_do_not_decrypt :
    smallKey.parameters.group.modulus.Prime ∧ smallKey.parameters.group.order.Prime ∧
    (⟨1024, 1024, 9144275⟩ : Proof).verify smallKey.publicKey ⟨0, 0⟩ [0x79] = .ok true ∧
    (⟨0, 0⟩ : Ciphertext).correctness smallKey.publicKey.parameters.group = .outside ∧
    smallKey.decrypt ⟨0, 0⟩ = .error .notElement :=
  ⟨smallKey_modulus_prime, smallKey_order_prime, by decide +kernel, by decide, by decide⟩

end ThresholdKeys.ElGamal
