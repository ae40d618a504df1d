import Mathlib.GroupTheory.OrderOfElement
import ThresholdKeys.Proofs.ElGamal.Completeness

/-!
# Decryption proofs are sound

Two answers to different challenges on the same commitments determine an exponent that carries
either base to its target, and which exponent depends on the challenges and responses only
(`eq_zpow_of_two_answers`). One base is the generator and its target the public key, so that the
exponent is the private key; the other base is the first component of the ciphertext, and its target
is the blinding factor that the plaintext leaves. Hence the plaintext is that of decryption
(`decrypt_of_two_answers`), and a prover of any other plaintext can answer one class of challenges
at most.

The order is prime here for two reasons: differences of challenges are invertible modulo it, and
the generator has no smaller order.
-/

namespace ThresholdKeys

/-! ## Extraction -/

section Extraction

variable {U : Type*} [CommGroup U] {q : Nat}

/-- The target is a power of the base whose exponent the two answers determine; `e` is the inverse
of the difference of the challenges. -/
theorem eq_zpow_of_two_answers {base target commitment : U} {k k' s s' : Nat} {e : Int}
    (he : (((k - k') * e : Int) : ZMod q) = (1 : Int)) (ht : target ^ q = 1)
    (h : base ^ s = commitment * target ^ k) (h' : base ^ s' = commitment * target ^ k') :
    target = base ^ (((s : Int) - s') * e) := by
  have hdiff : base ^ ((s : Int) - s') = target ^ ((k : Int) - k') := by
    rw [zpow_sub, zpow_sub, zpow_natCast, zpow_natCast, zpow_natCast, zpow_natCast, h, h',
      mul_inv, mul_mul_mul_comm, mul_inv_cancel, one_mul]
  rw [zpow_mul, hdiff, ← zpow_mul, zpow_eq_of_intCast_eq ht he, zpow_one]

/-- Different challenges have an invertible difference modulo a prime. -/
theorem exists_inverse_difference (hq : q.Prime) {k k' : Nat} (hne : k % q ≠ k' % q) :
    ∃ e : Int, (((k - k') * e : Int) : ZMod q) = (1 : Int) := by
  have := Fact.mk hq
  have hsub : (k : ZMod q) - k' ≠ 0 := by
    rw [sub_ne_zero, Ne, ZMod.natCast_eq_natCast_iff']
    exact hne
  refine ⟨(((k : ZMod q) - k')⁻¹.val : Nat), ?_⟩
  push_cast
  rw [ZMod.natCast_zmod_val, mul_inv_cancel₀ hsub]

/-- Powers of an element of prime order determine their exponents modulo the order. -/
theorem intCast_eq_of_zpow_eq (hq : q.Prime) {u : U} (hu : u ^ q = 1) (hu1 : u ≠ 1) {a b : Int}
    (h : u ^ a = u ^ b) : (a : ZMod q) = b := by
  have := Fact.mk hq
  rw [zpow_eq_zpow_iff_modEq, orderOf_eq_prime hu hu1] at h
  exact (ZMod.intCast_eq_intCast_iff a b q).2 h

/-- **Extraction**: two answers to different challenges, for a base whose target is its power to
`x` and for another base, prove that the other target is the power to `x` too. -/
theorem eq_pow_of_two_answers (hq : q.Prime) {g y b c f a : U} {x k k' s s' : Nat}
    (hg : g ^ q = 1) (hg1 : g ≠ 1) (hc : c ^ q = 1) (hf : f ^ q = 1) (hy : y = g ^ x)
    (hne : k % q ≠ k' % q) (hkey : g ^ s = b * y ^ k) (hkey' : g ^ s' = b * y ^ k')
    (hmessage : c ^ s = a * f ^ k) (hmessage' : c ^ s' = a * f ^ k') : f = c ^ x := by
  obtain ⟨e, he⟩ := exists_inverse_difference hq hne
  have hy1 : y ^ q = 1 := by rw [hy, ← pow_mul, mul_comm, pow_mul, hg, one_pow]
  have hexponent : g ^ (((s : Int) - s') * e) = g ^ (x : Int) := by
    rw [← eq_zpow_of_two_answers he hy1 hkey hkey', hy, zpow_natCast]
  rw [eq_zpow_of_two_answers he hf hmessage hmessage',
    zpow_eq_of_intCast_eq hc (intCast_eq_of_zpow_eq hq hg hg1 hexponent), zpow_natCast]

end Extraction

/-- An equation between powers of residues, in the group of units. -/
theorem Group.units_equation {G : Group} {base commitment target s k : Nat}
    {u v w : (ZMod G.modulus)ˣ} (hu : (base : ZMod G.modulus) = u)
    (hv : (commitment : ZMod G.modulus) = v) (hw : (target : ZMod G.modulus) = w)
    (h : G.pow base s = G.mul commitment (G.pow target k)) : u ^ s = v * w ^ k := by
  have hcast := congrArg (fun n : Nat => (n : ZMod G.modulus)) h
  simp only [natCast_pow, natCast_mul, hu, hv, hw] at hcast
  exact Units.ext (by rw [Units.val_mul, Units.val_pow_eq_pow_val, Units.val_pow_eq_pow_val, hcast])

namespace ElGamal

variable {sk : PrivateKey} {ct : Ciphertext} {plaintext : Bytes} {a b k k' s s' : Nat}

/-- The generator as a unit: its power to the order is one, and itself is not. -/
theorem Parameters.exists_unit_generator (ps : Parameters) :
    ∃ u : (ZMod ps.group.modulus)ˣ,
      (ps.generator : ZMod ps.group.modulus) = u ∧ u ^ ps.group.order = 1 ∧ u ≠ 1 := by
  obtain ⟨hlt, u, hu, hu1⟩ := Group.isResidue_iff_unit.1 ps.isResidue_generator
  refine ⟨u, hu, hu1, ?_⟩
  rintro rfl
  have hone : (ps.generator : ZMod ps.group.modulus) = (1 : Nat) := by rw [hu]; simp
  have h1 := (Group.natCast_inj hlt (Nat.lt_of_lt_of_le (by decide) ps.group.seven_le)).1 hone
  have h := ps.generates
  rw [h1] at h
  simp [Group.isGenerator] at h

/-- **A public key determines the private one**, since exponents are below the order. -/
theorem PrivateKey.secret_eq_of_publicKey {sk sk' : PrivateKey}
    (hq : sk.parameters.group.order.Prime) (h : sk.publicKey = sk'.publicKey) :
    sk.secret = sk'.secret := by
  obtain ⟨ps, x, hx⟩ := sk
  obtain ⟨ps', x', hx'⟩ := sk'
  obtain ⟨hps, hkey⟩ := PublicKey.mk.inj h
  dsimp only at hq hps hkey
  subst hps
  obtain ⟨u, hu, hu1, hne⟩ := ps.exists_unit_generator
  have hunit : u ^ x = u ^ x' := by
    have hcast := congrArg (fun n : Nat => (n : ZMod ps.group.modulus)) hkey
    simp only [Group.natCast_pow, hu] at hcast
    exact Units.ext (by rw [Units.val_pow_eq_pow_val, Units.val_pow_eq_pow_val, hcast])
  have hexponent : (x : ZMod ps.group.order) = x' := by
    have hz : u ^ (x : Int) = u ^ (x' : Int) := by rw [zpow_natCast, zpow_natCast, hunit]
    simpa using intCast_eq_of_zpow_eq hq hu1 hne hz
  exact (natCast_inj_of_lt hx hx').1 hexponent

/-- A plaintext leaves a residue, if the second component is one. -/
theorem isResidue_blindingFactor {ps : Parameters} {factor : Nat} (hp : ps.group.modulus.Prime)
    (hblinded : ps.group.isResidue ct.blinded = true)
    (h : blindingFactor ps ct plaintext = .ok factor) : ps.group.isResidue factor = true := by
  obtain ⟨block, encoded, -, hencode, hdiv⟩ := blindingFactor_eq_ok_iff.1 h
  exact Group.isResidue_of_div hblinded (Group.decode_of_encode hp hencode).1 hdiv

/-- Who can answer two challenges divides by the plaintext that decryption finds. -/
theorem blindingFactor_of_two_answers (hp : sk.parameters.group.modulus.Prime)
    (hq : sk.parameters.group.order.Prime)
    (hblind : sk.parameters.group.isResidue ct.blind = true)
    (hblinded : sk.parameters.group.isResidue ct.blinded = true)
    (hne : k % sk.parameters.group.order ≠ k' % sk.parameters.group.order)
    (h : (⟨a, b, s⟩ : Proof).verifyWith k sk.publicKey ct plaintext = .ok true)
    (h' : (⟨a, b, s'⟩ : Proof).verifyWith k' sk.publicKey ct plaintext = .ok true) :
    blindingFactor sk.parameters ct plaintext
      = .ok (sk.parameters.group.pow ct.blind sk.secret) := by
  have hparameters : sk.publicKey.parameters = sk.parameters := rfl
  obtain ⟨ha, hb, hkey, factor, hfactor, hmessage⟩ := Proof.verifyWith_eq_true_iff.1 h
  obtain ⟨-, -, hkey', factor', hfactor', hmessage'⟩ := Proof.verifyWith_eq_true_iff.1 h'
  rw [hparameters] at ha hb hkey hfactor hmessage hkey' hfactor' hmessage'
  rw [hfactor] at hfactor' ⊢
  cases hfactor'
  obtain ⟨-, ua, hua, -⟩ := Group.isResidue_iff_unit.1 ha
  obtain ⟨-, ub, hub, -⟩ := Group.isResidue_iff_unit.1 hb
  obtain ⟨-, uc, huc, huc1⟩ := Group.isResidue_iff_unit.1 hblind
  obtain ⟨hlt, uf, huf, huf1⟩ :=
    Group.isResidue_iff_unit.1 (isResidue_blindingFactor hp hblinded hfactor)
  obtain ⟨ug, hug, hug1, hne1⟩ := sk.parameters.exists_unit_generator
  have huy : (sk.publicKey.key : ZMod sk.parameters.group.modulus) = ↑(ug ^ sk.secret) := by
    rw [PrivateKey.publicKey, Group.natCast_pow, hug, Units.val_pow_eq_pow_val]
  have hpower : uf = uc ^ sk.secret := eq_pow_of_two_answers hq hug1 hne1 huc1 huf1 rfl hne
    (Group.units_equation hug hub huy hkey) (Group.units_equation hug hub huy hkey')
    (Group.units_equation huc hua huf hmessage) (Group.units_equation huc hua huf hmessage')
  rw [Outcome.ok.injEq, ← Group.natCast_inj hlt (Group.pow_lt _ _), Group.natCast_pow, huf, huc,
    hpower, Units.val_pow_eq_pow_val]

/-- Two answers to different challenges prove the plaintext of decryption. -/
theorem decrypt_of_different_challenges (hp : sk.parameters.group.modulus.Prime)
    (hq : sk.parameters.group.order.Prime)
    (hblind : sk.parameters.group.isResidue ct.blind = true)
    (hblinded : sk.parameters.group.isResidue ct.blinded = true)
    (hne : k % sk.parameters.group.order ≠ k' % sk.parameters.group.order)
    (h : (⟨a, b, s⟩ : Proof).verifyWith k sk.publicKey ct plaintext = .ok true)
    (h' : (⟨a, b, s'⟩ : Proof).verifyWith k' sk.publicKey ct plaintext = .ok true) :
    sk.decrypt ct = .ok plaintext :=
  (decrypt_iff_blindingFactor hp).2 ⟨Ciphertext.correctness_eq_valid_iff.2 ⟨hblind, hblinded⟩,
    blindingFactor_of_two_answers hp hq hblind hblinded hne h h'⟩

/-- **Decryption proofs are sound.** For a ciphertext of residues, whoever answers two challenges
that differ modulo the order on the same commitments, whatever the commitments, proves the plaintext
of decryption; so for any other plaintext one class of challenges at most has an answer. -/
theorem decrypt_of_two_answers (sk : PrivateKey) (hp : sk.parameters.group.modulus.Prime)
    (hq : sk.parameters.group.order.Prime) {ct : Ciphertext}
    (hblind : sk.parameters.group.isResidue ct.blind = true)
    (hblinded : sk.parameters.group.isResidue ct.blinded = true) (plaintext : Bytes) (a b : Nat) :
    (∀ k s k' s', k % sk.parameters.group.order ≠ k' % sk.parameters.group.order →
      (⟨a, b, s⟩ : Proof).verifyWith k sk.publicKey ct plaintext = .ok true →
      (⟨a, b, s'⟩ : Proof).verifyWith k' sk.publicKey ct plaintext = .ok true →
      sk.decrypt ct = .ok plaintext) ∧
    (sk.decrypt ct ≠ .ok plaintext → ∃ c, ∀ k s,
      (⟨a, b, s⟩ : Proof).verifyWith k sk.publicKey ct plaintext = .ok true →
      k % sk.parameters.group.order = c) := by
  refine ⟨?_, fun hwrong => ?_⟩
  · intro k s k' s' hne h h'
    exact decrypt_of_different_challenges hp hq hblind hblinded hne h h'
  · by_cases hsome : ∃ k s, (⟨a, b, s⟩ : Proof).verifyWith k sk.publicKey ct plaintext = .ok true
    · obtain ⟨k', s', h'⟩ := hsome
      refine ⟨k' % sk.parameters.group.order, fun k s h => ?_⟩
      by_contra hne
      exact hwrong (decrypt_of_different_challenges hp hq hblind hblinded hne h h')
    · exact ⟨0, fun k s h => absurd ⟨k, s, h⟩ hsome⟩

/-- Answers to one and two on the commitments of a nonce prove the plaintext. Another plaintext has
an answer to zero on them, and hence to multiples of the order only. -/
theorem decrypt_of_two_answers_one_and_two :
    (⟨28480559, 1024, 12345683⟩ : Proof).verifyWith 1 smallKey.publicKey ⟨24580737, 24097978⟩
        [0x03] = .ok true ∧
    (⟨28480559, 1024, 7914102⟩ : Proof).verifyWith 2 smallKey.publicKey ⟨24580737, 24097978⟩
        [0x03] = .ok true ∧
    smallKey.decrypt ⟨24580737, 24097978⟩ = .ok [0x03] ∧
    (⟨28480559, 1024, 5⟩ : Proof).verifyWith 0 smallKey.publicKey ⟨24580737, 24097978⟩ [0x04]
      = .ok true ∧
    ∀ k s, (⟨28480559, 1024, s⟩ : Proof).verifyWith k smallKey.publicKey ⟨24580737, 24097978⟩ [0x04]
      = .ok true → k % smallKey.parameters.group.order = 0 := by
  have hblind : smallKey.parameters.group.isResidue 24580737 = true := by decide +kernel
  have hblinded : smallKey.parameters.group.isResidue 24097978 = true := by decide +kernel
  have hone : (⟨28480559, 1024, 12345683⟩ : Proof).verifyWith 1 smallKey.publicKey
      ⟨24580737, 24097978⟩ [0x03] = .ok true := by decide +kernel
  have htwo : (⟨28480559, 1024, 7914102⟩ : Proof).verifyWith 2 smallKey.publicKey
      ⟨24580737, 24097978⟩ [0x03] = .ok true := by decide +kernel
  have hzero : (⟨28480559, 1024, 5⟩ : Proof).verifyWith 0 smallKey.publicKey
      ⟨24580737, 24097978⟩ [0x04] = .ok true := by decide +kernel
  have hdecrypt := (decrypt_of_two_answers smallKey smallKey_modulus_prime smallKey_order_prime
    hblind hblinded [0x03] 28480559 1024).1 1 12345683 2 7914102 (by decide) hone htwo
  obtain ⟨c, hc⟩ := (decrypt_of_two_answers smallKey smallKey_modulus_prime smallKey_order_prime
    hblind hblinded [0x04] 28480559 1024).2 (by rw [hdecrypt]; decide)
  obtain rfl : 0 = c := hc 0 5 hzero
  exact ⟨hone, htwo, hdecrypt, hzero, hc⟩

end ElGamal

end ThresholdKeys
