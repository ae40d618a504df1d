import ThresholdKeys.Proofs.Number.Euclid
import ThresholdKeys.Proofs.Rsa.Pss
import ThresholdKeys.Rsa.Key

/-!
# A root of the encoded message is a signature

An encoded message has one binary digit less than the modulus, so it is below the modulus, and its
octets are found again from its value. A number below the modulus whose power to the public exponent
is the encoded message therefore verifies (`verify_of_powMod`).
-/

namespace ThresholdKeys.Rsa.PublicKey

variable {pk : PublicKey} {message salt : Bytes} {encoded : Nat}

theorem lt_two_pow_bits (pk : PublicKey) : pk.modulus < 2 ^ pk.bits :=
  lt_two_pow_bitLength _

theorem bits_pos (pk : PublicKey) : 1 ≤ pk.bits := bitLength_pos pk.modulus_pos

theorem emBits_eq {ε : Type} (pk : PublicKey) : (pk.emBits : Outcome ε Nat) = .ok (pk.bits - 1) :=
  Checked.sub_of_le pk.bits_pos

/-- A number of at most `emBits` binary digits is below the modulus. -/
theorem two_pow_emBits_le (pk : PublicKey) : 2 ^ (pk.bits - 1) ≤ pk.modulus :=
  two_pow_le_of_bitLength (Nat.sub_add_cancel pk.bits_pos).symm

theorem encodeMessage_eq_ok (h : pk.encodeMessage message salt = .ok encoded) :
    ∃ em, Pss.encode message (pk.bits - 1) salt = .ok em ∧ Bytes.toNat em = encoded := by
  rw [encodeMessage, emBits_eq, Outcome.ok_bind, Outcome.bind_eq_ok] at h
  obtain ⟨em, hem, hval⟩ := h
  cases hval
  exact ⟨em, hem, rfl⟩

theorem encodeMessage_lt (h : pk.encodeMessage message salt = .ok encoded) :
    encoded < pk.modulus := by
  obtain ⟨em, hem, rfl⟩ := encodeMessage_eq_ok h
  exact Nat.lt_of_lt_of_le (Pss.encode_bounds hem).2 pk.two_pow_emBits_le

/-- The counter of the mask generation bounds the size of a modulus that a message is encoded
for. -/
theorem bits_lt_of_encodeMessage (h : pk.encodeMessage message salt = .ok encoded) :
    pk.bits < 2 ^ 41 := by
  obtain ⟨em, hem, -⟩ := encodeMessage_eq_ok h
  obtain ⟨-, -, hblocks, -⟩ := Pss.encode_eq_ok hem
  omega

theorem lt_pow_length {y : Nat} (hy : y < pk.modulus) : y < 256 ^ pk.length := by
  have hpow : 2 ^ pk.bits ≤ 256 ^ pk.length := by
    rw [show (256 : Nat) = 2 ^ 8 from rfl, ← Nat.pow_mul]
    refine Nat.pow_le_pow_right (by decide) ?_
    unfold length
    omega
  exact Nat.lt_of_lt_of_le (Nat.lt_trans hy pk.lt_two_pow_bits) hpow

/-- **Roots verify**: the octets of a root of the encoded message are a signature. -/
theorem verify_of_powMod {ε : Type} (henc : pk.encodeMessage message salt = .ok encoded) {y : Nat}
    (hy : y < pk.modulus) (hroot : powMod y pk.exponent pk.modulus = encoded) :
    (pk.verify message (Bytes.fixed pk.length y) : Outcome ε Bool) = .ok true := by
  obtain ⟨em, hem, hval⟩ := encodeMessage_eq_ok henc
  have hfixed : Bytes.fixed? encoded ((pk.bits - 1 + 7) / 8) = some em := by
    rw [← hval, ← (Pss.encode_bounds hem).1, Bytes.fixed?_toNat]
  rw [verify, Bytes.toNat_fixed_of_lt (lt_pow_length hy)]
  rw [if_neg (by simp), if_neg (by omega), emBits_eq, Outcome.ok_bind, hroot, hfixed]
  exact Pss.verify_encode hem

end ThresholdKeys.Rsa.PublicKey
