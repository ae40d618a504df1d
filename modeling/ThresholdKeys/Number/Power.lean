import ThresholdKeys.Bytes

/-!
# Powers modulo a number

`powMod b e m` squares and multiplies over the binary digits of the exponent; `powMod_eq` says that
it is `b ^ e % m`.
-/

namespace ThresholdKeys

/-- The power for an exponent of at most `digits` binary digits, of a reduced base. -/
def powDigits (base modulus : Nat) : (digits exponent : Nat) → Nat
  | 0, _ => 1 % modulus
  | digits + 1, exponent =>
    let half := powDigits base modulus digits (exponent / 2)
    let square := half * half % modulus
    if exponent % 2 = 1 then square * base % modulus else square

/-- `base ^ exponent` modulo `modulus`. -/
def powMod (base exponent modulus : Nat) : Nat :=
  powDigits (base % modulus) modulus (bitLength exponent) exponent

theorem powDigits_eq {base modulus digits exponent : Nat} (h : exponent < 2 ^ digits) :
    powDigits base modulus digits exponent = base ^ exponent % modulus := by
  induction digits generalizing exponent with
  | zero =>
    obtain rfl : exponent = 0 := by simpa using h
    simp [powDigits]
  | succ digits ih =>
    have half := ih (show exponent / 2 < 2 ^ digits by rw [Nat.pow_succ] at h; omega)
    have square : base ^ (exponent / 2) % modulus * (base ^ (exponent / 2) % modulus) % modulus
        = base ^ (2 * (exponent / 2)) % modulus := by
      rw [← Nat.mul_mod, ← Nat.pow_add, Nat.two_mul]
    simp only [powDigits, half, square]
    split
    · rw [Nat.mod_mul_mod, ← Nat.pow_succ, show (2 * (exponent / 2)).succ = exponent by omega]
    · rw [show 2 * (exponent / 2) = exponent by omega]

/-- Squaring and multiplying computes the power. -/
theorem powMod_eq (base exponent modulus : Nat) :
    powMod base exponent modulus = base ^ exponent % modulus := by
  rw [powMod, powDigits_eq (bitLength_le_iff.1 (Nat.le_refl _)), ← Nat.pow_mod]

end ThresholdKeys
