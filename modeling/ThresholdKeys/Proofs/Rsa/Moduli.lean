import Mathlib.Data.Nat.Totient
import ThresholdKeys.Ceremony.SigningKey
import ThresholdKeys.Proofs.Entropy.Draws
import ThresholdKeys.Proofs.Number.Units
import ThresholdKeys.Proofs.Sharing.Lagrange

/-!
# Moduli of signing keys

A modulus is the product of two numbers that have the top two of their digits set. Either is at
least three quarters of the next power of two, and nine sixteenths are more than a half, so the
product has exactly as many digits as both have together (`PrimeShape.bitLength_mul`). It does not
matter that an odd number of digits is split unevenly.

What follows for a key is said of its factors (`SigningKey.Factors`): the modulus is odd and exceeds
the standard exponent, which has an inverse. So nothing that is computed between the draw of the
primes and that of the coefficients can be refused (`SigningKey.draw_endsDrawn`).
-/

namespace ThresholdKeys

open Rsa

/-- **No digit is lost** in a product of two numbers with their top two digits set. -/
theorem PrimeShape.bitLength_mul {a b m n : Nat} (hm : PrimeShape a m) (hn : PrimeShape b n)
    (ha : 2 ≤ a) (hb : 2 ≤ b) : bitLength (m * n) = a + b := by
  have hlow := Nat.mul_le_mul (hm.three_quarters_le ha) (hn.three_quarters_le hb)
  have hhigh := Nat.mul_lt_mul'' hm.lt hn.lt
  obtain ⟨i, rfl⟩ := Nat.exists_eq_add_of_le' ha
  obtain ⟨j, rfl⟩ := Nat.exists_eq_add_of_le' hb
  have hhalf : 2 ^ (i + 2 + j + 1) = 8 * (2 ^ i * 2 ^ j) := by ring
  have hwhole : 2 ^ (i + 2 + j + 1 + 1) = 2 ^ (i + 2) * 2 ^ (j + 2) := by ring
  refine bitLength_eq_of_bounds ?_ (hwhole ▸ hhigh)
  calc 2 ^ (i + 2 + j + 1) ≤ 9 * (2 ^ i * 2 ^ j) := by omega
    _ = 3 * 2 ^ (i + 2 - 2) * (3 * 2 ^ (j + 2 - 2)) := by
      rw [Nat.add_sub_cancel, Nat.add_sub_cancel]
      ring
    _ ≤ m * n := hlow

theorem totientOfTwoPrimes_eq {ε : Type} {p q : Nat} (hp : 0 < p) (hq : 0 < q) :
    (totientOfTwoPrimes p q : Outcome ε Nat) = .ok ((p - 1) * (q - 1)) := by
  rw [totientOfTwoPrimes, Checked.sub_of_le hp, Checked.sub_of_le hq]
  rfl

/-- There was no entropy. -/
def ProtocolError.IsEntropy (e : ProtocolError) : Prop := ∃ cause, e = .entropy cause

namespace SigningKey

/-! ## Factors -/

/-- Two numbers that a modulus of `modulusBits` digits is made of. -/
structure Factors (modulusBits p q : Nat) : Prop where
  enough : 32 ≤ modulusBits
  left : PrimeShape (modulusBits / 2) p
  right : PrimeShape (modulusBits - modulusBits / 2) q
  left_passes : isProbablePrime p fullRounds = true
  right_passes : isProbablePrime q fullRounds = true
  ne : p ≠ q
  coprime : ((p - 1) * (q - 1)).gcd standardExponent = 1

namespace Factors

variable {modulusBits p q : Nat}

theorem bitLength_mul (h : Factors modulusBits p q) : bitLength (p * q) = modulusBits := by
  have henough := h.enough
  rw [h.left.bitLength_mul h.right (by omega) (by omega)]
  omega

theorem large (h : Factors modulusBits p q) : 2 ^ 15 ≤ p ∧ 2 ^ 15 ≤ q := by
  have henough := h.enough
  exact ⟨h.left.large (by omega), h.right.large (by omega)⟩

/-- The numbers are those of a public key. -/
theorem exists_publicKey (h : Factors modulusBits p q) :
    ∃ pk, PublicKey.of (p * q) standardExponent = .ok pk ∧ pk.modulus = p * q ∧
      pk.exponent = standardExponent := by
  have hodd : p * q % 2 = 1 := by
    rw [Nat.mul_mod, h.left.odd, h.right.odd]
  have hlarge : standardExponent < p * q := by
    calc standardExponent < 2 ^ 15 * 2 ^ 15 := by decide
      _ ≤ p * q := Nat.mul_le_mul h.large.1 h.large.2
  exact ⟨_, dif_pos ⟨one_lt_standardExponent, standardExponent_odd, hlarge, hodd⟩, rfl, rfl⟩

/-- The exponent has an inverse. -/
theorem exists_inverse (h : Factors modulusBits p q) :
    ∃ d, inverse standardExponent ((p - 1) * (q - 1)) = .ok d ∧
      standardExponent * d % ((p - 1) * (q - 1)) = 1 := by
  obtain ⟨hp, hq⟩ := h.large
  have hone : 1 < (p - 1) * (q - 1) := by
    calc 1 < 2 * 2 := by decide
      _ ≤ (p - 1) * (q - 1) := Nat.mul_le_mul (by omega) (by omega)
  have hcoprime : Nat.Coprime standardExponent ((p - 1) * (q - 1)) :=
    Nat.coprime_comm.1 h.coprime
  obtain ⟨d, hd, hinverse⟩ := exists_isInverse (Nat.lt_of_succ_lt hone) hcoprime
  have hmod : standardExponent * d % ((p - 1) * (q - 1)) = 1 % ((p - 1) * (q - 1)) :=
    hinverse.mul_modEq
  exact ⟨d, hd, hmod.trans (Nat.mod_eq_of_lt hone)⟩

/-- Of primes, that is the number of units. -/
theorem totient_mul (h : Factors modulusBits p q) (hp : p.Prime) (hq : q.Prime) :
    (p * q).totient = (p - 1) * (q - 1) := by
  rw [Nat.totient_mul ((Nat.coprime_primes hp hq).2 h.ne), Nat.totient_prime hp,
    Nat.totient_prime hq]

end Factors

/-! ## Draws -/

/-- For want of entropy, if primes of the size can be drawn at all. -/
def RefusedFor (modulusBits : Nat) (e : ProtocolError) : Prop :=
  e.IsArithmetic ∧ (32 ≤ modulusBits → e.IsEntropy)

theorem refusedFor_ofArithmetic {modulusBits : Nat} {e : ArithmeticError}
    (h : 32 ≤ modulusBits → e.IsEntropy) : RefusedFor modulusBits (.ofArithmetic e) := by
  refine ⟨⟨e, rfl⟩, fun henough => ?_⟩
  obtain ⟨cause, rfl⟩ := h henough
  exact ⟨cause, rfl⟩

/-- What the search for a modulus ends with. The induction is on the rounds that are left; a round
that does not end the search says nothing about the next one. -/
theorem drawModulusAfter_ends (modulusBits rounds attempts : Nat) :
    (drawModulusAfter modulusBits rounds attempts).Ends
      (fun drawn => ∃ p q, Factors modulusBits p q ∧ drawn = (p * q, (p - 1) * (q - 1)))
      (RefusedFor modulusBits) := by
  induction rounds generalizing attempts with
  | zero => exact fun _ _ => trivial
  | succ rounds ih =>
    refine ((randomPrime_ends _).mapError fun e he =>
      refusedFor_ofArithmetic fun henough => he (by omega)).bind fun p hp => ?_
    refine ((randomPrime_ends _).mapError fun e he =>
      refusedFor_ofArithmetic fun henough => he (by omega)).bind fun q hq => ?_
    obtain ⟨hpbits, hpshape, hpprime⟩ := hp
    obtain ⟨hqbits, hqshape, hqprime⟩ := hq
    have hplarge := hpshape.large hpbits
    have hqlarge := hqshape.large hqbits
    split
    · exact ih (attempts + 1)
    · next hne =>
      rw [totientOfTwoPrimes_eq (by omega) (by omega), Proc.liftM_ok_bind]
      split
      · next hcoprime =>
        refine (Proc.Ends.note _ _).bind fun _ _ => .pure ⟨p, q, ?_, rfl⟩
        exact ⟨by omega, hpshape, hqshape, hpprime, hqprime, hne, hcoprime⟩
      · exact (Proc.Ends.note _ _).bind fun _ _ => ih (attempts + 1)

theorem drawModulus_ends (modulusBits : Nat) : (drawModulus modulusBits).Ends
    (fun drawn => ∃ p q, Factors modulusBits p q ∧ drawn = (p * q, (p - 1) * (q - 1)))
    (RefusedFor modulusBits) := fun k s => drawModulusAfter_ends modulusBits k 0 k s

/-- A public key, and the polynomial that shares its private exponent. -/
structure Drawn (modulusBits : Nat) (t : Threshold) (pk : PublicKey) (f : Polynomial) : Prop where
  factors : ∃ p q, Factors modulusBits p q ∧ pk.modulus = p * q ∧ f.modulus = (p - 1) * (q - 1)
  exponent : pk.exponent = standardExponent
  degree : f.degree = t.threshold - 1
  inverse : standardExponent * f.evaluate 0 % f.modulus = 1

namespace Drawn

variable {modulusBits : Nat} {t : Threshold} {pk : PublicKey} {f : Polynomial}

theorem bits_eq (h : Drawn modulusBits t pk f) : pk.bits = modulusBits := by
  obtain ⟨p, q, hfactors, hmodulus, -⟩ := h.factors
  rw [PublicKey.bits, hmodulus, hfactors.bitLength_mul]

end Drawn

/-- **Once the primes are drawn, nothing but entropy can be missing**, and the polynomial shares an
inverse of the exponent. -/
theorem draw_endsDrawn (modulusBits : Nat) (t : Threshold) : (draw modulusBits t).Ends
    (fun key => Drawn modulusBits t key.1 key.2) (RefusedFor modulusBits) := by
  refine (drawModulus_ends modulusBits).bind ?_
  rintro _ ⟨p, q, hfactors, rfl⟩
  obtain ⟨pk, hpk, hmodulus, hexponent⟩ := hfactors.exists_publicKey
  obtain ⟨d, hd, hunit⟩ := hfactors.exists_inverse
  dsimp only
  rw [hpk, Outcome.mapError_ok, Proc.liftM_ok_bind, hexponent, hd, Outcome.mapError_ok,
    Proc.liftM_ok_bind]
  have hpos : 0 < (p - 1) * (q - 1) := by
    have hlarge := hfactors.large
    exact Nat.mul_pos (by omega) (by omega)
  refine ((Polynomial.randomWith_ends _ _ d).mapError fun e he =>
    refusedFor_ofArithmetic fun _ => he hpos).bind fun f hf => .pure ?_
  obtain ⟨hf, hdegree, hconstant⟩ := hf
  refine ⟨⟨p, q, hfactors, hmodulus, hf⟩, hexponent, hdegree, ?_⟩
  dsimp only
  rw [evaluate_zero, hf, hconstant, Nat.mod_mod, Nat.mul_mod_mod, hunit]

end SigningKey

end ThresholdKeys
