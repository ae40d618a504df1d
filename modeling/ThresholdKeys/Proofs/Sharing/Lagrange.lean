import Mathlib.Data.ZMod.Basic
import Mathlib.LinearAlgebra.Lagrange
import ThresholdKeys.Proofs.Number.Euclid
import ThresholdKeys.Sharing.Interpolation
import ThresholdKeys.Sharing.Polynomial

/-!
# Lagrange interpolation at zero

The coefficients `λ i` of the model reproduce the constant term of every polynomial with no more
coefficients than there are points. The identity is proved once, over the integers and with a
common multiple `delta` of the denominators (`sum_weights_pow`), and carried from there into every
ring (`sum_weights_horner`): to the numbers modulo a group order, where a key is put together, and
to exponents of a group of units, where signatures are combined.
-/

open Finset

/-- The value of `X ^ k` at zero is a combination of its values at more than `k` nodes. -/
theorem Lagrange.sum_pow_mul_basis_zero {F : Type*} [Field F] (s : Finset ℕ) (v : ℕ → F)
    (hv : Set.InjOn v s) {k : ℕ} (hk : k < #s) :
    ∑ i ∈ s, v i ^ k * ∏ j ∈ s.erase i, v j / (v j - v i) = 0 ^ k := by
  have h := Lagrange.eq_interpolate (f := Polynomial.X ^ k) hv
    (by rw [Polynomial.degree_X_pow]; exact_mod_cast hk)
  have h0 := congrArg (Polynomial.eval 0) h
  rw [Lagrange.interpolate_apply, Polynomial.eval_finsetSum] at h0
  simp only [Polynomial.eval_pow, Polynomial.eval_X, Polynomial.eval_mul, Polynomial.eval_C,
    Lagrange.basis, Polynomial.eval_prod, Lagrange.basisDivisor, Polynomial.eval_sub] at h0
  rw [h0]
  apply sum_congr rfl
  intro i _
  congr 1
  apply prod_congr rfl
  intro j _
  rw [zero_sub, ← neg_sub (v i) (v j), div_neg, div_eq_mul_inv, mul_comm, mul_neg]

namespace ThresholdKeys

/-! ## The identity over the integers -/

/-- Weights `w` on the points `s` that are `delta` times the Lagrange coefficients at zero. -/
def IsWeights (s : Finset ℕ) (delta : ℤ) (w : ℕ → ℤ) : Prop :=
  ∀ i ∈ s, w i * ∏ j ∈ s.erase i, ((j : ℤ) - i) = delta * ∏ j ∈ s.erase i, (j : ℤ)

theorem prod_sub_ne_zero (s : Finset ℕ) (i : ℕ) : ∏ j ∈ s.erase i, ((j : ℤ) - i) ≠ 0 := by
  apply prod_ne_zero_iff.2
  intro j hj
  have := ne_of_mem_erase hj
  omega

/-- **The Lagrange identity with cleared denominators**: the weights take `X ^ k` to `delta` for
`k = 0` and to zero for every other `k` below the number of points. -/
theorem sum_weights_pow {s : Finset ℕ} {delta : ℤ} {w : ℕ → ℤ} (hw : IsWeights s delta w)
    {k : ℕ} (hk : k < #s) : ∑ i ∈ s, w i * (i : ℤ) ^ k = delta * 0 ^ k := by
  have hv : Set.InjOn (fun i : ℕ => (i : ℚ)) s := Nat.cast_injective.injOn
  have hq := Lagrange.sum_pow_mul_basis_zero s _ hv hk
  have hterm : ∀ i ∈ s, ((w i : ℤ) : ℚ) = delta * ∏ j ∈ s.erase i, (j : ℚ) / (j - i) := by
    intro i hi
    have hne : (((∏ j ∈ s.erase i, ((j : ℤ) - i) : ℤ)) : ℚ) ≠ 0 := by
      exact_mod_cast prod_sub_ne_zero s i
    have e := congrArg (fun z : ℤ => (z : ℚ)) (hw i hi)
    push_cast at e hne
    rw [prod_div_distrib, ← mul_div_assoc, ← e, mul_div_cancel_right₀ _ hne]
  have hsum : ((∑ i ∈ s, w i * (i : ℤ) ^ k : ℤ) : ℚ) = ((delta * 0 ^ k : ℤ) : ℚ) := by
    push_cast
    rw [← hq, mul_sum]
    apply sum_congr rfl
    intro i hi
    rw [hterm i hi]
    ring
  exact_mod_cast hsum

/-! ## Polynomials in a ring -/

/-- The value at `x` of the polynomial with the given coefficients, in any ring. -/
def horner {R : Type*} [CommRing R] (cs : List Nat) (x : R) : R :=
  cs.foldr (fun (c : Nat) (acc : R) => acc * x + c) 0

theorem horner_cons {R : Type*} [CommRing R] (c : Nat) (cs : List Nat) (x : R) :
    horner (c :: cs) x = horner cs x * x + c := rfl

/-- The model evaluates its polynomials modulo the modulus. -/
theorem natCast_evaluate (f : Polynomial) (x : Nat) :
    ((f.evaluate x : Nat) : ZMod f.modulus) = horner f.coefficients (x : ZMod f.modulus) := by
  unfold Polynomial.evaluate
  induction f.coefficients with
  | nil => simp [horner]
  | cons c cs ih =>
    rw [List.foldr_cons, ZMod.natCast_mod, Nat.cast_add, Nat.cast_mul, ih, horner_cons]

theorem evaluate_lt (f : Polynomial) (x : Nat) : f.evaluate x < f.modulus := by
  unfold Polynomial.evaluate Polynomial.coefficients
  rw [List.foldr_cons]
  exact Nat.mod_lt _ f.modulus_pos

theorem evaluate_zero (f : Polynomial) : f.evaluate 0 = f.constant % f.modulus := by
  rw [Polynomial.evaluate, Polynomial.coefficients, List.foldr_cons, Nat.mul_zero, Nat.zero_add]

/-- The induction runs over the coefficients; `k` counts those that have been taken off. -/
theorem sum_weights_shift {R : Type*} [CommRing R] {s : Finset ℕ} {delta : ℤ} {w : ℕ → ℤ}
    (hw : IsWeights s delta w) (cs : List Nat) (k : ℕ) (hk : k + cs.length ≤ #s) :
    ∑ i ∈ s, (w i : R) * (i : R) ^ k * horner cs (i : R) = delta * 0 ^ k * horner cs (0 : R) := by
  induction cs generalizing k with
  | nil => simp [horner]
  | cons c cs ih =>
    rw [List.length_cons] at hk
    have hpow : ∑ i ∈ s, (w i : R) * (i : R) ^ k = delta * 0 ^ k := by
      have := congrArg (fun z : ℤ => (z : R)) (sum_weights_pow hw (k := k) (by omega))
      push_cast at this
      exact this
    have hrest := ih (k + 1) (by omega)
    calc ∑ i ∈ s, (w i : R) * (i : R) ^ k * horner (c :: cs) (i : R)
        = ∑ i ∈ s, (w i : R) * (i : R) ^ (k + 1) * horner cs (i : R)
          + (∑ i ∈ s, (w i : R) * (i : R) ^ k) * c := by
            rw [sum_mul, ← sum_add_distrib]
            apply sum_congr rfl
            intro i _
            rw [horner_cons]
            ring
      _ = delta * 0 ^ k * horner (c :: cs) (0 : R) := by
            rw [hrest, hpow, horner_cons]
            ring

/-- Weights take the values of a polynomial to `delta` times its constant term, in any ring. -/
theorem sum_weights_horner {R : Type*} [CommRing R] {s : Finset ℕ} {delta : ℤ} {w : ℕ → ℤ}
    (hw : IsWeights s delta w) (c : Nat) (cs : List Nat) (hlen : cs.length < #s) :
    ∑ i ∈ s, (w i : R) * horner (c :: cs) (i : R) = delta * c := by
  have h := sum_weights_shift (R := R) hw (c :: cs) 0 (by simpa using hlen)
  simpa [horner_cons] using h

end ThresholdKeys
