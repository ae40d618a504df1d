import Mathlib.Data.Int.GCD
import Mathlib.Data.ZMod.Units
import ThresholdKeys.Number.Euclid

/-!
# Inverses and signed powers

The extended Euclidean algorithm keeps two things: a relation stays an equation between its
remainder and its coefficients (`Relation.Holds`), and two neighbouring remainders keep their
greatest common divisor. Hence `bezout a b` is that divisor with its coefficients.

* `inverse_of_coprime`, `inverse_of_not_coprime`: a number has an inverse exactly if it has no
  factor in common with the modulus.
* `signedPower_unit`: a signed power is the power in the group of units modulo `n`.
-/

namespace ThresholdKeys

namespace Relation

/-- The remainder is the combination of `a` and `b` that the coefficients say. -/
def Holds (rel : Relation) (a b : Int) : Prop := rel.r = a * rel.x + b * rel.y

theorem holds_less {a b : Int} {old new : Relation} (ho : old.Holds a b) (hn : new.Holds a b)
    (q : Int) : (old.less q new).Holds a b := by
  unfold Holds at *
  simp only [less, ho, hn]
  ring

theorem holds_negate {a b : Int} {rel : Relation} (h : rel.Holds a b) : rel.negate.Holds a b := by
  unfold Holds at *
  simp only [negate, h]
  ring

theorem holds_reduce {a b : Int} (old new : Relation) (ho : old.Holds a b) (hn : new.Holds a b) :
    (reduce old new).Holds a b := by
  fun_induction reduce old new with
  | case1 old new h0 => exact ho
  | case2 old new h0 ih => exact ih hn (holds_less ho hn _)

/-- A step does not change the greatest common divisor of the two remainders. -/
theorem gcd_less (old new : Relation) :
    Int.gcd new.r (old.less (old.r.tdiv new.r) new).r = Int.gcd old.r new.r := by
  have e : (old.less (old.r.tdiv new.r) new).r = old.r + new.r * (-(old.r.tdiv new.r)) := by
    simp only [less]
    ring
  rw [e, Int.gcd_add_mul_left_right, Int.gcd_comm]

theorem natAbs_reduce (old new : Relation) :
    (reduce old new).r.natAbs = Int.gcd old.r new.r := by
  fun_induction reduce old new with
  | case1 old new h0 => rw [h0, Int.gcd_zero_right]
  | case2 old new h0 ih => rw [ih, gcd_less]

end Relation

theorem holds_bezout (a b : Int) : (bezout a b).Holds a b := by
  have h : (Relation.reduce ⟨a, 1, 0⟩ ⟨b, 0, 1⟩).Holds a b :=
    Relation.holds_reduce _ _ (by simp [Relation.Holds]) (by simp [Relation.Holds])
  unfold bezout
  dsimp only
  split
  · exact Relation.holds_negate h
  · exact h

/-- The remainder that the algorithm ends with is the greatest common divisor. -/
theorem bezout_r (a b : Int) : (bezout a b).r = Int.gcd a b := by
  have h := Relation.natAbs_reduce ⟨a, 1, 0⟩ ⟨b, 0, 1⟩
  simp only at h
  unfold bezout
  dsimp only
  split
  · simp only [Relation.negate]
    omega
  · omega

/-- **Bezout's identity** for the coefficients that are computed. -/
theorem bezout_eq (a b : Int) : a * (bezout a b).x + b * (bezout a b).y = Int.gcd a b := by
  rw [← bezout_r, ← holds_bezout]

/-! ## Inverses -/

/-- Numbers below the modulus are told apart by their residues. -/
theorem natCast_inj_of_lt {m a b : Nat} (ha : a < m) (hb : b < m) :
    (a : ZMod m) = b ↔ a = b := by
  rw [ZMod.natCast_eq_natCast_iff', Nat.mod_eq_of_lt ha, Nat.mod_eq_of_lt hb]

/-- A number without a common factor with the modulus has an inverse. -/
theorem inverse_of_coprime {a m : Nat} (hm : 0 < m) (h : Nat.Coprime a m) :
    ∃ u, inverse a m = .ok u ∧ u < m ∧ (a : ZMod m) * u = 1 := by
  have hg : (bezout (a % m : Nat) m).r = 1 := by
    rw [bezout_r, Int.gcd_natCast_natCast, ← Nat.gcd_rec, Nat.gcd_comm, h]
    rfl
  have hrel : ((a % m : Nat) : Int) * (bezout (a % m : Nat) m).x
      + m * (bezout (a % m : Nat) m).y = 1 := by
    rw [← hg, ← holds_bezout]
  set x := (bezout (a % m : Nat) m).x
  have hx : 0 ≤ x % m := Int.emod_nonneg _ (by omega)
  have hlt : x % m < m := Int.emod_lt_of_pos _ (by omega)
  refine ⟨(x % m).toNat, ?_, by omega, ?_⟩
  · unfold inverse
    dsimp only
    rw [if_neg (by omega), if_pos hg]
  · have e := congrArg (fun z : Int => (z : ZMod m)) hrel
    have hcast : (((x % m).toNat : Nat) : ZMod m) = (x : ZMod m) := by
      rw [← Int.cast_natCast, Int.toNat_of_nonneg hx, ZMod.intCast_mod]
    rw [hcast]
    simpa using e

/-- A number with a factor in common with the modulus has none, and is refused. -/
theorem inverse_of_not_coprime {a m : Nat} (hm : 0 < m) (h : ¬ Nat.Coprime a m) :
    inverse a m = .error .notInvertible := by
  have hg : (bezout (a % m : Nat) m).r ≠ 1 := by
    rw [bezout_r, Int.gcd_natCast_natCast, ← Nat.gcd_rec, Nat.gcd_comm]
    exact fun hone => h (Int.ofNat_inj.1 hone)
  unfold inverse
  dsimp only
  rw [if_neg (by omega), if_neg hg]

/-! ## Signed powers -/

/-- Exponents that agree modulo `m` give the same power, if `m` is an exponent of one. -/
theorem zpow_eq_of_intCast_eq {U : Type*} [CommGroup U] {m : Nat} {u : U} (hu : u ^ m = 1)
    {a b : Int} (h : (a : ZMod m) = b) : u ^ a = u ^ b := by
  obtain ⟨c, hc⟩ := (ZMod.intCast_eq_intCast_iff_dvd_sub a b m).1 h
  rw [show b = a + m * c by omega, zpow_add, zpow_mul, zpow_natCast, hu, one_zpow, mul_one]

theorem natCast_powMod (base e n : Nat) :
    ((powMod base e n : Nat) : ZMod n) = (base : ZMod n) ^ e := by
  rw [powMod_eq, ZMod.natCast_mod, Nat.cast_pow]

theorem powMod_lt {n : Nat} (hn : 0 < n) (base e : Nat) : powMod base e n < n := by
  rw [powMod_eq]
  exact Nat.mod_lt _ hn

/-- **The signed power of a unit is its power in the group of units.** -/
theorem signedPower_unit {n base : Nat} (hn : 0 < n) (u : (ZMod n)ˣ) (hu : (base : ZMod n) = u)
    (e : Int) : ∃ r, signedPower base e n = .ok r ∧ r < n ∧ (r : ZMod n) = ↑(u ^ e) := by
  unfold signedPower
  rw [if_neg (by omega)]
  split
  · next he =>
    have hc : Nat.Coprime base n := (ZMod.isUnit_iff_coprime base n).1 (hu ▸ u.isUnit)
    obtain ⟨v, hv, -, hinv⟩ := inverse_of_coprime hn hc
    have hvu : (v : ZMod n) = ↑u⁻¹ := by
      rw [hu] at hinv
      exact (Units.mul_eq_one_iff_inv_eq.1 hinv).symm
    refine ⟨powMod v e.natAbs n, by rw [hv]; rfl, powMod_lt hn _ _, ?_⟩
    have hz : u ^ e = u⁻¹ ^ e.natAbs := by
      rw [← zpow_natCast, Int.ofNat_natAbs_of_nonpos (by omega), inv_zpow', neg_neg]
    rw [natCast_powMod, hvu, hz, Units.val_pow_eq_pow_val]
  · next he =>
    refine ⟨powMod base e.natAbs n, rfl, powMod_lt hn _ _, ?_⟩
    have hz : u ^ e = u ^ e.natAbs := by
      rw [← zpow_natCast, Int.natAbs_of_nonneg (by omega)]
    rw [natCast_powMod, hu, hz, Units.val_pow_eq_pow_val]

end ThresholdKeys
