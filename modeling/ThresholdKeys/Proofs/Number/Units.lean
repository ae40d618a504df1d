import ThresholdKeys.Proofs.Number.Euclid

/-!
# Inverses and signed powers, exactly

A number has an inverse modulo `m` exactly if it has no factor in common with `m`, and then one
below `m` (`IsInverse.unique`). The computed inverse is this one (`inverse_eq_ok_iff`), and a power
with a negative exponent is the inverse of the power with the opposite exponent
(`signedPower_neg_eq_ok_iff`); where there is none, both are refused. Nothing is asked of the base:
it may be above the modulus, a multiple of it, or zero, and the modulus may be one.

`signedPower_exact` puts this together with the law of exponents of either sign.
-/

namespace ThresholdKeys

/-- `x` is the inverse of `a` modulo `m` among the numbers below `m`. -/
structure IsInverse (m a x : Nat) : Prop where
  lt : x < m
  mul_modEq : a * x ≡ 1 [MOD m]

namespace IsInverse

variable {m a x y : Nat}

theorem coprime (h : IsInverse m a x) : Nat.Coprime a m :=
  Nat.coprime_of_mul_modEq_one x h.mul_modEq

theorem unique (h : IsInverse m a x) (h' : IsInverse m a y) : x = y := by
  have hsame : a * x ≡ a * y [MOD m] := h.mul_modEq.trans h'.mul_modEq.symm
  have hmod : x ≡ y [MOD m] := Nat.ModEq.cancel_left_of_coprime h.coprime.symm hsame
  exact hmod.eq_of_lt_of_lt h.lt h'.lt

/-- The power of the inverse, reduced, is the inverse of the power. -/
theorem pow (h : IsInverse m a x) (n : Nat) : IsInverse m (a ^ n) (x ^ n % m) where
  lt := Nat.mod_lt _ (Nat.zero_lt_of_lt h.lt)
  mul_modEq :=
    calc a ^ n * (x ^ n % m)
        ≡ a ^ n * x ^ n [MOD m] := (Nat.mod_modEq _ _).mul_left _
      _ ≡ (a * x) ^ n [MOD m] := by rw [Nat.mul_pow]
      _ ≡ 1 ^ n [MOD m] := h.mul_modEq.pow n
      _ ≡ 1 [MOD m] := by rw [Nat.one_pow]

end IsInverse

section

variable {m a base x : Nat} {e : Int}

theorem exists_isInverse (hm : 0 < m) (h : Nat.Coprime a m) :
    ∃ x, inverse a m = .ok x ∧ IsInverse m a x := by
  obtain ⟨x, hx, hlt, hax⟩ := inverse_of_coprime hm h
  have hcast : ((a * x : Nat) : ZMod m) = (1 : Nat) := by
    rw [Nat.cast_mul, hax, Nat.cast_one]
  exact ⟨x, hx, hlt, (ZMod.natCast_eq_natCast_iff _ _ _).1 hcast⟩

/-- **The computed inverse is the inverse.** -/
theorem inverse_eq_ok_iff (hm : 0 < m) : inverse a m = .ok x ↔ IsInverse m a x := by
  by_cases h : Nat.Coprime a m
  · obtain ⟨u, hu, hinverse⟩ := exists_isInverse hm h
    rw [hu, Outcome.ok.injEq]
    constructor
    · rintro rfl
      exact hinverse
    · exact hinverse.unique
  · rw [inverse_of_not_coprime hm h]
    exact iff_of_false nofun fun hinverse => h hinverse.coprime

/-! ## Signed powers -/

theorem signedPower_of_nonneg (hm : 0 < m) (he : 0 ≤ e) :
    signedPower base e m = .ok (base ^ e.toNat % m) := by
  have habs : e.natAbs = e.toNat := by omega
  rw [signedPower, if_neg (Nat.ne_of_gt hm), if_neg (Int.not_lt.2 he), powMod_eq, habs]

theorem signedPower_of_neg (hm : 0 < m) (he : e < 0) :
    signedPower base e m = (fun u => u ^ e.natAbs % m) <$> inverse base m := by
  rw [signedPower, if_neg (Nat.ne_of_gt hm), if_pos he]
  simp only [powMod_eq]
  rfl

/-- **A power with a negative exponent is the inverse of the power with the opposite one.** -/
theorem signedPower_neg_eq_ok_iff (hm : 0 < m) (he : e < 0) :
    signedPower base e m = .ok x ↔ IsInverse m (base ^ e.natAbs) x := by
  rw [signedPower_of_neg hm he, Outcome.map_eq_ok]
  constructor
  · rintro ⟨u, hu, rfl⟩
    exact ((inverse_eq_ok_iff hm).1 hu).pow _
  · intro h
    have hbase : Nat.Coprime base m :=
      (Nat.coprime_pow_left_iff (Int.natAbs_pos.2 (Int.ne_of_lt he)) base m).1 h.coprime
    obtain ⟨u, hu, hinverse⟩ := exists_isInverse hm hbase
    exact ⟨u, hu, (hinverse.pow _).unique h⟩

theorem signedPower_of_not_coprime (hm : 0 < m) (he : e < 0) (h : ¬ Nat.Coprime base m) :
    signedPower base e m = .error .notInvertible := by
  rw [signedPower_of_neg hm he, inverse_of_not_coprime hm h]
  rfl

/-- The law of exponents. -/
theorem signedPower_add (hm : 0 < m) (h : Nat.Coprime base m) (e₁ e₂ : Int) :
    ∃ r₁ r₂, signedPower base e₁ m = .ok r₁ ∧ signedPower base e₂ m = .ok r₂ ∧
      signedPower base (e₁ + e₂) m = .ok (r₁ * r₂ % m) := by
  -- The three values are those of powers of one unit, so the signs of the exponents do not matter.
  have hunit : (base : ZMod m) = ZMod.unitOfCoprime base h := (ZMod.coe_unitOfCoprime base h).symm
  obtain ⟨r₁, hr₁, -, hcast₁⟩ := signedPower_unit hm _ hunit e₁
  obtain ⟨r₂, hr₂, -, hcast₂⟩ := signedPower_unit hm _ hunit e₂
  obtain ⟨r, hr, hlt, hcast⟩ := signedPower_unit hm _ hunit (e₁ + e₂)
  have hproduct : r = r₁ * r₂ % m := by
    rw [← natCast_inj_of_lt hlt (Nat.mod_lt _ hm), ZMod.natCast_mod, Nat.cast_mul, hcast, hcast₁,
      hcast₂, zpow_add, Units.val_mul]
  exact ⟨r₁, r₂, hr₁, hr₂, hproduct ▸ hr⟩

/-- **The signed power is the power in the group of units.** For any base,

* an exponent that is not negative gives the power, reduced;
* a negative one gives a number below the modulus whose product with the opposite power leaves one,
  if the base has no factor in common with the modulus, and is refused otherwise;
* if there is no common factor, the sum of two exponents of any sign gives the product, reduced, of
  what each of them gives;
* the inverse is the only number below the modulus whose product with the base leaves one, if there
  is no common factor, and is refused otherwise. -/
theorem signedPower_exact (hm : 0 < m) (base : Nat) :
    (∀ e : Int, 0 ≤ e → signedPower base e m = .ok (base ^ e.toNat % m)) ∧
    (∀ e : Int, e < 0 →
      (Nat.Coprime base m →
        ∃ r, signedPower base e m = .ok r ∧ r < m ∧ r * base ^ e.natAbs ≡ 1 [MOD m]) ∧
      (¬ Nat.Coprime base m → signedPower base e m = .error .notInvertible)) ∧
    (Nat.Coprime base m → ∀ e₁ e₂ : Int, ∃ r₁ r₂,
      signedPower base e₁ m = .ok r₁ ∧ signedPower base e₂ m = .ok r₂ ∧
        signedPower base (e₁ + e₂) m = .ok (r₁ * r₂ % m)) ∧
    (Nat.Coprime base m → ∃ x, inverse base m = .ok x ∧ x < m ∧ base * x ≡ 1 [MOD m] ∧
      ∀ y < m, base * y ≡ 1 [MOD m] → y = x) ∧
    (¬ Nat.Coprime base m → inverse base m = .error .notInvertible) := by
  refine ⟨fun e he => signedPower_of_nonneg hm he,
    fun e he => ⟨fun h => ?_, signedPower_of_not_coprime hm he⟩, signedPower_add hm, fun h => ?_,
    inverse_of_not_coprime hm⟩
  · obtain ⟨u, -, hu⟩ := exists_isInverse hm h
    have hpower := hu.pow e.natAbs
    refine ⟨_, (signedPower_neg_eq_ok_iff hm he).2 hpower, hpower.lt, ?_⟩
    rw [Nat.mul_comm]
    exact hpower.mul_modEq
  · obtain ⟨x, hx, hinverse⟩ := exists_isInverse hm h
    exact ⟨x, hx, hinverse.lt, hinverse.mul_modEq,
      fun y hy hmul => IsInverse.unique ⟨hy, hmul⟩ hinverse⟩

/-- A base above the modulus with an inverse, and one that is a multiple of the modulus. -/
theorem signedPower_exact_fifteen :
    0 < 15 ∧ signedPower 22 (-3) 15 = .ok 7 ∧ inverse 22 15 = .ok 13 ∧
      signedPower 30 (-1) 15 = .error .notInvertible := by
  obtain ⟨-, hnegative, -, hinverse, -⟩ := signedPower_exact (m := 15) (by decide) 22
  obtain ⟨r, hr, hlt, hmul⟩ := (hnegative (-3) (by decide)).1 (by decide)
  obtain ⟨x, hx, -, -, hunique⟩ := hinverse (by decide)
  have hseven : ∀ r < 15, r * 22 ^ (-3 : Int).natAbs ≡ 1 [MOD 15] → r = 7 := by decide
  refine ⟨by decide, ?_, ?_, ?_⟩
  · rw [hr, hseven r hlt hmul]
  · rw [hx, hunique 13 (by decide) (by decide)]
  · exact ((signedPower_exact (by decide) 30).2.1 (-1) (by decide)).2 (by decide)

end

end ThresholdKeys
