import ThresholdKeys.Proofs.Sharing.Interpolation
import ThresholdKeys.Rsa.Combination

/-!
# Partial signatures combine to the power of the secret

Everything happens in the group of units modulo `n`. A partial signature is `u ^ f(i)`, the product
of them to the weights `w i` is `u ^ (Δ * d)`, and with `a * e + b * Δ = 1` the result is
`u ^ (a + b * Δ * d) = u ^ d`. Exponents are known modulo `m` only, where `u ^ m = 1`; this is all
that is assumed of `m`, so the statements hold for any modulus that exponents are shared over.

Main statement: `combine_units`.
-/

namespace ThresholdKeys.Rsa

/-! ## Exponents -/

/-- The coefficients that are computed, where `e` and `delta` have no common factor. -/
theorem unitCoefficients_of_coprime {e delta : Nat} (h : Nat.Coprime e delta) :
    ∃ a b : Int, unitCoefficients e delta = .ok (a, b) ∧ (e : Int) * a + delta * b = 1 := by
  have hr : (bezout e delta).r = 1 := by
    rw [bezout_r, Int.gcd_natCast_natCast, h]
    rfl
  refine ⟨_, _, if_pos hr, ?_⟩
  rw [bezout_eq, ← bezout_r, hr]

/-- They are computed for numbers without a common factor, and for no others. -/
theorem unitCoefficients_accepts_iff {e delta : Nat} :
    (∃ coefficients, unitCoefficients e delta = .ok coefficients) ↔ Nat.Coprime e delta := by
  constructor
  · rintro ⟨coefficients, h⟩
    unfold unitCoefficients at h
    dsimp only at h
    split at h
    · next hr =>
      rw [bezout_r, Int.gcd_natCast_natCast] at hr
      exact_mod_cast hr
    · cases h
  · intro h
    obtain ⟨a, b, hab, -⟩ := unitCoefficients_of_coprime h
    exact ⟨(a, b), hab⟩

/-- The exponent of the combined signature is the secret. -/
theorem combined_exponent {m e delta d : Nat} {a b s : Int} (hab : (e : Int) * a + delta * b = 1)
    (hed : (e : ZMod m) * d = 1) (hs : (s : ZMod m) = delta * d) :
    ((a + s * b : Int) : ZMod m) = (d : Int) := by
  have h := congrArg (fun z : Int => (z : ZMod m)) hab
  push_cast at h ⊢
  rw [hs]
  calc (a : ZMod m) + delta * d * b = a * (e * d) + delta * d * b := by rw [hed, mul_one]
    _ = d * (e * a + delta * b) := by ring
    _ = d := by rw [h, mul_one]

/-! ## The product of partial signatures -/

theorem productOfPartials_units {n : Nat} (hn : 0 < n) (u : (ZMod n)ˣ) {indices : List Nat}
    {delta : Nat} {w : Nat → Int} {x : Nat → Nat}
    (hw : ∀ i ∈ indices, integerBasisAtZero indices i delta = .ok (w i))
    (ps : List PartialSignature) (hsub : ∀ p ∈ ps, p.index ∈ indices)
    (hval : ∀ p ∈ ps, (p.value : ZMod n) = ↑(u ^ x p.index)) (acc : Nat) (z : Int)
    (hacc : (acc : ZMod n) = ↑(u ^ z)) :
    ∃ r, productOfPartials indices delta n ps acc = .ok r ∧
      (r : ZMod n) = ↑(u ^ (z + (ps.map fun p => w p.index * x p.index).sum)) := by
  induction ps generalizing acc z with
  | nil => exact ⟨acc, rfl, by simpa using hacc⟩
  | cons p rest ih =>
    obtain ⟨power, hpower, -, hcast⟩ :=
      signedPower_unit hn (u ^ x p.index) (hval p List.mem_cons_self) (w p.index)
    have hnext : ((acc * power % n : Nat) : ZMod n) = ↑(u ^ (z + w p.index * x p.index)) := by
      rw [ZMod.natCast_mod, Nat.cast_mul, hacc, hcast, ← Units.val_mul, ← zpow_natCast, ← zpow_mul,
        ← zpow_add, mul_comm (w p.index)]
    obtain ⟨r, hr, hrcast⟩ := ih (fun p' h => hsub p' (List.mem_cons_of_mem _ h))
      (fun p' h => hval p' (List.mem_cons_of_mem _ h)) _ _ hnext
    refine ⟨r, ?_, ?_⟩
    · rw [productOfPartials, hw _ (hsub p List.mem_cons_self), Outcome.ok_bind, hpower,
        Outcome.ok_bind, hr]
    · rw [hrcast, List.map_cons, List.sum_cons, add_assoc]

/-- The weighted sum of shares is `delta` times the secret, modulo the modulus of the sharing. -/
theorem sum_weights_evaluate (f : Polynomial) {indices : List Nat} (hn : indices.Nodup)
    (hlen : f.degree < indices.length) {delta : Nat} {w : Nat → Int}
    (hw : IsWeights indices.toFinset delta w) :
    (((indices.map fun i => w i * f.evaluate i).sum : Int) : ZMod f.modulus)
      = delta * f.constant := by
  have h := sum_weights_horner (R := ZMod f.modulus) hw f.constant f.higher
    (by rw [List.toFinset_card_of_nodup hn]; exact hlen)
  rw [← List.sum_toFinset _ hn, Int.cast_sum]
  rw [Int.cast_natCast] at h
  rw [← h]
  apply Finset.sum_congr rfl
  intro i _
  rw [Int.cast_mul, Int.cast_natCast, natCast_evaluate, Polynomial.coefficients]

/-! ## The combined signature -/

/-- What the holders of the shares at `indices` contribute on an encoded message. -/
def partialsOn (encoded : Nat) (f : Polynomial) (n : Nat) (indices : List Nat) :
    List PartialSignature :=
  indices.map fun i => ⟨i, powMod encoded (f.evaluate i) n⟩

theorem index_partialsOn (encoded : Nat) (f : Polynomial) (n : Nat) (indices : List Nat) :
    (partialsOn encoded f n indices).map PartialSignature.index = indices := by
  simp [partialsOn, Function.comp_def]

section Combine

variable {pk : PublicKey} {encoded : Nat} {u : (ZMod pk.modulus)ˣ} {f : Polynomial}
  {parties : Nat} {indices : List Nat}

/-- Enough partial signatures multiply to the power of `Δ` times the secret. -/
theorem productOfPartials_partialsOn (henc : (encoded : ZMod pk.modulus) = u)
    (hn : indices.Nodup) (hidx : ∀ i ∈ indices, 1 ≤ i ∧ i ≤ parties)
    (hlen : f.degree < indices.length) :
    ∃ r, ∃ z : Int, productOfPartials indices (factorial parties) pk.modulus
        (partialsOn encoded f pk.modulus indices) 1 = .ok r ∧ (r : ZMod pk.modulus) = ↑(u ^ z) ∧
      (z : ZMod f.modulus) = factorial parties * f.constant := by
  obtain ⟨w, hw, hweights⟩ := integerBasisAtZero_factorial hn hidx
  have hsub : ∀ p ∈ partialsOn encoded f pk.modulus indices, p.index ∈ indices := by
    intro p hp
    obtain ⟨i, hi, rfl⟩ := List.mem_map.1 hp
    exact hi
  have hval : ∀ p ∈ partialsOn encoded f pk.modulus indices,
      (p.value : ZMod pk.modulus) = ↑(u ^ f.evaluate p.index) := by
    intro p hp
    obtain ⟨i, -, rfl⟩ := List.mem_map.1 hp
    rw [natCast_powMod, henc, Units.val_pow_eq_pow_val]
  obtain ⟨r, hr, hcast⟩ := productOfPartials_units pk.modulus_pos u hw _ hsub hval 1 0 (by simp)
  rw [zero_add, partialsOn, List.map_map, Function.comp_def] at hcast
  exact ⟨r, _, hr, hcast, sum_weights_evaluate f hn hlen hweights⟩

theorem combineUnchecked_units (henc : (encoded : ZMod pk.modulus) = u) (hu : u ^ f.modulus = 1)
    (hd : (pk.exponent : ZMod f.modulus) * f.constant = 1)
    (hcop : Nat.Coprime pk.exponent (factorial parties)) (hn : indices.Nodup)
    (hidx : ∀ i ∈ indices, 1 ≤ i ∧ i ≤ parties) (hlen : f.degree < indices.length) :
    combineUnchecked (partialsOn encoded f pk.modulus indices) encoded pk parties
      = .ok (encoded ^ f.constant % pk.modulus) := by
  obtain ⟨a, b, hab, hbez⟩ := unitCoefficients_of_coprime hcop
  obtain ⟨r, z, hr, hrcast, hz⟩ := productOfPartials_partialsOn henc hn hidx hlen
  obtain ⟨left, hleft, -, hlcast⟩ := signedPower_unit pk.modulus_pos u henc a
  obtain ⟨right, hright, -, hrightcast⟩ := signedPower_unit pk.modulus_pos _ hrcast b
  have hy : ((left * right % pk.modulus : Nat) : ZMod pk.modulus)
      = ((encoded ^ f.constant % pk.modulus : Nat) : ZMod pk.modulus) := by
    rw [ZMod.natCast_mod, ZMod.natCast_mod, Nat.cast_mul, Nat.cast_pow, hlcast, hrightcast, henc,
      ← Units.val_mul, ← zpow_mul, ← zpow_add,
      zpow_eq_of_intCast_eq hu (combined_exponent hbez hd hz), zpow_natCast,
      Units.val_pow_eq_pow_val]
  rw [ZMod.natCast_eq_natCast_iff', Nat.mod_mod, Nat.mod_mod] at hy
  unfold combineUnchecked
  dsimp only
  rw [hab, Outcome.ok_bind]
  dsimp only
  rw [index_partialsOn, hr, Outcome.ok_bind, hleft, Outcome.ok_bind, hright, Outcome.ok_bind, hy]
  rfl

/-- The power of the secret, raised to the public exponent, is the encoded message. -/
theorem powMod_power_exponent (henc : (encoded : ZMod pk.modulus) = u) (hu : u ^ f.modulus = 1)
    (hd : (pk.exponent : ZMod f.modulus) * f.constant = 1) (hlt : encoded < pk.modulus) :
    powMod (encoded ^ f.constant % pk.modulus) pk.exponent pk.modulus = encoded := by
  have hpow : u ^ (f.constant * pk.exponent) = u := by
    have h := zpow_eq_of_intCast_eq hu (a := (f.constant * pk.exponent : Nat)) (b := 1)
      (by push_cast; rw [mul_comm, hd])
    rwa [zpow_natCast, zpow_one] at h
  have h : ((powMod (encoded ^ f.constant % pk.modulus) pk.exponent pk.modulus : Nat)
      : ZMod pk.modulus) = (encoded : Nat) := by
    rw [natCast_powMod, ZMod.natCast_mod, Nat.cast_pow, henc, ← pow_mul, ← Units.val_pow_eq_pow_val,
      hpow]
  rw [ZMod.natCast_eq_natCast_iff', Nat.mod_eq_of_lt hlt, powMod_eq, Nat.mod_mod] at h
  rw [powMod_eq, h]

/-- **Enough partial signatures combine** to the power of the secret, and the check passes. -/
theorem combine_units {σ : Type} (henc : (encoded : ZMod pk.modulus) = u)
    (hlt : encoded < pk.modulus) (hu : u ^ f.modulus = 1)
    (hd : (pk.exponent : ZMod f.modulus) * f.constant = 1)
    (hcop : Nat.Coprime pk.exponent (factorial parties)) (hn : indices.Nodup)
    (hidx : ∀ i ∈ indices, 1 ≤ i ∧ i ≤ parties) (hlen : f.degree < indices.length)
    (k : Nat) (s : σ) :
    combine (partialsOn encoded f pk.modulus indices) encoded pk parties k s
      = ⟨.ok (encoded ^ f.constant % pk.modulus), s, []⟩ := by
  rw [combine, combineUnchecked_units henc hu hd hcop hn hidx hlen, Proc.liftM_ok_bind,
    if_pos (powMod_power_exponent henc hu hd hlt)]
  rfl

end Combine

end ThresholdKeys.Rsa
