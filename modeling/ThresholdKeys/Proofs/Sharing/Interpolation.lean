import Mathlib.Algebra.BigOperators.Intervals
import Mathlib.Data.Int.NatAbs
import Mathlib.Data.Nat.Factorial.BigOperators
import ThresholdKeys.Proofs.Sharing.Lagrange

/-!
# The computed Lagrange coefficients

The two functions of the model that compute a coefficient, tied to the identity of
`ThresholdKeys.Proofs.Sharing.Lagrange`. With the factorial of the number of parties for `delta`
every integral coefficient exists (`integerBasisAtZero_factorial`): the differences between an
index and the others divide the factorial. Modulo `m` a coefficient exists if the differences are
prime to `m`, and then interpolation gives the constant term (`interpolateAtZero_of_separated`). The
indices of a quorum are such points if there are no more parties than a prime modulus.
-/

open Finset

namespace ThresholdKeys

/-! ## Products over points -/

theorem productOf_eq (f : Nat → Int) (l : List Nat) : productOf f l = (l.map f).prod := by
  have h : ∀ acc : Int, l.foldl (fun product j => product * f j) acc = acc * (l.map f).prod := by
    induction l with
    | nil => simp
    | cons j l ih =>
      intro acc
      rw [List.foldl_cons, ih, List.map_cons, List.prod_cons, mul_assoc]
  rw [productOf, h, one_mul]

theorem productOf_otherPoints {points : List Nat} (hn : points.Nodup) (f : Nat → Int) (i : Nat) :
    productOf f (otherPoints i points) = ∏ j ∈ points.toFinset.erase i, f j := by
  have hset : (otherPoints i points).toFinset = points.toFinset.erase i := by
    ext j
    simp [otherPoints, and_comm]
  have hnd : (otherPoints i points).Nodup := hn.filter _
  rw [productOf_eq, ← hset, List.prod_toFinset f hnd]

theorem basisNumerator_eq {points : List Nat} (hn : points.Nodup) (i : Nat) :
    basisNumerator points i = ∏ j ∈ points.toFinset.erase i, (j : ℤ) :=
  productOf_otherPoints hn _ i

theorem basisDenominator_eq {points : List Nat} (hn : points.Nodup) (i : Nat) :
    basisDenominator points i = ∏ j ∈ points.toFinset.erase i, ((j : ℤ) - i) :=
  productOf_otherPoints hn _ i

/-! ## Integral coefficients -/

theorem factorial_eq (n : Nat) : factorial n = n.factorial := by
  induction n with
  | zero => rfl
  | succ n ih =>
    rw [factorial] at ih ⊢
    rw [List.range_succ, List.foldl_append, ih, List.foldl_cons, List.foldl_nil,
      Nat.factorial_succ, mul_comm]

theorem prod_below (i : ℕ) : ∏ j ∈ Ico 1 i, ((j : ℤ) - i).natAbs = (i - 1).factorial := by
  rw [← prod_range_add_one_eq_factorial]
  refine prod_nbij' (fun j => i - j - 1) (fun k => i - k - 1) ?_ ?_ ?_ ?_ ?_
  all_goals
    intro j hj
    simp only [mem_Ico, mem_range] at hj ⊢
    omega

theorem prod_above (i n : ℕ) : ∏ j ∈ Ioc i n, ((j : ℤ) - i).natAbs = (n - i).factorial := by
  rw [← prod_range_add_one_eq_factorial]
  refine prod_nbij' (fun j => j - i - 1) (fun k => i + k + 1) ?_ ?_ ?_ ?_ ?_
  all_goals
    intro j hj
    simp only [mem_Ioc, mem_range] at hj ⊢
    omega

/-- The differences between one of `1 … n` and all others multiply to two factorials. -/
theorem natAbs_prod_sub {n i : ℕ} (h1 : 1 ≤ i) (hn : i ≤ n) :
    (∏ j ∈ (Icc 1 n).erase i, ((j : ℤ) - i)).natAbs = (i - 1).factorial * (n - i).factorial := by
  have hsplit : (Icc 1 n).erase i = Ico 1 i ∪ Ioc i n := by
    ext j
    simp only [mem_erase, mem_Icc, mem_union, mem_Ico, mem_Ioc]
    omega
  have hdisj : Disjoint (Ico 1 i) (Ioc i n) := by
    apply disjoint_left.2
    intro j h h'
    simp only [mem_Ico, mem_Ioc] at h h'
    omega
  have habs : ∀ t : Finset ℕ, (∏ j ∈ t, ((j : ℤ) - i)).natAbs = ∏ j ∈ t, ((j : ℤ) - i).natAbs :=
    fun t => map_prod Int.natAbsHom _ t
  rw [habs, hsplit, prod_union hdisj, prod_below, prod_above]

/-- The differences between one index and some others divide the factorial. -/
theorem prod_sub_dvd_factorial {s : Finset ℕ} {n i : ℕ} (hs : s ⊆ Icc 1 n) (hi : i ∈ s) :
    ∏ j ∈ s.erase i, ((j : ℤ) - i) ∣ (n.factorial : ℤ) := by
  obtain ⟨h1, hn⟩ := mem_Icc.1 (hs hi)
  have hall : ∏ j ∈ (Icc 1 n).erase i, ((j : ℤ) - i) ∣ (n.factorial : ℤ) := by
    rw [← Int.natAbs_dvd, natAbs_prod_sub h1 hn, Int.natCast_dvd_natCast]
    have h := Nat.factorial_mul_factorial_dvd_factorial_add (i - 1) (n - i)
    exact h.trans (Nat.factorial_dvd_factorial (by omega))
  exact (prod_dvd_prod_of_subset _ _ _ (erase_subset_erase i hs)).trans hall

/-- **With the factorial of the number of parties, every coefficient is integral.** -/
theorem integerBasisAtZero_factorial {points : List Nat} (hn : points.Nodup) {n : Nat}
    (hp : ∀ i ∈ points, 1 ≤ i ∧ i ≤ n) :
    ∃ w : Nat → Int, (∀ i ∈ points, integerBasisAtZero points i (factorial n) = .ok (w i)) ∧
      IsWeights points.toFinset (factorial n) w := by
  have hs : points.toFinset ⊆ Icc 1 n := fun i hi =>
    mem_Icc.2 (hp i (List.mem_toFinset.1 hi))
  refine ⟨fun i => (factorial n * basisNumerator points i).tdiv (basisDenominator points i),
    ?_, ?_⟩
  all_goals
    intro i hi
    have hi' : i ∈ points.toFinset := by simpa using hi
    have hdvd : basisDenominator points i ∣ factorial n * basisNumerator points i := by
      rw [basisDenominator_eq hn, factorial_eq]
      exact (prod_sub_dvd_factorial hs hi').mul_right _
  · have hne : basisDenominator points i ≠ 0 := by
      rw [basisDenominator_eq hn]
      exact prod_sub_ne_zero _ i
    unfold integerBasisAtZero
    rw [if_pos hi, Checked.divide_of_ne hne, Outcome.ok_bind]
    dsimp only
    rw [if_pos (Int.tmod_eq_zero_of_dvd hdvd)]
    rfl
  · rw [← basisNumerator_eq hn, ← basisDenominator_eq hn]
    exact Int.tdiv_mul_cancel hdvd

/-! ## Coefficients modulo a number -/

theorem firstRepeated?_eq_none_iff {l : List Nat} : firstRepeated? l = none ↔ l.Nodup := by
  induction l with
  | nil => exact ⟨fun _ => List.nodup_nil, fun _ => rfl⟩
  | cons i rest ih =>
    rw [firstRepeated?, List.nodup_cons]
    split
    · next hi => simp [hi]
    · next hi => simp [hi, ih]

/-- Points whose differences have no factor in common with the modulus. -/
def Separated (points : List Nat) (m : Nat) : Prop :=
  ∀ i ∈ points, ∀ j ∈ points, i ≠ j → IsCoprime ((j : ℤ) - i) m

instance (points : List Nat) (m : Nat) : Decidable (Separated points m) :=
  decidable_of_iff (∀ i ∈ points, ∀ j ∈ points, i ≠ j → Int.gcd ((j : ℤ) - i) m = 1) (by
    simp only [Separated, Int.isCoprime_iff_gcd_eq_one])

/-- A denominator is a unit if every difference in it is one. -/
theorem isUnit_basisDenominator_iff {points : List Nat} {m : Nat} (hn : points.Nodup) (i : Nat) :
    IsUnit ((basisDenominator points i : ℤ) : ZMod m)
      ↔ ∀ j ∈ points, i ≠ j → IsCoprime ((j : ℤ) - i) m := by
  rw [ZMod.coe_int_isUnit_iff_isCoprime, isCoprime_comm, basisDenominator_eq hn,
    IsCoprime.prod_left_iff]
  constructor
  · intro h j hj hne
    exact h j (mem_erase.2 ⟨hne.symm, List.mem_toFinset.2 hj⟩)
  · intro h j hj
    obtain ⟨hne, hj⟩ := mem_erase.1 hj
    exact h j (List.mem_toFinset.1 hj) hne.symm

theorem isUnit_basisDenominator {points : List Nat} {m : Nat} (hn : points.Nodup)
    (hs : Separated points m) {i : Nat} (hi : i ∈ points) :
    IsUnit ((basisDenominator points i : ℤ) : ZMod m) :=
  (isUnit_basisDenominator_iff hn i).2 (hs i hi)

theorem natCast_toNat_emod (a : ℤ) {m : Nat} (hm : 0 < m) :
    (((a % m).toNat : Nat) : ZMod m) = a := by
  rw [← Int.cast_natCast, Int.toNat_of_nonneg (Int.emod_nonneg _ (by omega)), ZMod.intCast_mod]

/-- Where the denominator is a unit, a coefficient is the quotient of the two products. -/
theorem basisAtZero_of_isUnit {points : List Nat} {m : Nat} (hm : 0 < m) {i : Nat} (hi : i ∈ points)
    (hunit : IsUnit ((basisDenominator points i : ℤ) : ZMod m)) :
    ∃ w, basisAtZero points i m = .ok w ∧
      (w : ZMod m) * (basisDenominator points i : ℤ) = (basisNumerator points i : ℤ) := by
  rw [← natCast_toNat_emod _ hm, ZMod.isUnit_iff_coprime] at hunit
  obtain ⟨u, hu, -, hinv⟩ := inverse_of_coprime hm hunit
  refine ⟨(basisNumerator points i % m).toNat * u % m, ?_, ?_⟩
  · unfold basisAtZero
    rw [if_pos hi, Checked.emod_of_ne (by omega), Outcome.ok_bind, Checked.emod_of_ne (by omega),
      Outcome.ok_bind, hu, Outcome.ok_bind, Checked.mod_of_ne (by omega)]
  · rw [natCast_toNat_emod _ hm] at hinv
    rw [ZMod.natCast_mod, Nat.cast_mul, natCast_toNat_emod _ hm, mul_assoc, mul_comm (u : ZMod m),
      hinv, mul_one]

/-- Where it is not, there is no coefficient. -/
theorem basisAtZero_of_not_isUnit {points : List Nat} {m : Nat} (hm : 0 < m) {i : Nat}
    (hi : i ∈ points) (hunit : ¬ IsUnit ((basisDenominator points i : ℤ) : ZMod m)) :
    basisAtZero points i m = .error .notInvertible := by
  rw [← natCast_toNat_emod _ hm, ZMod.isUnit_iff_coprime] at hunit
  unfold basisAtZero
  rw [if_pos hi, Checked.emod_of_ne (by omega), Outcome.ok_bind, Checked.emod_of_ne (by omega),
    Outcome.ok_bind, inverse_of_not_coprime hm hunit]
  rfl

/-- Points that differ by units have all their coefficients. -/
theorem exists_coefficients {points : List Nat} {m : Nat} (hm : 0 < m) (hn : points.Nodup)
    (hs : Separated points m) :
    ∃ w : Nat → Nat, ∀ i ∈ points, basisAtZero points i m = .ok (w i) ∧
      (w i : ZMod m) * (basisDenominator points i : ℤ) = (basisNumerator points i : ℤ) := by
  have hw : ∀ i, ∃ w, i ∈ points → basisAtZero points i m = .ok w ∧
      (w : ZMod m) * (basisDenominator points i : ℤ) = (basisNumerator points i : ℤ) := by
    intro i
    by_cases hi : i ∈ points
    · obtain ⟨w, hw⟩ := basisAtZero_of_isUnit hm hi (isUnit_basisDenominator hn hs hi)
      exact ⟨w, fun _ => hw⟩
    · exact ⟨0, fun h => absurd h hi⟩
  choose w hw using hw
  exact ⟨w, hw⟩

/-- The products of all other denominators with a numerator are weights, over the product of all
denominators. -/
theorem isWeights_prod (s : Finset ℕ) :
    IsWeights s (∏ k ∈ s, ∏ j ∈ s.erase k, ((j : ℤ) - k)) fun i =>
      (∏ j ∈ s.erase i, (j : ℤ)) * ∏ k ∈ s.erase i, ∏ j ∈ s.erase k, ((j : ℤ) - k) := by
  intro i hi
  rw [← mul_prod_erase s _ hi]
  ring

theorem weightedSum_cons {points : List Nat} {m w : Nat} (hm : 0 < m) {s : Share}
    (hw : basisAtZero points s.index m = .ok w) (rest : List Share) (acc : Nat) :
    weightedSum points m (s :: rest) acc
      = weightedSum points m rest ((acc + s.value * w) % m) := by
  rw [weightedSum, hw, Outcome.mapError_ok, Outcome.ok_bind, Checked.mod_of_ne (by omega),
    Outcome.ok_bind]

theorem weightedSum_cons_refused {points : List Nat} {m : Nat} {s : Share} {e : ArithmeticError}
    (hw : basisAtZero points s.index m = .error e) (rest : List Share) (acc : Nat) :
    weightedSum points m (s :: rest) acc = .error (.arithmetic e) := by
  rw [weightedSum, hw, Outcome.mapError_error, Outcome.error_bind]

theorem weightedSum_ok {points : List Nat} {m : Nat} (hm : 0 < m) {w : Nat → Nat}
    (hw : ∀ i ∈ points, basisAtZero points i m = .ok (w i)) (shares : List Share)
    (hsub : ∀ s ∈ shares, s.index ∈ points) (acc : Nat) (hacc : acc < m) :
    ∃ r, weightedSum points m shares acc = .ok r ∧ r < m ∧
      (r : ZMod m) = acc + (shares.map fun s => (w s.index : ZMod m) * s.value).sum := by
  induction shares generalizing acc with
  | nil => exact ⟨acc, rfl, hacc, by simp⟩
  | cons s rest ih =>
    obtain ⟨r, hr, hlt, hcast⟩ := ih (fun s' h => hsub s' (List.mem_cons_of_mem _ h))
      ((acc + s.value * w s.index) % m) (Nat.mod_lt _ hm)
    refine ⟨r, ?_, hlt, ?_⟩
    · rw [weightedSum_cons hm (hw _ (hsub s List.mem_cons_self)), hr]
    · rw [hcast, ZMod.natCast_mod, List.map_cons, List.sum_cons]
      push_cast
      ring

/-- Coefficients modulo `m` take the values of a polynomial to its constant term: times the unit
that is the product of all denominators, this is the identity over the integers. -/
theorem sum_basis_horner {points : List Nat} {m : Nat} (hn : points.Nodup)
    (hs : Separated points m) {w : Nat → Nat}
    (hw : ∀ i ∈ points, (w i : ZMod m) * (basisDenominator points i : ℤ)
      = (basisNumerator points i : ℤ)) (c : Nat) (cs : List Nat)
    (hlen : cs.length < points.length) :
    ∑ i ∈ points.toFinset, (w i : ZMod m) * horner (c :: cs) (i : ZMod m) = c := by
  have hcard : points.toFinset.card = points.length := List.toFinset_card_of_nodup hn
  have hid := sum_weights_horner (R := ZMod m) (isWeights_prod points.toFinset) c cs (by omega)
  have hunit : IsUnit ((∏ k ∈ points.toFinset, ∏ j ∈ points.toFinset.erase k, ((j : ℤ) - k) : ℤ)
      : ZMod m) := by
    rw [Int.cast_prod, IsUnit.prod_iff]
    intro k hk
    have h := isUnit_basisDenominator hn hs (List.mem_toFinset.1 hk)
    rwa [basisDenominator_eq hn] at h
  refine hunit.mul_left_cancel ?_
  rw [← hid, mul_sum]
  apply sum_congr rfl
  intro i hi
  have hi' := hw i (List.mem_toFinset.1 hi)
  rw [basisNumerator_eq hn, basisDenominator_eq hn] at hi'
  rw [← mul_prod_erase points.toFinset _ hi, Int.cast_mul (∏ j ∈ points.toFinset.erase i, (j : ℤ)),
    ← hi']
  push_cast
  ring

theorem interpolateAtZero_of_nodup {shares : List Share} (hne : shares ≠ [])
    (hn : (shares.map Share.index).Nodup) (m : Nat) :
    interpolateAtZero shares m = weightedSum (shares.map Share.index) m shares 0 := by
  unfold interpolateAtZero
  dsimp only
  rw [if_neg (by simpa using hne), firstRepeated?_eq_none_iff.2 hn]

/-- Interpolation is for at least one share, and for no two with one index. -/
theorem nodup_of_interpolateAtZero {shares : List Share} {m r : Nat}
    (h : interpolateAtZero shares m = .ok r) : shares ≠ [] ∧ (shares.map Share.index).Nodup := by
  unfold interpolateAtZero at h
  dsimp only at h
  split at h
  · cases h
  next hne =>
  split at h
  · cases h
  next hrepeated =>
  exact ⟨by simpa using hne, firstRepeated?_eq_none_iff.1 hrepeated⟩

/-- **What interpolation computes**: the sum of the values, each times the coefficient of its point,
whatever the values are. -/
theorem interpolateAtZero_eq_sum {m : Nat} (hm : 0 < m) {shares : List Share} (hne : shares ≠ [])
    {value : Nat → Nat} (hval : ∀ s ∈ shares, s.value = value s.index)
    (hn : (shares.map Share.index).Nodup) (hs : Separated (shares.map Share.index) m) :
    ∃ (w : Nat → Nat) (r : Nat), interpolateAtZero shares m = .ok r ∧ r < m ∧
      (∀ i ∈ shares.map Share.index,
        (w i : ZMod m) * (basisDenominator (shares.map Share.index) i : ℤ)
          = (basisNumerator (shares.map Share.index) i : ℤ)) ∧
      (r : ZMod m) = ∑ i ∈ (shares.map Share.index).toFinset, (w i : ZMod m) * value i := by
  set points := shares.map Share.index with hpoints
  obtain ⟨w, hw⟩ := exists_coefficients hm hn hs
  obtain ⟨r, hr, hlt, hcast⟩ := weightedSum_ok hm (fun i hi => (hw i hi).1) shares
    (fun s h => List.mem_map_of_mem h) 0 hm
  refine ⟨w, r, ?_, hlt, fun i hi => (hw i hi).2, ?_⟩
  · rw [interpolateAtZero_of_nodup hne hn, hr]
  · rw [hcast, Nat.cast_zero, zero_add, List.sum_toFinset _ hn, hpoints, List.map_map]
    congr 1
    apply List.map_congr_left
    intro s h
    rw [Function.comp_apply, hval s h]

/-- **Interpolation gives the constant term** of the polynomial that the shares lie on, if there
are more of them than the degree and their indices differ by units. -/
theorem interpolateAtZero_of_separated (f : Polynomial) (shares : List Share)
    (hval : ∀ s ∈ shares, s.value = f.evaluate s.index)
    (hn : (shares.map Share.index).Nodup) (hlen : f.degree < shares.length)
    (hs : Separated (shares.map Share.index) f.modulus) :
    interpolateAtZero shares f.modulus = .ok (f.constant % f.modulus) := by
  have hne : shares ≠ [] := List.ne_nil_of_length_pos (by omega)
  obtain ⟨w, r, hr, hlt, hw, hcast⟩ := interpolateAtZero_eq_sum f.modulus_pos hne hval hn hs
  have hr' : (r : ZMod f.modulus) = f.constant := by
    simp only [natCast_evaluate] at hcast
    rw [hcast]
    exact sum_basis_horner hn hs hw f.constant f.higher (by rwa [List.length_map])
  rw [ZMod.natCast_eq_natCast_iff', Nat.mod_eq_of_lt hlt] at hr'
  rw [hr, hr']

/-- **One wrong value is never without effect**: where the coefficient of its point is a unit,
interpolation gives something else than the constant term. -/
theorem interpolateAtZero_ne (f : Polynomial) {shares : List Share} {value : Nat → Nat}
    (hval : ∀ s ∈ shares, s.value = value s.index) (hn : (shares.map Share.index).Nodup)
    (hlen : f.degree < shares.length) (hs : Separated (shares.map Share.index) f.modulus)
    {i : Nat} (hi : i ∈ shares.map Share.index)
    (hunit : IsUnit ((basisNumerator (shares.map Share.index) i : ℤ) : ZMod f.modulus))
    (hothers : ∀ j ∈ shares.map Share.index, j ≠ i → value j = f.evaluate j)
    (hwrong : (value i : ZMod f.modulus) ≠ f.evaluate i) :
    ∃ r, interpolateAtZero shares f.modulus = .ok r ∧ r < f.modulus ∧
      (r : ZMod f.modulus) ≠ f.constant := by
  have hne : shares ≠ [] := List.ne_nil_of_length_pos (by omega)
  obtain ⟨w, r, hr, hlt, hw, hcast⟩ := interpolateAtZero_eq_sum f.modulus_pos hne hval hn hs
  refine ⟨r, hr, hlt, fun heq => hwrong ?_⟩
  have hright : ∑ j ∈ (shares.map Share.index).toFinset,
      (w j : ZMod f.modulus) * (f.evaluate j : ZMod f.modulus) = f.constant := by
    simp only [natCast_evaluate]
    exact sum_basis_horner hn hs hw f.constant f.higher (by rwa [List.length_map])
  -- the two sums differ in the summand of the wrong value alone
  have hmem : i ∈ (shares.map Share.index).toFinset := List.mem_toFinset.2 hi
  rw [heq, ← hright, ← add_sum_erase _ _ hmem, ← add_sum_erase _ _ hmem] at hcast
  have hrest : ∀ j ∈ (shares.map Share.index).toFinset.erase i,
      (w j : ZMod f.modulus) * value j = (w j : ZMod f.modulus) * f.evaluate j := by
    intro j hj
    obtain ⟨hji, hj⟩ := mem_erase.1 hj
    rw [hothers j (List.mem_toFinset.1 hj) hji]
  rw [sum_congr rfl hrest, add_left_inj] at hcast
  have hweight : IsUnit (w i : ZMod f.modulus) :=
    isUnit_of_mul_isUnit_left (by rw [hw i hi]; exact hunit)
  exact (hweight.mul_left_cancel hcast).symm

/-! ## Quorums -/

/-- Different indices of parties, at least the threshold of them. -/
structure IsQuorum (t : Threshold) (indices : List Nat) : Prop where
  nodup : indices.Nodup
  isIndex : ∀ i ∈ indices, t.isIndex i = true
  enough : t.threshold ≤ indices.length

instance (t : Threshold) (indices : List Nat) : Decidable (IsQuorum t indices) :=
  decidable_of_iff
    (indices.Nodup ∧ (∀ i ∈ indices, t.isIndex i = true) ∧ t.threshold ≤ indices.length)
    ⟨fun h => ⟨h.1, h.2.1, h.2.2⟩, fun h => ⟨h.1, h.2, h.3⟩⟩

theorem IsQuorum.ne_nil {t : Threshold} {indices : List Nat} (h : IsQuorum t indices) :
    indices ≠ [] :=
  List.ne_nil_of_length_pos (Nat.lt_of_lt_of_le t.threshold_pos h.enough)

theorem isIndex_iff {t : Threshold} {i : Nat} : t.isIndex i = true ↔ 1 ≤ i ∧ i ≤ t.parties := by
  simp [Threshold.isIndex]

/-- The indices of the parties. -/
def Threshold.indices (t : Threshold) : List Nat := List.range' 1 t.parties

theorem Threshold.length_indices (t : Threshold) : t.indices.length = t.parties :=
  List.length_range'

theorem mem_indices_iff {t : Threshold} {i : Nat} : i ∈ t.indices ↔ t.isIndex i = true := by
  rw [isIndex_iff, Threshold.indices, List.mem_range'_1]
  omega

/-- Indices of parties are units modulo a prime that is larger than the number of parties, so every
coefficient is one. -/
theorem isUnit_basisNumerator {t : Threshold} {m : Nat} (hm : m.Prime) (ht : t.parties < m)
    {indices : List Nat} (hn : indices.Nodup) (h : ∀ i ∈ indices, t.isIndex i = true) (i : Nat) :
    IsUnit ((basisNumerator indices i : ℤ) : ZMod m) := by
  rw [basisNumerator_eq hn, Int.cast_prod, IsUnit.prod_iff]
  intro j hj
  obtain ⟨hpos, hle⟩ := isIndex_iff.1 (h j (List.mem_toFinset.1 (mem_of_mem_erase hj)))
  have hcoprime : Nat.Coprime j m :=
    ((Nat.Prime.coprime_iff_not_dvd hm).2 (Nat.not_dvd_of_pos_of_lt hpos (by omega))).symm
  rw [Int.cast_natCast]
  exact (ZMod.isUnit_iff_coprime j m).2 hcoprime

/-- Indices of parties differ by units modulo a prime that is at least the number of parties. -/
theorem separated_of_le {n m : Nat} (hm : m.Prime) (hn : n ≤ m) {indices : List Nat}
    (h : ∀ i ∈ indices, 1 ≤ i ∧ i ≤ n) : Separated indices m := by
  intro i hi j hj hne
  obtain ⟨hi1, hin⟩ := h i hi
  obtain ⟨hj1, hjn⟩ := h j hj
  have hdvd : ¬ m ∣ ((j : ℤ) - i).natAbs := Nat.not_dvd_of_pos_of_lt (by omega) (by omega)
  rw [Int.isCoprime_iff_gcd_eq_one, Int.gcd_comm]
  exact (Nat.Prime.coprime_iff_not_dvd hm).2 hdvd

theorem separated_of_isIndex {t : Threshold} {m : Nat} (hm : m.Prime) (ht : t.parties ≤ m)
    {indices : List Nat} (h : ∀ i ∈ indices, t.isIndex i = true) : Separated indices m :=
  separated_of_le hm ht fun i hi => isIndex_iff.1 (h i hi)

end ThresholdKeys
