import Mathlib.Algebra.BigOperators.Group.List.Basic
import ThresholdKeys.Proofs.Sharing.Interpolation

/-!
# Exact coefficients and exact interpolation

Over a modulus that is not prime an index may differ from another one by a number without an
inverse. Interpolation is then refused, and it is refused only then
(`interpolateAtZero_accepts_iff`): from enough shares of a polynomial it gives the constant term if
all differences of indices are prime to the modulus, and nothing else otherwise
(`interpolateAtZero_exact_or_refused`). Every coefficient is a number or is
refused for the same cause, so the order of the shares does not matter, whatever their values are
(`interpolateAtZero_perm`).

The integral coefficients always exist. Over the integers they satisfy the equations that define
Lagrange coefficients, and modulo a prime above the number of parties they are the coefficients that
are computed there, times the factorial (`integerBasisAtZero_exact`).
-/

namespace ThresholdKeys

/-! ## The order of the points -/

section Order

variable {points points' : List Nat} {m : Nat}

/-- A coefficient of a point is a number, or it is refused because an inverse is missing. -/
theorem basisAtZero_cases (hm : 0 < m) {i : Nat} (hi : i ∈ points) :
    (∃ w, basisAtZero points i m = .ok w) ∨ basisAtZero points i m = .error .notInvertible := by
  by_cases hunit : IsUnit ((basisDenominator points i : ℤ) : ZMod m)
  · obtain ⟨w, hw, -⟩ := basisAtZero_of_isUnit hm hi hunit
    exact .inl ⟨w, hw⟩
  · exact .inr (basisAtZero_of_not_isUnit hm hi hunit)

/-- The products that a coefficient is made of do not depend on the order of the points. -/
theorem basisAtZero_perm (h : points.Perm points') (i m : Nat) :
    basisAtZero points i m = basisAtZero points' i m := by
  have hproduct : ∀ f : Nat → Int,
      productOf f (otherPoints i points) = productOf f (otherPoints i points') := by
    intro f
    rw [productOf_eq, productOf_eq]
    exact ((h.filter _).map f).prod_eq
  unfold basisAtZero basisNumerator basisDenominator
  simp only [hproduct, h.mem_iff]

theorem weightedSum_congr (h : ∀ i, basisAtZero points i m = basisAtZero points' i m)
    (shares : List Share) (acc : Nat) :
    weightedSum points m shares acc = weightedSum points' m shares acc := by
  induction shares generalizing acc with
  | nil => rfl
  | cons s rest ih => simp only [weightedSum, h, ih]

/-- Two neighbours change places: both summands are added, or the sum is refused for the one cause
that there is. -/
theorem weightedSum_swap (hm : 0 < m) {a b : Share} (ha : a.index ∈ points)
    (hb : b.index ∈ points) (rest : List Share) (acc : Nat) :
    weightedSum points m (a :: b :: rest) acc = weightedSum points m (b :: a :: rest) acc := by
  rcases basisAtZero_cases hm ha with ⟨wa, hwa⟩ | hrefuseda
  · rcases basisAtZero_cases hm hb with ⟨wb, hwb⟩ | hrefusedb
    · have hsum : ((acc + a.value * wa) % m + b.value * wb) % m
          = ((acc + b.value * wb) % m + a.value * wa) % m := by
        rw [Nat.mod_add_mod, Nat.mod_add_mod, Nat.add_right_comm]
      rw [weightedSum_cons hm hwa, weightedSum_cons hm hwb, weightedSum_cons hm hwb,
        weightedSum_cons hm hwa, hsum]
    · rw [weightedSum_cons hm hwa, weightedSum_cons_refused hrefusedb,
        weightedSum_cons_refused hrefusedb]
  · rcases basisAtZero_cases hm hb with ⟨wb, hwb⟩ | hrefusedb
    · rw [weightedSum_cons_refused hrefuseda, weightedSum_cons hm hwb,
        weightedSum_cons_refused hrefuseda]
    · rw [weightedSum_cons_refused hrefuseda, weightedSum_cons_refused hrefusedb]

/-- The order of the summands does not matter. -/
theorem weightedSum_perm (hm : 0 < m) {shares shares' : List Share}
    (h : shares.Perm shares') (hsub : ∀ s ∈ shares, s.index ∈ points) (acc : Nat) :
    weightedSum points m shares acc = weightedSum points m shares' acc := by
  induction h generalizing acc with
  | nil => rfl
  | cons s _ ih =>
    have hrest := ih fun s' hs' => hsub s' (List.mem_cons_of_mem _ hs')
    simp only [weightedSum, hrest]
  | swap a b rest =>
    exact weightedSum_swap hm (hsub b (by simp)) (hsub a (by simp)) rest acc
  | trans h₁ _ ih₁ ih₂ =>
    exact (ih₁ hsub acc).trans (ih₂ (fun s hs => hsub s (h₁.mem_iff.2 hs)) acc)

/-- **Interpolation does not depend on the order of the shares**, whatever their values are. -/
theorem interpolateAtZero_perm (hm : 0 < m) {shares shares' : List Share}
    (h : shares.Perm shares') (hn : (shares.map Share.index).Nodup) :
    interpolateAtZero shares m = interpolateAtZero shares' m := by
  by_cases hne : shares = []
  · rw [hne] at h ⊢
    rw [List.nil_perm.1 h]
  · have hne' : shares' ≠ [] := fun hnil => hne (List.perm_nil.1 (hnil ▸ h))
    have hpoints : (shares.map Share.index).Perm (shares'.map Share.index) := h.map _
    have hn' : (shares'.map Share.index).Nodup := hpoints.nodup_iff.1 hn
    rw [interpolateAtZero_of_nodup hne hn, interpolateAtZero_of_nodup hne' hn',
      weightedSum_perm hm h fun s hs => List.mem_map_of_mem hs]
    exact weightedSum_congr (fun i => basisAtZero_perm hpoints i m) shares' 0

end Order

/-! ## Refusals -/

/-- A sum is refused if one of its coefficients is. -/
theorem weightedSum_refused {points : List Nat} {m : Nat} (hm : 0 < m) {shares : List Share}
    (hsub : ∀ s ∈ shares, s.index ∈ points)
    (hrefused : ∃ s ∈ shares, basisAtZero points s.index m = .error .notInvertible) (acc : Nat) :
    weightedSum points m shares acc = .error (.arithmetic .notInvertible) := by
  induction shares generalizing acc with
  | nil =>
    obtain ⟨s, hs, -⟩ := hrefused
    cases hs
  | cons s rest ih =>
    rcases basisAtZero_cases hm (hsub s List.mem_cons_self) with ⟨w, hw⟩ | hw
    · obtain ⟨s', hs', hw'⟩ := hrefused
      rcases List.mem_cons.1 hs' with rfl | hrest
      · rw [hw] at hw'
        cases hw'
      · rw [weightedSum_cons hm hw]
        exact ih (fun s' h => hsub s' (List.mem_cons_of_mem _ h)) ⟨s', hrest, hw'⟩ _
    · exact weightedSum_cons_refused hw rest acc

/-- **Indices that differ by no unit are refused**, whatever the values of the shares are. -/
theorem interpolateAtZero_of_not_separated {m : Nat} (hm : 0 < m) {shares : List Share}
    (hn : (shares.map Share.index).Nodup) (hs : ¬ Separated (shares.map Share.index) m) :
    interpolateAtZero shares m = .error (.arithmetic .notInvertible) := by
  simp only [Separated, not_forall] at hs
  obtain ⟨i, hi, j, hj, hne, hshared⟩ := hs
  have hrefused : basisAtZero (shares.map Share.index) i m = .error .notInvertible := by
    apply basisAtZero_of_not_isUnit hm hi
    rw [isUnit_basisDenominator_iff hn]
    exact fun hall => hshared (hall j hj hne)
  obtain ⟨s, hmem, rfl⟩ := List.mem_map.1 hi
  rw [interpolateAtZero_of_nodup (List.ne_nil_of_mem hmem) hn]
  exact weightedSum_refused hm (fun s' h => List.mem_map_of_mem h) ⟨s, hmem, hrefused⟩ 0

/-- **What interpolation is for**: at least one share, no two of them with one index, and indices
that differ by units. What comes out is below the modulus. -/
theorem interpolateAtZero_accepts_iff {m : Nat} (hm : 0 < m) {shares : List Share} :
    (∃ r < m, interpolateAtZero shares m = .ok r) ↔
      shares ≠ [] ∧ (shares.map Share.index).Nodup ∧ Separated (shares.map Share.index) m := by
  constructor
  · rintro ⟨r, -, h⟩
    obtain ⟨hne, hn⟩ := nodup_of_interpolateAtZero h
    refine ⟨hne, hn, ?_⟩
    by_contra hs
    rw [interpolateAtZero_of_not_separated hm hn hs] at h
    cases h
  · rintro ⟨hne, hn, hs⟩
    obtain ⟨w, hw⟩ := exists_coefficients hm hn hs
    obtain ⟨r, hr, hlt, -⟩ := weightedSum_ok hm (fun i hi => (hw i hi).1) shares
      (fun s hs => List.mem_map_of_mem hs) 0 hm
    exact ⟨r, hlt, by rw [interpolateAtZero_of_nodup hne hn, hr]⟩

/-! ## Shares of a polynomial -/

theorem value_of_mem_shares {f : Polynomial} {count : Nat} {s : Share} (hs : s ∈ f.shares count) :
    s.value = f.evaluate s.index := by
  obtain ⟨i, -, rfl⟩ := List.mem_map.1 hs
  rfl

/-- **Interpolation is exact or refused.** From at least as many shares of a polynomial as it has
coefficients, in any order, comes its value at zero if all differences of indices are prime to the
modulus, and a refusal otherwise; for shares of any values the order does not matter. -/
theorem interpolateAtZero_exact_or_refused {m : Nat} (hm : 0 < m) :
    (∀ (f : Polynomial) (count : Nat) (shares : List Share), f.modulus = m →
      (∀ s ∈ shares, s ∈ f.shares count) → (shares.map Share.index).Nodup →
      f.coefficients.length ≤ shares.length →
        interpolateAtZero shares m = if Separated (shares.map Share.index) m
          then .ok (f.evaluate 0) else .error (.arithmetic .notInvertible)) ∧
      ∀ shares shares' : List Share, (shares.map Share.index).Nodup → shares.Perm shares' →
        interpolateAtZero shares m = interpolateAtZero shares' m := by
  constructor
  · rintro f count shares rfl hshares hn hlen
    split
    · next hs =>
      have hvalues : ∀ s ∈ shares, s.value = f.evaluate s.index :=
        fun s h => value_of_mem_shares (hshares s h)
      have hdegree : f.degree < shares.length := hlen
      rw [interpolateAtZero_of_separated f shares hvalues hn hdegree hs, evaluate_zero]
    · next hs => exact interpolateAtZero_of_not_separated hm hn hs
  · exact fun shares shares' hn h => interpolateAtZero_perm hm h hn

/-- The polynomial `7 + 3 * x + x ^ 2` modulo fifteen. -/
def sevenModFifteen : Polynomial := ⟨15, 7, [3, 1], by decide⟩

/-- Shares of it with the given indices. -/
def sharesOfSeven (indices : List Nat) : List Share :=
  (sevenModFifteen.shares 7).filter fun s => s.index ∈ indices

theorem interpolateAtZero_exact_or_refused_fifteen :
    interpolateAtZero (sharesOfSeven [3, 5, 7]).reverse 15 = .ok 7 ∧
      interpolateAtZero (sharesOfSeven [1, 2, 4]) 15 = .error (.arithmetic .notInvertible) ∧
      interpolateAtZero [⟨9, 4, by decide⟩, ⟨2, 20, by decide⟩] 15
        = interpolateAtZero [⟨2, 20, by decide⟩, ⟨9, 4, by decide⟩] 15 := by
  obtain ⟨hpolynomial, horder⟩ := interpolateAtZero_exact_or_refused (m := 15) (by decide)
  refine ⟨?_, ?_, ?_⟩
  · rw [hpolynomial sevenModFifteen 7 _ rfl (by decide) (by decide) (by decide),
      if_pos (by decide)]
    decide
  · rw [hpolynomial sevenModFifteen 7 _ rfl (by decide) (by decide) (by decide),
      if_neg (by decide)]
  · exact horder _ _ (by decide) (List.Perm.swap _ _ _)

/-! ## Integral coefficients -/

/-- Where a coefficient exists modulo `m`, the integral one is `delta` times it. -/
theorem IsWeights.modEq {points : List Nat} (hn : points.Nodup) {m delta : Nat} {w : Nat → Int}
    (hw : IsWeights points.toFinset delta w) {i b : Nat} (hi : i ∈ points)
    (hunit : IsUnit ((basisDenominator points i : ℤ) : ZMod m))
    (hb : (b : ZMod m) * (basisDenominator points i : ℤ) = (basisNumerator points i : ℤ)) :
    w i ≡ delta * b [ZMOD m] := by
  have hweight := hw i (List.mem_toFinset.2 hi)
  rw [← basisNumerator_eq hn, ← basisDenominator_eq hn] at hweight
  rw [← ZMod.intCast_eq_intCast_iff]
  refine hunit.mul_right_cancel ?_
  calc ((w i : ℤ) : ZMod m) * (basisDenominator points i : ℤ)
      = ((delta * basisNumerator points i : ℤ) : ZMod m) := by rw [← Int.cast_mul, hweight]
    _ = ((delta * b : ℤ) : ZMod m) * (basisDenominator points i : ℤ) := by
        push_cast
        rw [← hb, mul_assoc]

/-- **Integral coefficients exist and are exact.** For different indices of parties every
coefficient is an integer; the coefficients take the constant polynomial one to the factorial and
every other power below the number of indices to zero; and modulo a prime above the number of
parties they are the modular coefficients, times the factorial. -/
theorem integerBasisAtZero_exact {parties : Nat} {points : List Nat} (hn : points.Nodup)
    (hp : ∀ i ∈ points, 1 ≤ i ∧ i ≤ parties) :
    ∃ L : Nat → Int,
      (∀ i ∈ points, integerBasisAtZero points i (factorial parties) = .ok (L i)) ∧
      (∀ j < points.length, (points.map fun i => L i * (i : ℤ) ^ j).sum
        = if j = 0 then (factorial parties : ℤ) else 0) ∧
      ∀ m : Nat, m.Prime → parties < m → ∀ i ∈ points,
        ∃ b, basisAtZero points i m = .ok b ∧ L i ≡ factorial parties * b [ZMOD m] := by
  obtain ⟨L, hL, hweights⟩ := integerBasisAtZero_factorial hn hp
  refine ⟨L, hL, ?_, ?_⟩
  · intro j hj
    have hsum := sum_weights_pow hweights (k := j) (by rwa [List.toFinset_card_of_nodup hn])
    rw [← List.sum_toFinset _ hn, hsum, zero_pow_eq, mul_ite, mul_one, mul_zero]
  · intro m hm hlt i hi
    have hunit := isUnit_basisDenominator hn (separated_of_le hm hlt.le hp) hi
    obtain ⟨b, hb, hquotient⟩ := basisAtZero_of_isUnit hm.pos hi hunit
    exact ⟨b, hb, hweights.modEq hn hi hunit hquotient⟩

theorem integerBasisAtZero_exact_five :
    ∃ L : Nat → Int, integerBasisAtZero [5, 2, 3] 3 (factorial 5) = .ok (L 3) ∧
      L 5 + (L 2 + L 3) = factorial 5 ∧ L 5 * 5 ^ 2 + (L 2 * 2 ^ 2 + L 3 * 3 ^ 2) = 0 ∧
      ∃ b, basisAtZero [5, 2, 3] 3 7 = .ok b ∧ L 3 ≡ factorial 5 * b [ZMOD 7] := by
  obtain ⟨L, hL, hpowers, hmodular⟩ :=
    integerBasisAtZero_exact (show [5, 2, 3].Nodup by decide)
      (show ∀ i ∈ [5, 2, 3], 1 ≤ i ∧ i ≤ 5 by decide)
  have hone := hpowers 0 (by decide)
  have hsquare := hpowers 2 (by decide)
  simp only [List.map_cons, List.map_nil, List.sum_cons, List.sum_nil, pow_zero, mul_one, add_zero]
    at hone hsquare
  exact ⟨L, hL 3 (by decide), hone, hsquare,
    hmodular 7 (by decide) (by decide) 3 (by decide)⟩

end ThresholdKeys
