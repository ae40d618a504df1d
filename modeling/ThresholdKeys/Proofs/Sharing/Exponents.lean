import Mathlib.RingTheory.Polynomial.Basic
import ThresholdKeys.Proofs.Sharing.Secrecy

/-!
# What shares of an exponent say about it

The private exponent is shared over the number `phi` of units modulo `n`, which is not a prime: it
is even, and differences of indices have factors in common with it. So the count of
`card_dealings` does not carry over. A share with index `i` determines the exponent modulo the
common factors of `i` and `phi`, since all terms of the polynomial but the constant one are
multiples of `i`.

What does carry over is the argument by masks. A *mask* is a polynomial whose shares at the indices
`s` are zero; adding it changes the secret and no share. So two secrets are either consistent with
the same shares equally often, whatever the shares, or never with the same shares. Which of the two
holds depends on their difference: a multiple of the product of the indices modulo `phi` is the
constant term of a mask, and the constant term of a mask is a multiple of each index modulo `phi`.

Main statement: `card_dealings_totient`. Between its two bounds (the product of the indices and
each of them) it leaves open which differences are constant terms of masks; for one index they
coincide. It says nothing on what the public key tells about the exponent.
-/

open Finset

/-! ## Masks -/

section Masks

variable {R : Type*} [CommRing R]

/-- Over any ring, a polynomial with roots at the nodes and a multiple of the product of the nodes
as its constant term. -/
theorem Polynomial.exists_coeffs_vanishing {t : Finset ℕ} {k : ℕ} (hk : #t ≤ k) (a : R) :
    ∃ w : ℕ → R, w 0 = a * ∏ i ∈ t, (i : R) ∧
      ∀ i ∈ t, ∑ j : Fin (k + 1), w j * (i : R) ^ (j : ℕ) = 0 := by
  set p : Polynomial R := C a * ∏ i ∈ t, (C (i : R) - X)
  have hfactor : ∀ i ∈ t, (C (i : R) - X).natDegree ≤ 1 := by
    intro i _
    compute_degree
  have hdeg : p.natDegree < k + 1 := by
    calc p.natDegree ≤ (∏ i ∈ t, (C (i : R) - X)).natDegree := natDegree_C_mul_le ..
      _ ≤ ∑ i ∈ t, (C (i : R) - X).natDegree := natDegree_prod_le ..
      _ ≤ #t * 1 := sum_le_card_nsmul _ _ _ hfactor
      _ < k + 1 := by omega
  have heval : ∀ x : R, ∑ j : Fin (k + 1), p.coeff j * x ^ (j : ℕ) = p.eval x := by
    intro x
    rw [Fin.sum_univ_eq_sum_range (fun j => p.coeff j * x ^ j), ← eval_eq_sum_range' hdeg]
  refine ⟨p.coeff, ?_, ?_⟩
  · rw [coeff_zero_eq_eval_zero, eval_mul, eval_prod]
    simp
  · intro i hi
    rw [heval, eval_mul, eval_prod, prod_eq_zero hi (by simp), mul_zero]

end Masks

namespace ThresholdKeys

/-- Some polynomial modulo `m` has the constant term `δ`, and zero at all indices in `s`. -/
def IsMasked (m degree : ℕ) (s : Finset ℕ) (δ : ZMod m) : Prop :=
  ∃ w : ℕ → ZMod m, w 0 = δ ∧ ∀ i ∈ s, ∑ j : Fin (degree + 1), w j * (i : ZMod m) ^ (j : ℕ) = 0

section Secrets

variable {m degree count : ℕ} {s : Finset ℕ} {secret secret' : ℕ}

/-- A multiple of the product of the indices, up to multiples of the modulus, is masked. -/
theorem isMasked_of_modEq (hcard : #s ≤ degree)
    (h : secret ≡ secret' [MOD (∏ i ∈ s, i).gcd m]) :
    IsMasked m degree s ((secret' : ZMod m) - secret) := by
  obtain ⟨z, hz⟩ := Nat.modEq_iff_dvd.1 h
  -- Bezout: modulo `m` the common factor of the product and `m` is a multiple of the product
  have hbezout := Nat.gcd_eq_gcd_ab (∏ i ∈ s, i) m
  obtain ⟨w, hzero, hw⟩ := Polynomial.exists_coeffs_vanishing hcard
    (((∏ i ∈ s, i).gcdA m * z : ℤ) : ZMod m)
  refine ⟨w, ?_, hw⟩
  have hcast := congrArg (fun x : ℤ => (x : ZMod m)) (hbezout ▸ hz)
  push_cast at hcast hzero
  rw [hzero, hcast, ZMod.natCast_self]
  ring

/-- What is masked is a multiple of each index, up to multiples of the modulus. -/
theorem IsMasked.modEq (h : IsMasked m degree s ((secret' : ZMod m) - secret)) {i : ℕ}
    (hi : i ∈ s) : secret ≡ secret' [MOD i.gcd m] := by
  obtain ⟨w, hzero, hw⟩ := h
  have hcastHom : i.gcd m ∣ m := Nat.gcd_dvd_right i m
  -- modulo the common factor the index is zero, and all that is left of the value is its constant
  have hi0 : ((i : ℕ) : ZMod (i.gcd m)) = 0 :=
    (ZMod.natCast_eq_zero_iff ..).2 (Nat.gcd_dvd_left i m)
  have h0 := congrArg (ZMod.castHom hcastHom (ZMod (i.gcd m))) (hw i hi)
  rw [map_sum, Fin.sum_univ_succ] at h0
  simp only [map_mul, map_pow, map_natCast, hi0, Fin.val_zero, hzero, map_sub, map_zero] at h0
  have hdiff : (secret' : ZMod (i.gcd m)) - secret = 0 := by simpa using h0
  exact (ZMod.natCast_eq_natCast_iff ..).1 (sub_eq_zero.1 hdiff).symm

/-- A mask carries the polynomials that fit one secret to those that fit the other. -/
theorem IsMasked.card_dealings_eq (hmask : IsMasked m degree s ((secret' : ZMod m) - secret))
    [NeZero m] (hs : s ⊆ Icc 1 count) {v : ℕ → ℕ} (hv : ∀ i ∈ s, v i < m) (h : secret < m)
    (h' : secret' < m) :
    #(dealings m degree count s v secret) = #(dealings m degree count s v secret') := by
  obtain ⟨w, hzero, hw⟩ := hmask
  have hpoint : ∀ i ∈ withSecret s, pointValue m secret' v i
      = pointValue m secret v i + ∑ j : Fin (degree + 1), w j * (i : ZMod m) ^ (j : ℕ) := by
    intro i hi
    rcases mem_insert.1 hi with rfl | hi
    · simp [pointValue, Fin.sum_univ_succ, hzero]
    · have hne : i ≠ 0 := by
        have := (mem_Icc.1 (hs hi)).1
        omega
      simp [pointValue, hne, hw i hi]
  rw [card_dealings_eq_card_values hs hv h, card_dealings_eq_card_values hs hv h']
  apply card_nbij' (fun g => g + fun j : Fin _ => w j) (fun g => g - fun j : Fin _ => w j)
  · intro g hg
    simp only [coe_filter, Set.mem_ofPred_eq, mem_univ, true_and] at hg ⊢
    intro i hi
    simp [add_mul, sum_add_distrib, hg i hi, hpoint i hi]
  · intro g hg
    simp only [coe_filter, Set.mem_ofPred_eq, mem_univ, true_and] at hg ⊢
    intro i hi
    simp [sub_mul, sum_sub_distrib, hg i hi, hpoint i hi]
  · intro g _
    simp
  · intro g _
    simp

/-- Polynomials that deal the same shares of two secrets differ by a mask. -/
theorem isMasked_of_mem_dealings (hs : s ⊆ Icc 1 count) {v : ℕ → ℕ} (hv : ∀ i ∈ s, v i < m)
    {c c' : Fin (degree + 1) → Fin m} (hc : c ∈ dealings m degree count s v secret)
    (hc' : c' ∈ dealings m degree count s v secret') :
    IsMasked m degree s ((secret' : ZMod m) - secret) := by
  obtain ⟨-, hsecret, hshares⟩ := mem_filter.1 hc
  obtain ⟨-, hsecret', hshares'⟩ := mem_filter.1 hc'
  rw [sharesAre_iff hs hv] at hshares hshares'
  refine ⟨fun j => ((c' (Fin.ofNat _ j)).val : ZMod m) - (c (Fin.ofNat _ j)).val, ?_, ?_⟩
  · rw [← hsecret, ← hsecret']
    rfl
  · intro i hi
    simp only [Fin.ofNat_val_eq_self, sub_mul, sum_sub_distrib, hshares i hi, hshares' i hi,
      sub_self]

/-- The constant polynomial deals its constant to everybody. -/
theorem dealings_const_nonempty [NeZero m] (degree : ℕ) (hs : s ⊆ Icc 1 count) (h : secret < m) :
    (dealings m degree count s (fun _ => secret) secret).Nonempty := by
  refine ⟨Fin.cons ⟨secret, h⟩ fun _ => 0, mem_filter.2 ⟨mem_univ _, rfl, ?_⟩⟩
  rw [sharesAre_iff hs fun _ _ => h]
  intro i _
  simp [Fin.sum_univ_succ]

/-! ## Two secrets -/

/-- Whatever the shares at the indices `s`, both secrets fit them equally often. -/
def Indistinguishable (m degree count : ℕ) (s : Finset ℕ) (secret secret' : ℕ) : Prop :=
  ∀ v : ℕ → ℕ, (∀ i ∈ s, v i < m) →
    #(dealings m degree count s v secret) = #(dealings m degree count s v secret')

/-- Whatever the shares at the indices `s`, they rule one of the secrets out. -/
def ToldApart (m degree count : ℕ) (s : Finset ℕ) (secret secret' : ℕ) : Prop :=
  ∀ v : ℕ → ℕ, (∀ i ∈ s, v i < m) →
    dealings m degree count s v secret = ∅ ∨ dealings m degree count s v secret' = ∅

/-- Two secrets cannot be distinguished exactly if their difference is masked. -/
theorem indistinguishable_iff [NeZero m] (hs : s ⊆ Icc 1 count) (h : secret < m)
    (h' : secret' < m) : Indistinguishable m degree count s secret secret' ↔
      IsMasked m degree s ((secret' : ZMod m) - secret) := by
  constructor
  · intro heq
    -- the constant polynomial is one dealing of the first secret, so there is one of the second
    obtain ⟨c, hc⟩ := dealings_const_nonempty degree hs h
    have hpos := card_pos.2 ⟨c, hc⟩
    rw [heq _ fun _ _ => h] at hpos
    obtain ⟨c', hc'⟩ := card_pos.1 hpos
    exact isMasked_of_mem_dealings hs (fun _ _ => h) hc hc'
  · intro hmask v hv
    exact hmask.card_dealings_eq hs hv h h'

/-- There is nothing between the two: secrets that can be distinguished are told apart. -/
theorem toldApart_iff [NeZero m] (hs : s ⊆ Icc 1 count) (h : secret < m) (h' : secret' < m) :
    ToldApart m degree count s secret secret' ↔
      ¬ Indistinguishable m degree count s secret secret' := by
  rw [indistinguishable_iff hs h h']
  constructor
  · intro hapart hmask
    have hconst := dealings_const_nonempty degree hs h
    have hcard := hmask.card_dealings_eq hs (fun _ _ => h) h h'
    rcases hapart _ fun _ _ => h with hnone | hnone
    · exact hconst.ne_empty hnone
    · rw [hnone, card_empty] at hcard
      exact hconst.ne_empty (card_eq_zero.1 hcard)
  · intro hmask v hv
    by_contra! hboth
    obtain ⟨⟨c, hc⟩, ⟨c', hc'⟩⟩ := hboth
    exact hmask (isMasked_of_mem_dealings hs hv hc hc')

end Secrets

/-! ## Exponents -/

/-- The number of units modulo a product of two primes is not zero. -/
theorem totientOfTwoPrimes_pos {ε : Type} {p q phi : ℕ} (hp : p.Prime) (hq : q.Prime)
    (hphi : (totientOfTwoPrimes p q : Outcome ε ℕ) = .ok phi) : 0 < phi := by
  have hp2 := hp.two_le
  have hq2 := hq.two_le
  rw [totientOfTwoPrimes, Checked.sub_of_le (by omega), Checked.sub_of_le (by omega)] at hphi
  simp only [Outcome.ok_bind] at hphi
  cases hphi
  exact Nat.mul_pos (by omega) (by omega)

/-- **What fewer shares than the threshold say about an exponent**: exponents that agree modulo the
common factor of `phi` and the product of the indices cannot be distinguished, exponents that differ
modulo the common factor of `phi` and one of the indices are told apart, and there is no third
case. -/
theorem card_dealings_totient {p q phi : ℕ} (hp : p.Prime) (hq : q.Prime)
    (hphi : (totientOfTwoPrimes p q : Outcome ProtocolError ℕ) = .ok phi) {degree parties : ℕ}
    {s : Finset ℕ} (hs : s ⊆ Icc 1 parties) (hcard : #s ≤ degree) {d d' : ℕ} (hd : d < phi)
    (hd' : d' < phi) :
    (d ≡ d' [MOD (∏ i ∈ s, i).gcd phi] → Indistinguishable phi degree parties s d d') ∧
      (∀ i ∈ s, ¬ d ≡ d' [MOD i.gcd phi] → ToldApart phi degree parties s d d') ∧
      (ToldApart phi degree parties s d d' ↔ ¬ Indistinguishable phi degree parties s d d') := by
  have : NeZero phi := ⟨(totientOfTwoPrimes_pos hp hq hphi).ne'⟩
  have hiff : Indistinguishable phi degree parties s d d' ↔ _ := indistinguishable_iff hs hd hd'
  have hthird : ToldApart phi degree parties s d d' ↔ _ := toldApart_iff hs hd hd'
  refine ⟨?_, ?_, hthird⟩
  · intro hmod
    exact hiff.2 (isMasked_of_modEq hcard hmod)
  · intro i hi hmod
    exact hthird.2 fun heq => hmod ((hiff.1 heq).modEq hi)

/-- Two of four holders who have the indices 1 and 4, of an exponent modulo 8 that takes three
holders to use. -/
theorem card_dealings_totient_eight :
    Indistinguishable 8 2 4 {1, 4} 1 5 ∧ ToldApart 8 2 4 {1, 4} 1 3 :=
  ⟨(card_dealings_totient (p := 3) (q := 5) (by decide) (by decide) rfl (by decide) (by decide)
      (by decide) (by decide)).1 (by decide),
    (card_dealings_totient (p := 3) (q := 5) (by decide) (by decide) rfl (by decide) (by decide)
      (by decide) (by decide)).2.1 4 (by decide) (by decide)⟩

/-- One holder of an exponent that takes two to use, with the index 4 and the share 1: the exponent
1 fits in four ways and the exponent 3 in none, although both are units modulo 8. -/
theorem card_dealings_eight_index_four :
    Nat.Prime 3 ∧ Nat.Prime 5 ∧ (totientOfTwoPrimes 3 5 : Outcome ProtocolError ℕ) = .ok 8 ∧
      Nat.Coprime 1 8 ∧ Nat.Coprime 3 8 ∧ #(dealings 8 1 4 {4} (fun _ => 1) 1) = 4 ∧
      #(dealings 8 1 4 {4} (fun _ => 1) 3) = 0 := by
  refine ⟨by decide, by decide, rfl, by decide, by decide, ?_, ?_⟩
  · decide +kernel
  · decide +kernel

end ThresholdKeys
