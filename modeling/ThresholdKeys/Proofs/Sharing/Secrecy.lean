import Mathlib.Algebra.Field.ZMod
import Mathlib.GroupTheory.Index
import ThresholdKeys.Proofs.Sharing.Lagrange

/-!
# Too few shares say nothing

Over a prime modulus, fewer shares than coefficients fit every secret equally well. Fixing the
secret fixes the value at zero, fixing a share the value at its index, so what is counted are the
polynomials with prescribed values at `n` points. Evaluation at the points is a homomorphism onto
all tuples of values (there is an interpolating polynomial), and all fibres of it have the same
size.

Main statement: `card_dealings`. This is about the distribution of shares alone; how coefficients
are drawn is not part of it.
-/

open Finset

/-! ## Polynomials with prescribed values -/

section PrescribedValues

variable {F : Type*} [Field F] {t : Finset ℕ} {v : ℕ → F} {k : ℕ}

/-- Some polynomial with `k` coefficients takes prescribed values at no more than `k` nodes. -/
theorem Lagrange.exists_coeffs (hv : Set.InjOn v t) (hk : #t ≤ k) (r : ℕ → F) :
    ∃ g : Fin k → F, ∀ i ∈ t, ∑ j, g j * v i ^ (j : ℕ) = r i := by
  set p := Lagrange.interpolate t v r
  have hdeg : p.degree < k :=
    (Lagrange.degree_interpolate_lt r hv).trans_le (by exact_mod_cast hk)
  refine ⟨fun j => p.coeff j, ?_⟩
  intro i hi
  have hpos : 0 < k := (card_pos.2 ⟨i, hi⟩).trans_le hk
  have hnat : p.natDegree < k := by
    by_cases h0 : p = 0
    · rw [h0, Polynomial.natDegree_zero]
      exact hpos
    · exact (Polynomial.natDegree_lt_iff_degree_lt h0).2 hdeg
  rw [Fin.sum_univ_eq_sum_range (fun j => p.coeff j * v i ^ j),
    ← Polynomial.eval_eq_sum_range' hnat]
  exact Lagrange.eval_interpolate_at_node r hv hi

/-- The values at the nodes of the polynomial with the given coefficients. -/
def Lagrange.valuesAt (t : Finset ℕ) (v : ℕ → F) (k : ℕ) : (Fin k → F) →+ (t → F) where
  toFun g i := ∑ j, g j * v i ^ (j : ℕ)
  map_zero' := by
    funext i
    simp
  map_add' g h := by
    funext i
    simp [add_mul, sum_add_distrib]

theorem Lagrange.valuesAt_surjective (hv : Set.InjOn v t) (hk : #t ≤ k) :
    Function.Surjective (Lagrange.valuesAt t v k) := by
  intro y
  obtain ⟨g, hg⟩ := Lagrange.exists_coeffs hv hk (fun i => if h : i ∈ t then y ⟨i, h⟩ else 0)
  refine ⟨g, ?_⟩
  funext i
  have h := hg i i.2
  rw [dif_pos i.2] at h
  exact h

/-- Each node takes one free coefficient away: this many polynomials have prescribed values. -/
theorem Lagrange.card_values_eq [Fintype F] [DecidableEq F] (hv : Set.InjOn v t) (hk : #t ≤ k)
    (r : ℕ → F) :
    #{g : Fin k → F | ∀ i ∈ t, ∑ j, g j * v i ^ (j : ℕ) = r i} = Fintype.card F ^ (k - #t) := by
  have hsurj := Lagrange.valuesAt_surjective hv hk
  have hfib : ∀ y : t → F, #{g : Fin k → F | Lagrange.valuesAt t v k g = y}
      = #{g : Fin k → F | Lagrange.valuesAt t v k g = fun i : t => r i} := fun y =>
    AddMonoidHom.card_fiber_eq_of_mem_range (Lagrange.valuesAt t v k) (hsurj y) (hsurj _)
  have hset : #{g : Fin k → F | ∀ i ∈ t, ∑ j, g j * v i ^ (j : ℕ) = r i}
      = #{g : Fin k → F | Lagrange.valuesAt t v k g = fun i : t => r i} := by
    congr 1
    apply filter_congr
    intro g _
    rw [funext_iff, Subtype.forall]
    rfl
  have hall : Fintype.card F ^ k = Fintype.card F ^ #t
      * #{g : Fin k → F | Lagrange.valuesAt t v k g = fun i : t => r i} := by
    have h := card_eq_sum_card_fiberwise (f := Lagrange.valuesAt t v k)
      (s := (univ : Finset (Fin k → F))) (t := univ) fun _ _ => mem_univ _
    rw [sum_congr rfl fun y _ => hfib y, sum_const] at h
    simpa using h
  rw [hset]
  refine Nat.eq_of_mul_eq_mul_left (Nat.pow_pos Fintype.card_pos : 0 < Fintype.card F ^ #t) ?_
  rw [← hall, ← pow_add, Nat.add_sub_cancel' hk]

end PrescribedValues

namespace ThresholdKeys

/-! ## Coefficients that fit shares -/

/-- Whether the shares that are dealt from coefficients have the values `v` at the indices `s`. -/
def SharesAre (m count : Nat) (s : Finset Nat) (v : Nat → Nat) (coefficients : List Nat) : Prop :=
  match Polynomial.ofCoefficients m coefficients with
  | .ok f => ∀ i ∈ s, ∃ share ∈ f.shares count, share.index = i ∧ share.value = v i
  | _ => False

instance decidableSharesAre (m count : Nat) (s : Finset Nat) (v : Nat → Nat)
    (coefficients : List Nat) : Decidable (SharesAre m count s v coefficients) :=
  match h : Polynomial.ofCoefficients m coefficients with
  | .ok f =>
    decidable_of_iff (∀ i ∈ s, ∃ share ∈ f.shares count, share.index = i ∧ share.value = v i)
      (by rw [SharesAre, h])
  | .error _ => isFalse (by rw [SharesAre, h]; exact id)
  | .fault => isFalse (by rw [SharesAre, h]; exact id)
  | .stalled => isFalse (by rw [SharesAre, h]; exact id)

/-- The coefficient vectors with a given constant term whose shares at the indices `s` are `v`. -/
def dealings (m degree count : Nat) (s : Finset Nat) (v : Nat → Nat) (secret : Nat) :
    Finset (Fin (degree + 1) → Fin m) :=
  univ.filter fun c => (c 0).val = secret ∧ SharesAre m count s v (List.ofFn fun j => (c j).val)

theorem horner_ofFn {R : Type*} [CommRing R] {k : ℕ} (c : Fin k → ℕ) (x : R) :
    horner (List.ofFn c) x = ∑ j, (c j : R) * x ^ (j : ℕ) := by
  induction k with
  | zero => simp [horner]
  | succ k ih =>
    rw [List.ofFn_succ, horner_cons, ih, Fin.sum_univ_succ, sum_mul, add_comm]
    simp [pow_succ, mul_assoc]

/-- The polynomial with given coefficients below `m`. -/
def ofVector {m degree : ℕ} (c : Fin (degree + 1) → Fin m) : Polynomial :=
  ⟨m, (c 0).val, List.ofFn fun j : Fin degree => (c j.succ).val, (c 0).pos⟩

theorem ofCoefficients_ofFn {m degree : ℕ} (c : Fin (degree + 1) → Fin m) :
    Polynomial.ofCoefficients m (List.ofFn fun j => (c j).val) = .ok (ofVector c) := by
  rw [List.ofFn_succ, Polynomial.ofCoefficients, dif_pos (c 0).pos, Nat.mod_eq_of_lt (c 0).isLt,
    List.map_ofFn, ofVector]
  congr 3
  funext j
  exact Nat.mod_eq_of_lt (c j.succ).isLt

theorem natCast_evaluate_ofVector {m degree : ℕ} (c : Fin (degree + 1) → Fin m) (i : ℕ) :
    (((ofVector c).evaluate i : ℕ) : ZMod m)
      = ∑ j, ((c j).val : ZMod m) * (i : ZMod m) ^ (j : ℕ) := by
  have hcoef : (ofVector c).coefficients = List.ofFn fun j => (c j).val := by
    rw [List.ofFn_succ]
    rfl
  rw [← horner_ofFn, ← hcoef]
  exact natCast_evaluate (ofVector c) i

/-- Party `i` has a share with some value if that is the value of the polynomial. -/
theorem exists_share_iff {f : Polynomial} {count i y : ℕ} (hi : i ∈ Icc 1 count) :
    (∃ share ∈ f.shares count, share.index = i ∧ share.value = y) ↔ f.evaluate i = y := by
  obtain ⟨h1, hcount⟩ := mem_Icc.1 hi
  constructor
  · rintro ⟨share, hshare, rfl, hvalue⟩
    obtain ⟨j, -, rfl⟩ := List.mem_map.1 hshare
    exact hvalue
  · intro h
    refine ⟨⟨i, f.evaluate i, h1⟩, List.mem_map.2 ⟨i - 1, List.mem_range.2 (by omega), ?_⟩, rfl, h⟩
    simp only [show i - 1 + 1 = i by omega]

/-- The shares of given coefficients, as equations between numbers modulo `m`. -/
theorem sharesAre_iff {m degree count : ℕ} {s : Finset ℕ} (hs : s ⊆ Icc 1 count) {v : ℕ → ℕ}
    (hv : ∀ i ∈ s, v i < m) (c : Fin (degree + 1) → Fin m) :
    SharesAre m count s v (List.ofFn fun j => (c j).val) ↔
      ∀ i ∈ s, ∑ j, ((c j).val : ZMod m) * (i : ZMod m) ^ (j : ℕ) = v i := by
  unfold SharesAre
  rw [ofCoefficients_ofFn]
  apply forall₂_congr
  intro i hi
  have hlt : (ofVector c).evaluate i < m := evaluate_lt (ofVector c) i
  rw [exists_share_iff (hs hi), ← natCast_evaluate_ofVector, natCast_inj_of_lt hlt (hv i hi)]

/-- The indices of shares, and zero for the secret. -/
def withSecret (s : Finset ℕ) : Finset ℕ := insert 0 s

/-- Zero and the indices of shares are different numbers modulo a larger modulus. -/
theorem injOn_indices {m count : ℕ} (hcount : count < m) {s : Finset ℕ} (hs : s ⊆ Icc 1 count) :
    Set.InjOn (fun i : ℕ => (i : ZMod m)) (withSecret s) := by
  have hlt : ∀ i ∈ withSecret s, i < m := by
    intro i hi
    rcases mem_insert.1 hi with rfl | hi
    · omega
    · exact (mem_Icc.1 (hs hi)).2.trans_lt hcount
  intro i hi j hj hij
  exact (natCast_inj_of_lt (hlt i hi) (hlt j hj)).1 hij

/-- The value that the secret or a share prescribes at an index. -/
def pointValue (m secret : ℕ) (v : ℕ → ℕ) (i : ℕ) : ZMod m := if i = 0 then secret else v i

/-- A secret and shares, as values at zero and at the indices. -/
theorem secret_and_sharesAre_iff {m degree count : ℕ} {s : Finset ℕ} (hs : s ⊆ Icc 1 count)
    {v : ℕ → ℕ} (hv : ∀ i ∈ s, v i < m) {secret : ℕ} (h : secret < m)
    (c : Fin (degree + 1) → Fin m) :
    ((c 0).val = secret ∧ SharesAre m count s v (List.ofFn fun j => (c j).val)) ↔
      ∀ i ∈ withSecret s, ∑ j, ((c j).val : ZMod m) * (i : ZMod m) ^ (j : ℕ)
        = pointValue m secret v i := by
  have hzero : ∑ j, ((c j).val : ZMod m) * ((0 : ℕ) : ZMod m) ^ (j : ℕ) = ((c 0).val : ZMod m) := by
    rw [Fin.sum_univ_succ]
    simp
  rw [sharesAre_iff hs hv, withSecret, forall_mem_insert, hzero]
  apply and_congr
  · rw [pointValue, if_pos rfl, natCast_inj_of_lt (c 0).isLt h]
  · apply forall₂_congr
    intro i hi
    have hpos := (mem_Icc.1 (hs hi)).1
    rw [pointValue, if_neg (by omega)]

/-- Coefficient vectors that deal given shares of a secret are polynomials modulo `m` with
prescribed values at zero and at the indices of the shares. -/
theorem card_dealings_eq_card_values {m degree count : ℕ} [NeZero m] {s : Finset ℕ}
    (hs : s ⊆ Icc 1 count) {v : ℕ → ℕ} (hv : ∀ i ∈ s, v i < m) {secret : ℕ} (h : secret < m) :
    #(dealings m degree count s v secret)
      = #{g : Fin (degree + 1) → ZMod m | ∀ i ∈ withSecret s,
          ∑ j, g j * (i : ZMod m) ^ (j : ℕ) = pointValue m secret v i} := by
  apply card_nbij' (fun c j => ((c j).val : ZMod m)) (fun g j => ⟨(g j).val, ZMod.val_lt _⟩)
  · intro c hc
    simp only [dealings, coe_filter, Set.mem_ofPred_eq, mem_univ, true_and] at hc ⊢
    exact (secret_and_sharesAre_iff hs hv h c).1 hc
  · intro g hg
    simp only [dealings, coe_filter, Set.mem_ofPred_eq, mem_univ, true_and] at hg ⊢
    apply (secret_and_sharesAre_iff hs hv h fun j => ⟨(g j).val, ZMod.val_lt _⟩).2
    simpa using hg
  · intro c _
    funext j
    exact Fin.ext (ZMod.val_cast_of_lt (c j).isLt)
  · intro g _
    funext j
    exact ZMod.natCast_zmod_val (g j)

/-- **Fewer shares than coefficients say nothing about the secret**: whatever the shares, every
secret is the constant term of equally many coefficient vectors that deal them. -/
theorem card_dealings {m : ℕ} (hm : m.Prime) (degree : ℕ) {count : ℕ} (hcount : count < m)
    {s : Finset ℕ} (hs : s ⊆ Icc 1 count) (hcard : #s ≤ degree) {v : ℕ → ℕ}
    (hv : ∀ i ∈ s, v i < m) {secret secret' : ℕ} (h : secret < m) (h' : secret' < m) :
    #(dealings m degree count s v secret) = m ^ (degree - #s) ∧
      #(dealings m degree count s v secret) = #(dealings m degree count s v secret') := by
  have := Fact.mk hm
  have hpoints : #(withSecret s) = #s + 1 :=
    card_insert_of_notMem fun h0 => by simpa using hs h0
  have key : ∀ x < m, #(dealings m degree count s v x) = m ^ (degree - #s) := by
    intro x hx
    rw [card_dealings_eq_card_values hs hv hx, Lagrange.card_values_eq (injOn_indices hcount hs)
      (by rw [hpoints]; omega), hpoints, ZMod.card, Nat.add_sub_add_right]
  exact ⟨key secret h, (key secret h).trans (key secret' h').symm⟩

/-- Two of six shares, of a secret that takes four to recover. -/
theorem card_dealings_two_of_four :
    #(dealings 7 3 6 {2, 5} (fun i => 3 * i % 7) 0) = 7 ^ (3 - #({2, 5} : Finset ℕ)) ∧
      #(dealings 7 3 6 {2, 5} (fun i => 3 * i % 7) 0)
        = #(dealings 7 3 6 {2, 5} (fun i => 3 * i % 7) 6) :=
  card_dealings (by decide) 3 (by decide) (by decide) (by decide) (by decide) (by decide)
    (by decide)

end ThresholdKeys
