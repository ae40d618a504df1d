import Mathlib.Logic.Function.Iterate
import ThresholdKeys.Proofs.Number.Euclid
import ThresholdKeys.Proofs.Octets

/-!
# The rounds of the Euclidean algorithm

One round of the algorithm puts the newer relation in the place of the older one and what is left of
the older one in the place of the newer. Quotients are truncated toward zero, so a remainder has the
sign of the number that was divided, and its magnitude is the remainder of the magnitudes
(`Relation.natAbs_round`). Two rounds more than halve the magnitude of the newer remainder
(`Relation.two_rounds`), so that the loop is left after at most twice as many rounds as the second
number has binary digits.

`bezout_exact` puts this together with what the loop is left with, for numbers of any sign.
-/

namespace ThresholdKeys

namespace Relation

/-- One round of the loop, on the older and the newer relation. -/
def round (pair : Relation × Relation) : Relation × Relation :=
  (pair.2, pair.1.less (pair.1.r.tdiv pair.2.r) pair.2)

/-- The loop that starts from this pair makes so many rounds, each of them with a newer remainder
that is not zero, and is left with the relation `last` because then it is zero. -/
structure LeavesAfter (rounds : Nat) (pair : Relation × Relation) (last : Relation) : Prop where
  runs : ∀ j < rounds, (round^[j] pair).2.r ≠ 0
  vanishes : (round^[rounds] pair).2.r = 0
  last_eq : (round^[rounds] pair).1 = last

variable {pair : Relation × Relation} {last : Relation}

theorem LeavesAfter.zero (h : pair.2.r = 0) : LeavesAfter 0 pair pair.1 :=
  ⟨fun _ hj => absurd hj (Nat.not_lt_zero _), h, rfl⟩

theorem LeavesAfter.succ {rounds : Nat} (hr : pair.2.r ≠ 0)
    (h : LeavesAfter rounds (round pair) last) : LeavesAfter (rounds + 1) pair last := by
  refine ⟨fun j hj => ?_, h.vanishes, h.last_eq⟩
  cases j with
  | zero => exact hr
  | succ j => exact h.runs j (Nat.lt_of_succ_lt_succ hj)

/-- The function goes through the rounds of the loop. -/
theorem reduce_round (hr : pair.2.r ≠ 0) :
    reduce pair.1 pair.2 = reduce (round pair).1 (round pair).2 := by
  rw [reduce, if_neg hr]
  rfl

theorem reduce_of_zero (hr : pair.2.r = 0) : reduce pair.1 pair.2 = pair.1 := by
  rw [reduce, if_pos hr]

theorem r_round (pair : Relation × Relation) : (round pair).2.r = pair.1.r.tmod pair.2.r := by
  rw [Int.tmod_def, Int.mul_comm]
  rfl

theorem natAbs_round (pair : Relation × Relation) :
    (round pair).2.r.natAbs = pair.1.r.natAbs % pair.2.r.natAbs := by
  rw [r_round, Int.natAbs_tmod]

/-- The remainder by a smaller number is less than half of what was divided. -/
theorem two_mul_mod_lt {m x : Nat} (hx : 0 < x) (h : x < m) : 2 * (m % x) < m := by
  have hlt : m % x < x := Nat.mod_lt m hx
  have hdiv : x * 1 ≤ x * (m / x) := Nat.mul_le_mul_left x (Nat.div_pos (Nat.le_of_lt h) hx)
  have hsplit := Nat.div_add_mod m x
  omega

/-- Two rounds more than halve the newer remainder. -/
theorem two_rounds (hr : pair.2.r ≠ 0) (hr' : (round pair).2.r ≠ 0) :
    2 * (round (round pair)).2.r.natAbs < pair.2.r.natAbs := by
  have hlt : (round pair).2.r.natAbs < pair.2.r.natAbs := by
    rw [natAbs_round]
    exact Nat.mod_lt _ (Int.natAbs_pos.2 hr)
  rw [natAbs_round (round pair)]
  exact two_mul_mod_lt (Int.natAbs_pos.2 hr') hlt

/-- **The loop ends**, with what the function gives. The newer remainder loses a binary digit in
every two rounds. -/
theorem leavesAfter_reduce (pair : Relation × Relation) (digits : Nat)
    (h : pair.2.r.natAbs < 2 ^ digits) :
    ∃ rounds ≤ 2 * digits, LeavesAfter rounds pair (reduce pair.1 pair.2) := by
  -- One digit goes with two rounds: one alone may leave almost all of the remainder.
  induction digits generalizing pair with
  | zero =>
    have hr : pair.2.r = 0 := Int.natAbs_eq_zero.1 (Nat.lt_one_iff.1 h)
    rw [reduce_of_zero hr]
    exact ⟨0, Nat.le_refl _, .zero hr⟩
  | succ digits ih =>
    by_cases hr : pair.2.r = 0
    · rw [reduce_of_zero hr]
      exact ⟨0, Nat.zero_le _, .zero hr⟩
    rw [reduce_round hr]
    by_cases hr' : (round pair).2.r = 0
    · rw [reduce_of_zero hr']
      exact ⟨1, by omega, .succ hr (.zero hr')⟩
    rw [reduce_round hr']
    have hhalf := two_rounds hr hr'
    rw [Nat.pow_succ] at h
    obtain ⟨rounds, hrounds, hleaves⟩ := ih (round (round pair)) (by omega)
    exact ⟨rounds + 2, by omega, .succ hr (.succ hr' hleaves)⟩

end Relation

/-- **The extended Euclidean algorithm ends and is right, for numbers of any sign.** The loop that
starts from `a` and `b` is left after at most twice as many rounds as `b` has binary digits. What it
is left with, with all signs changed if its remainder is negative, is what the algorithm gives: the
greatest common divisor of the magnitudes, which is not negative, and coefficients of `a` and `b`
for it. -/
theorem bezout_exact (a b : Int) :
    ∃ rounds ≤ 2 * bitLength b.natAbs, ∃ last,
      Relation.LeavesAfter rounds (⟨a, 1, 0⟩, ⟨b, 0, 1⟩) last ∧
      bezout a b = (if last.r < 0 then last.negate else last) ∧
      (bezout a b).r = Nat.gcd a.natAbs b.natAbs ∧
      0 ≤ (bezout a b).r ∧
      a * (bezout a b).x + b * (bezout a b).y = (bezout a b).r := by
  obtain ⟨rounds, hrounds, hleaves⟩ := Relation.leavesAfter_reduce (⟨a, 1, 0⟩, ⟨b, 0, 1⟩)
    (bitLength b.natAbs) (lt_two_pow_bitLength _)
  have hgcd : (bezout a b).r = Nat.gcd a.natAbs b.natAbs := bezout_r a b
  refine ⟨rounds, hrounds, _, hleaves, rfl, hgcd, ?_, (holds_bezout a b).symm⟩
  rw [hgcd]
  exact Int.natCast_nonneg _

example : bezout (-12) 18 = ⟨6, 1, 1⟩ := by decide +kernel

end ThresholdKeys
