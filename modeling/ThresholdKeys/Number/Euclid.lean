import ThresholdKeys.Cause
import ThresholdKeys.Number.Checked
import ThresholdKeys.Number.Power

/-!
# The extended Euclidean algorithm

A `Relation` of `a` and `b` is a remainder together with its coefficients. `reduce` divides one
relation by the next, truncating toward zero, until the remainder vanishes; it ends because the
remainders shrink. `bezout a b` starts it with `a` and `b` themselves and makes the last non-zero
remainder, the greatest common divisor, non-negative.

`inverse` and `signedPower` are the inverse and the power of a unit modulo `m`.
-/

namespace ThresholdKeys

/-- A remainder `r = a * x + b * y`. -/
structure Relation where
  r : Int
  x : Int
  y : Int
  deriving DecidableEq, Repr

namespace Relation

/-- The relation less `q` times another one. -/
def less (old : Relation) (q : Int) (new : Relation) : Relation :=
  ⟨old.r - q * new.r, old.x - q * new.x, old.y - q * new.y⟩

/-- The relation with all signs changed. -/
def negate (rel : Relation) : Relation := ⟨-rel.r, -rel.x, -rel.y⟩

/-- Divides the older relation by the newer one until the remainder is zero. -/
def reduce (old new : Relation) : Relation :=
  if new.r = 0 then old else reduce new (old.less (old.r.tdiv new.r) new)
termination_by new.r.natAbs
decreasing_by
  have step : old.r - old.r.tdiv new.r * new.r = old.r.tmod new.r := by
    rw [Int.tmod_def, Int.mul_comm]
  simp only [less, step, Int.natAbs_tmod]
  exact Nat.mod_lt _ (Int.natAbs_pos.2 ‹_›)

end Relation

/-- The greatest common divisor of `a` and `b` with its coefficients. -/
def bezout (a b : Int) : Relation :=
  let last := Relation.reduce ⟨a, 1, 0⟩ ⟨b, 0, 1⟩
  if last.r < 0 then last.negate else last

/-- The inverse of `a` modulo `m`. -/
def inverse (a m : Nat) : Outcome ArithmeticError Nat :=
  if m = 0 then .error .badModulus
  else
    let rel := bezout (a % m : Nat) m
    if rel.r = 1 then .ok (rel.x % m).toNat else .error .notInvertible

/-- `base ^ exponent` modulo `m`; a negative exponent goes through the inverse of the base. -/
def signedPower (base : Nat) (exponent : Int) (m : Nat) : Outcome ArithmeticError Nat :=
  if m = 0 then .error .badModulus
  else if exponent < 0 then do
    let unit ← inverse base m
    return powMod unit exponent.natAbs m
  else .ok (powMod base exponent.natAbs m)

/-- The factorial of `n`. -/
def factorial (n : Nat) : Nat := (List.range n).foldl (fun product k => product * (k + 1)) 1

/-- The number of units modulo `p * q`, for two different primes. -/
def totientOfTwoPrimes {ε : Type} (p q : Nat) : Outcome ε Nat := do
  let p' ← Checked.sub p 1
  let q' ← Checked.sub q 1
  return p' * q'

end ThresholdKeys
