import ThresholdKeys.Number.Euclid
import ThresholdKeys.Sharing.Threshold

/-!
# Interpolation at zero

The value of a polynomial at zero is a combination of its values at other points. The coefficient
of the point `i` is `λ i`, the product of `j / (j - i)` over the other points `j`.

* `basisAtZero` is `λ i` modulo `m`, where the differences have inverses.
* `integerBasisAtZero` is `Δ * λ i` as an integer, for keys whose modulus nobody knows; with the
  factorial of the number of parties for `Δ` it always exists.
* `interpolateAtZero` puts a secret together from shares.
-/

namespace ThresholdKeys

/-- The product of `f j` over a list. -/
def productOf (f : Nat → Int) (l : List Nat) : Int := l.foldl (fun product j => product * f j) 1

/-- The points other than `i`. -/
def otherPoints (i : Nat) (points : List Nat) : List Nat := points.filter (· ≠ i)

/-- The product of the other points. -/
def basisNumerator (points : List Nat) (i : Nat) : Int :=
  productOf (fun j => (j : Int)) (otherPoints i points)

/-- The product of the differences to the other points. -/
def basisDenominator (points : List Nat) (i : Nat) : Int :=
  productOf (fun j => (j : Int) - i) (otherPoints i points)

/-- The coefficient of the point `i` for the value at zero, modulo `m`. -/
def basisAtZero (points : List Nat) (i m : Nat) : Outcome ArithmeticError Nat :=
  if i ∈ points then do
    let numerator ← Checked.emod (basisNumerator points i) m
    let denominator ← Checked.emod (basisDenominator points i) m
    let unit ← inverse denominator m
    Checked.mod (numerator * unit) m
  else .error .unknownIndex

/-- The coefficient of the point `i` for the value at zero, times `delta`, as an integer. -/
def integerBasisAtZero (points : List Nat) (i delta : Nat) : Outcome ArithmeticError Int :=
  if i ∈ points then do
    let (quotient, remainder) ←
      Checked.divide (delta * basisNumerator points i) (basisDenominator points i)
    if remainder = 0 then return quotient else throw .notInvertible
  else .error .unknownIndex

/-- The first member of a list that occurs again after it. -/
def firstRepeated? : List Nat → Option Nat
  | [] => none
  | i :: rest => if i ∈ rest then some i else firstRepeated? rest

/-- The sum of shares, each times its coefficient, modulo `m`, on top of `acc`. -/
def weightedSum (points : List Nat) (m : Nat) : List Share → (acc : Nat) → Outcome SharingError Nat
  | [], acc => .ok acc
  | share :: rest, acc => do
    let weight ← (basisAtZero points share.index m).mapError .arithmetic
    let acc ← Checked.mod (acc + share.value * weight) m
    weightedSum points m rest acc

/-- The value at zero of the polynomial that the shares lie on, modulo `m`. How many shares are
enough is for the caller to say; here one is. -/
def interpolateAtZero (shares : List Share) (m : Nat) : Outcome SharingError Nat :=
  if shares.isEmpty then .error (.tooFewShares 0 1)
  else
    let points := shares.map Share.index
    match firstRepeated? points with
    | some i => .error (.duplicateIndex i)
    | none => weightedSum points m shares 0

end ThresholdKeys
