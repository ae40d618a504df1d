import ThresholdKeys.Procedure
import ThresholdKeys.Rsa.Key
import ThresholdKeys.Sharing.Interpolation

/-!
# Putting signatures together

Partial signatures `EM ^ dᵢ` are combined without the private exponent `d`. With `Δ` the factorial
of the number of parties, the product of `cᵢ ^ (Δ * λᵢ)` is `EM ^ (Δ * d)`; since the public
exponent `e` has no factor in common with `Δ`, there are `a` and `b` with `a * e + b * Δ = 1`, and
`EM ^ a` times that product to the power `b` is a signature. It is checked before it is handed out.
-/

namespace ThresholdKeys.Rsa

/-- What one holder contributes to a signature. -/
structure PartialSignature where
  index : Nat
  value : Nat
  deriving DecidableEq

/-- The coefficients `a` and `b` with `a * e + b * delta = 1`. -/
def unitCoefficients (e delta : Nat) : Outcome ProtocolError (Int × Int) :=
  let rel := bezout e delta
  if rel.r = 1 then .ok (rel.x, rel.y) else .error (.badParameters .exponentDividesFactorial)

/-- The product of partial signatures, each to its integral coefficient, modulo `n`, on top of
`acc`. -/
def productOfPartials (indices : List Nat) (delta n : Nat) :
    List PartialSignature → (acc : Nat) → Outcome ArithmeticError Nat
  | [], acc => .ok acc
  | p :: rest, acc => do
    let weight ← integerBasisAtZero indices p.index delta
    let power ← signedPower p.value weight n
    productOfPartials indices delta n rest (acc * power % n)

/-- The number that partial signatures on an encoded message combine to; nothing is checked. -/
def combineUnchecked (partials : List PartialSignature) (encoded : Nat) (pk : PublicKey)
    (parties : Nat) : Outcome ProtocolError Nat := do
  let delta := factorial parties
  let (a, b) ← unitCoefficients pk.exponent delta
  (do
    let w ← productOfPartials (partials.map PartialSignature.index) delta pk.modulus partials 1
    let left ← signedPower encoded a pk.modulus
    let right ← signedPower w b pk.modulus
    return left * right % pk.modulus : Outcome ArithmeticError Nat).mapError .ofArithmetic

/-- The number whose power to the public exponent is the encoded message, from partial signatures
on that message. A wrong partial signature is noticed. -/
def combine {σ : Type} (partials : List PartialSignature) (encoded : Nat) (pk : PublicKey)
    (parties : Nat) : Proc σ ProtocolError Nat := do
  let y ← combineUnchecked partials encoded pk parties
  if powMod y pk.exponent pk.modulus = encoded then return y
  else
    Proc.note .warn ("Combined signature from shares " ++
      indexList (partials.map PartialSignature.index) ++ " does not verify")
    throw .signatureRejected

end ThresholdKeys.Rsa
