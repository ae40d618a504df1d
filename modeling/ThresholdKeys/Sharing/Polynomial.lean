import ThresholdKeys.Entropy.Sampling
import ThresholdKeys.Sharing.Threshold

/-!
# Sharing polynomials

A secret is the constant term of a polynomial over the numbers modulo `m`, and the share of party
`i` is the value at `i`. The other coefficients are random.
-/

namespace ThresholdKeys

/-- A polynomial over the numbers modulo `modulus`: its constant term and the coefficients above
it, lowest first. -/
structure Polynomial where
  modulus : Nat
  constant : Nat
  higher : List Nat
  modulus_pos : 0 < modulus

namespace Polynomial

/-- The data of a polynomial decide equality, its bound does not matter. -/
instance : DecidableEq Polynomial := fun f g =>
  decidable_of_iff (f.modulus = g.modulus ∧ f.constant = g.constant ∧ f.higher = g.higher)
    (Polynomial.mk.injEq .. ▸ Iff.rfl)

/-- The number of coefficients above the constant term. -/
def degree (f : Polynomial) : Nat := f.higher.length

/-- All coefficients, lowest first. -/
def coefficients (f : Polynomial) : List Nat := f.constant :: f.higher

/-- The polynomial with the given coefficients, lowest first; there has to be one. -/
def ofCoefficients (modulus : Nat) (coefficients : List Nat) :
    Outcome ArithmeticError Polynomial :=
  match coefficients with
  | [] => .error .badModulus
  | constant :: higher =>
    if h : 0 < modulus then .ok ⟨modulus, constant % modulus, higher.map (· % modulus), h⟩
    else .error .badModulus

/-- Draws `n` coefficients. -/
def drawCoefficients (modulus : Nat) : (n : Nat) → Proc Source ArithmeticError (List Nat)
  | 0 => return []
  | n + 1 => do
    let coefficient ← randomBelow modulus
    let rest ← drawCoefficients modulus n
    return coefficient :: rest

/-- A random polynomial, its constant term random too. -/
def random (degree modulus : Nat) : Proc Source ArithmeticError Polynomial :=
  if h : 0 < modulus then do
    let constant ← randomBelow modulus
    let higher ← drawCoefficients modulus degree
    return ⟨modulus, constant, higher, h⟩
  else throw .badModulus

/-- A random polynomial with the given constant term. -/
def randomWith (degree modulus constant : Nat) : Proc Source ArithmeticError Polynomial :=
  if h : 0 < modulus then do
    let higher ← drawCoefficients modulus degree
    return ⟨modulus, constant % modulus, higher, h⟩
  else throw .badModulus

/-- The value at `x`, by Horner's rule. -/
def evaluate (f : Polynomial) (x : Nat) : Nat :=
  f.coefficients.foldr (fun coefficient acc => (acc * x + coefficient) % f.modulus) 0

/-- The shares of the parties `1` to `count`. -/
def shares (f : Polynomial) (count : Nat) : List Share :=
  (List.range count).map fun i => ⟨i + 1, f.evaluate (i + 1), Nat.succ_pos i⟩

@[simp] theorem length_shares (f : Polynomial) (count : Nat) : (f.shares count).length = count := by
  simp [shares]

end Polynomial

end ThresholdKeys
