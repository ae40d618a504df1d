import ThresholdKeys.Cause
import ThresholdKeys.Entropy.Source
import ThresholdKeys.Number.Prime
import ThresholdKeys.Procedure

/-!
# Random numbers

Numbers are drawn by rejection. A block of as many octets as the bound has is read as a number of as
many binary digits as the bound has; it is taken if it is below the bound, and another block is
drawn otherwise, so that every number below the bound is equally likely.
-/

namespace ThresholdKeys

/-- Draws `n` octets from a source. -/
def draw (n : Nat) : Proc Source EntropyError Bytes := fun patience s =>
  match s.mustRead patience n with
  | ⟨.ok (), written, s⟩ => ⟨.ok written, s, []⟩
  | ⟨.error e, _, s⟩ => ⟨.error e, s, []⟩
  | ⟨.fault, _, s⟩ => ⟨.fault, s, []⟩
  | ⟨.stalled, _, s⟩ => ⟨.stalled, s, []⟩

/-- The number that the low `bits` binary digits of a block are. -/
def candidate (bits : Nat) (block : Bytes) : Nat := Bytes.toNat block % 2 ^ bits

/-- Draws a number of at most `bits` binary digits. -/
def drawCandidate (bits : Nat) : Proc Source ArithmeticError Nat := do
  let block ← (draw ((bits + 7) / 8)).mapError .entropy
  return candidate bits block

/-- A number below `upper`, each with the same chance. -/
def randomBelow (upper : Nat) : Proc Source ArithmeticError Nat :=
  if upper = 0 then throw .badModulus
  else Proc.search do
    let value ← drawCandidate (bitLength upper)
    return if value < upper then some value else none

/-- A number from one on and below `upper`, each with the same chance. -/
def randomNonzeroBelow (upper : Nat) : Proc Source ArithmeticError Nat :=
  if upper ≤ 1 then throw .badModulus
  else Proc.search do
    let value ← randomBelow upper
    return if value = 0 then none else some value

/-- The number with its top two binary digits, of `bits`, and its lowest one set. -/
def withPrimeShape (bits value : Nat) : Nat := value ||| 2 ^ (bits - 1) ||| 2 ^ (bits - 2) ||| 1

/-- A probable prime of exactly `bits` binary digits, the top two of them set, so that a product of
two such primes has the sum of their lengths. A short test screens the candidates for the full
one. -/
def randomPrime (bits : Nat) : Proc Source ArithmeticError Nat :=
  if bits < 16 then throw .badModulus
  else Proc.search do
    let value ← drawCandidate bits
    let n := withPrimeShape bits value
    return if isProbablePrime n screenRounds && isProbablePrime n fullRounds then some n else none

end ThresholdKeys
