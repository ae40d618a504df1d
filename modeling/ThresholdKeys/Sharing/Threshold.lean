import ThresholdKeys.Cause
import ThresholdKeys.Outcome

/-!
# Thresholds and shares

A key is shared among a number of parties so that a threshold of them can use it. More than half of
the parties are needed to be trusted: there are at least `2 * threshold - 1` of them. Party `i`,
from one on, holds the share with index `i`; index zero is the secret itself and no share's.
-/

namespace ThresholdKeys

/-- How many parties hold shares, and how many of them it takes. -/
structure Threshold where
  parties : Nat
  threshold : Nat
  threshold_pos : 0 < threshold
  majority : 2 * threshold ≤ parties + 1
  deriving DecidableEq

namespace Threshold

/-- The parameters, if they leave an honest majority. -/
def of (parties threshold : Nat) : Outcome SharingError Threshold :=
  if h : 0 < threshold ∧ 2 * threshold ≤ parties + 1 then .ok ⟨parties, threshold, h.1, h.2⟩
  else .error (.badParameters parties threshold)

/-- The parameters in words. -/
def text (t : Threshold) : String := s!"{t.threshold}-of-{t.parties}"

/-- Whether a party has the index. -/
def isIndex (t : Threshold) (index : Nat) : Bool := 1 ≤ index && index ≤ t.parties

end Threshold

/-- A point of the sharing polynomial. -/
structure Share where
  index : Nat
  value : Nat
  index_pos : 0 < index
  deriving DecidableEq

/-- A share with an index that a party can have. -/
def Share.of (index value : Nat) : Outcome SharingError Share :=
  if h : 0 < index then .ok ⟨index, value, h⟩ else .error (.badIndex index)

end ThresholdKeys
