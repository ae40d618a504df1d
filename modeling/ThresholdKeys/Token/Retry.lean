import ThresholdKeys.Cause
import ThresholdKeys.Procedure

/-!
# Repeated calls

Readers of tokens lose their connection now and then. A call that fails for such a reason is
repeated a bounded number of times, each time with a warning; any other failure is final.
-/

namespace ThresholdKeys

/-- How often a call is repeated, and the milliseconds between two attempts. -/
structure RetryPolicy where
  retries : Nat
  delay : Nat
  deriving DecidableEq, Repr

namespace RetryPolicy

/-- Three repetitions with two seconds in between. -/
def standard : RetryPolicy := ⟨3, 2000⟩

/-- Repetitions without a pause. -/
def immediate (retries : Nat) : RetryPolicy := ⟨retries, 0⟩

variable {σ α : Type}

/-- Makes a call, with `left` repetitions out of `retries` left. -/
def attempts (label : String) (retries : Nat) (call : Proc σ TokenError α) :
    (left : Nat) → Proc σ TokenError α
  | 0 => call
  | left + 1 => do
    match ← call.attempt with
    | .ok value => return value
    | .error e =>
      if e.isTransient then do
        Proc.note .warn
          (s!"Token {label}: " ++ e.message ++ s!", retrying ({retries - left}/{retries})")
        attempts label retries call left
      else throw e

/-- Makes a call and repeats it as the policy says; the label names the token in warnings. -/
def run (policy : RetryPolicy) (label : String) (call : Proc σ TokenError α) :
    Proc σ TokenError α := attempts label policy.retries call policy.retries

end RetryPolicy

end ThresholdKeys
