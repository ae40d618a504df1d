import ThresholdKeys.Number.Power

/-!
# Probable primes

`isProbablePrime n rounds` divides by the primes up to 251 and then runs the Miller–Rabin test with
the first `rounds` of them (at least one) as bases. It never rejects a prime; it accepts a
composite number only if that is a strong probable prime to every base that was tried.
-/

namespace ThresholdKeys

/-- The primes up to 251. -/
def smallPrimes : List Nat :=
  [2, 3, 5, 7, 11, 13, 17, 19, 23, 29, 31, 37, 41, 43, 47, 53, 59, 61, 67, 71, 73, 79, 83, 89, 97,
   101, 103, 107, 109, 113, 127, 131, 137, 139, 149, 151, 157, 163, 167, 173, 179, 181, 191, 193,
   197, 199, 211, 223, 227, 229, 233, 239, 241, 251]

/-- The Miller–Rabin rounds for the primes of keys and groups. -/
def fullRounds : Nat := 40

/-- The Miller–Rabin rounds for a first look at a candidate. -/
def screenRounds : Nat := 4

/-- Verdict of trial division: `some true` for one of the primes, `some false` for a multiple of
one, `none` if no prime of the list divides `n`. -/
def trialDivision (n : Nat) : List Nat → Option Bool
  | [] => none
  | p :: rest => if n = p then some true else if n % p = 0 then some false else trialDivision n rest

/-- Splits `n` into `d` and `s` with `n = d * 2 ^ s`, dividing by two at most `steps` times. -/
def splitTwos : (steps n : Nat) → Nat × Nat
  | 0, n => (n, 0)
  | steps + 1, n =>
    if n % 2 = 0 then
      let (d, s) := splitTwos steps (n / 2)
      (d, s + 1)
    else (n, 0)

/-- Squares `x` at most `steps` times in search of `-1` modulo `n`; the value one ends the search
without success. -/
def squaresToMinusOne (n : Nat) : (steps x : Nat) → Bool
  | 0, _ => false
  | steps + 1, x =>
    let square := x * x % n
    if square = n - 1 then true
    else if square = 1 then false
    else squaresToMinusOne n steps square

/-- Whether `n`, with `n - 1 = d * 2 ^ s`, passes the Miller–Rabin test to the base `a`. -/
def passesBase (n d s a : Nat) : Bool :=
  let x := powMod a d n
  x = 1 || x = n - 1 || squaresToMinusOne n (s - 1) x

/-- Trial division, then Miller–Rabin with the first `rounds` small primes. -/
def isProbablePrime (n rounds : Nat) : Bool :=
  if n < 2 then false
  else match trialDivision n smallPrimes with
    | some verdict => verdict
    | none =>
      let (d, s) := splitTwos (bitLength n) (n - 1)
      (smallPrimes.take (max rounds 1)).all (passesBase n d s)

end ThresholdKeys
