import ThresholdKeys.Entropy.Sampling
import ThresholdKeys.Number.Euclid

/-!
# The group of quadratic residues

For a safe prime `p = 2 * q + 1` the quadratic residues modulo `p` are a group of the prime order
`q`. Since `p` is 3 modulo 4, of `m` and `p - m` exactly one is a residue, so that the numbers from
one to `q` can be encoded as residues and decoded again.

The shape of the modulus is part of the type; in particular it is not zero. That `p` and `q` are
prime is tested by `of` and left to the caller by `ofTrusted`.
-/

namespace ThresholdKeys

/-- A modulus that has the shape of a safe prime above five. -/
structure Group where
  modulus : Nat
  seven_le : 7 ≤ modulus
  mod_four : modulus % 4 = 3
  deriving DecidableEq

/-- Where a number stands with respect to a group. -/
inductive Standing where
  | residue
  /-- Below the modulus and not zero, but no residue. -/
  | nonResidue
  /-- Zero, or not below the modulus. -/
  | outside
  deriving DecidableEq, Repr

namespace Group

/-- The number of residues. -/
def order (G : Group) : Nat := (G.modulus - 1) / 2

/-- The number of octets of a padded message. -/
def messageLength (G : Group) : Nat := byteLength G.order

/-- Takes a modulus for that of a group after a look at its shape. -/
def ofTrusted (p : Nat) : Outcome ArithmeticError Group :=
  if h : 7 ≤ p ∧ p % 4 = 3 then .ok ⟨p, h.1, h.2⟩ else .error .badModulus

/-- Takes a modulus for that of a group if it and the order are probable primes. -/
def of (p : Nat) : Outcome ArithmeticError Group := do
  let G ← ofTrusted p
  if isProbablePrime G.modulus fullRounds && isProbablePrime G.order fullRounds then return G
  else .error .badModulus

/-! ## Operations -/

/-- `base ^ exponent`. -/
def pow (G : Group) (base exponent : Nat) : Nat := powMod base exponent G.modulus

/-- `a * b`. -/
def mul (G : Group) (a b : Nat) : Nat := a * b % G.modulus

/-- `a / b`. -/
def div (G : Group) (a b : Nat) : Outcome ArithmeticError Nat := do
  let unit ← inverse b G.modulus
  return G.mul a unit

/-- Whether the number is below the modulus and not zero. -/
def isElement (G : Group) (x : Nat) : Bool := 0 < x && x < G.modulus

/-- Whether the number is an element whose power to the order of the group is one. -/
def isResidue (G : Group) (x : Nat) : Bool := G.isElement x && G.pow x G.order = 1

/-- Whether the number is a residue other than one; each of them generates the group. -/
def isGenerator (G : Group) (x : Nat) : Bool := x ≠ 1 && G.isResidue x

/-- Where the number stands. -/
def standing (G : Group) (x : Nat) : Standing :=
  if !G.isElement x then .outside
  else if !G.isResidue x then .nonResidue
  else .residue

/-- The residue that stands for a number from one to the order. -/
def encode (G : Group) (m : Nat) : Outcome ArithmeticError Nat :=
  if m = 0 ∨ G.order < m then .error .messageTooLong
  else if G.isResidue m then .ok m
  else Checked.sub G.modulus m

/-- The number that a residue stands for. -/
def decode (G : Group) (x : Nat) : Outcome ArithmeticError Nat :=
  match G.standing x with
  | .residue => if G.order < x then Checked.sub G.modulus x else .ok x
  | .nonResidue => .error .notResidue
  | .outside => .error .notElement

/-! ## Search -/

/-- Draws primes for the order until the modulus is prime too, at most `tries` times after
`attempts` earlier ones. -/
def generateAfter (bits : Nat) : (tries attempts : Nat) → Proc Source ArithmeticError Group
  | 0, _ => throw .searchGaveUp
  | tries + 1, attempts => do
    let width ← (Checked.sub bits 1 : Outcome ArithmeticError Nat)
    let q ← randomPrime width
    let p := 2 * q + 1
    if isProbablePrime p fullRounds then do
      Proc.note .debug s!"Safe prime found after {attempts + 1} candidates"
      ofTrusted p
    else generateAfter bits tries (attempts + 1)

/-- A group whose modulus is a probable safe prime of `bits` binary digits. -/
def generate (bits tries : Nat) : Proc Source ArithmeticError Group := generateAfter bits tries 0

/-! ## Residues -/

theorem modulus_pos (G : Group) : 0 < G.modulus := Nat.lt_of_lt_of_le (by decide) G.seven_le

theorem order_pos (G : Group) : 0 < G.order := by
  have := G.seven_le
  unfold order
  omega

theorem isResidue_iff {G : Group} {x : Nat} :
    G.isResidue x = true ↔ 0 < x ∧ x < G.modulus ∧ x ^ G.order % G.modulus = 1 := by
  simp [isResidue, isElement, pow, powMod_eq, and_assoc]

/-- A power of a residue is a residue. -/
theorem isResidue_pow {G : Group} {x : Nat} (h : G.isResidue x = true) (e : Nat) :
    G.isResidue (G.pow x e) = true := by
  obtain ⟨-, -, hx⟩ := isResidue_iff.1 h
  have one_mod : 1 % G.modulus = 1 := Nat.mod_eq_of_lt (Nat.lt_of_lt_of_le (by decide) G.seven_le)
  have order : G.pow x e ^ G.order % G.modulus = 1 := by
    rw [pow, powMod_eq, ← Nat.pow_mod, ← Nat.pow_mul, Nat.mul_comm, Nat.pow_mul, Nat.pow_mod, hx,
      Nat.one_pow, one_mod]
  refine isResidue_iff.2 ⟨Nat.pos_of_ne_zero fun hz => ?_, ?_, order⟩
  · rw [hz, Nat.zero_pow G.order_pos] at order
    simp at order
  · rw [pow, powMod_eq]
    exact Nat.mod_lt _ G.modulus_pos

end Group

end ThresholdKeys
