import ThresholdKeys.Bytes
import ThresholdKeys.Outcome

/-!
# Operations with a domain

Each operation here faults outside its domain: a difference below zero, a remainder modulo zero, a
division by zero, a split beyond the end of a string, a shift by the width of an octet or more. A
function that is built from them faults exactly where one of them does, so a proof that it never
faults is a proof that every operand stays in range. They are used where nothing about the operands
is known from their types; the moduli of groups and keys, for one, are positive by type.
-/

namespace ThresholdKeys.Checked

variable {ε : Type}

/-- `a - b`, where `b` is not larger. -/
def sub (a b : Nat) : Outcome ε Nat := if b ≤ a then .ok (a - b) else .fault

/-- `a` modulo `m`, where `m` is not zero. -/
def mod (a m : Nat) : Outcome ε Nat := if m = 0 then .fault else .ok (a % m)

/-- `a` modulo `m`, between zero and `m`, where `m` is not zero. -/
def emod (a : Int) (m : Nat) : Outcome ε Nat := if m = 0 then .fault else .ok (a % m).toNat

/-- The quotient of `a` by `b`, truncated toward zero, and the remainder, where `b` is not zero. -/
def divide (a b : Int) : Outcome ε (Int × Int) :=
  if b = 0 then .fault else .ok (a.tdiv b, a.tmod b)

/-- The first `n` octets and the rest, where there are that many. -/
def split (n : Nat) (b : Bytes) : Outcome ε (Bytes × Bytes) :=
  if n ≤ b.length then .ok (b.take n, b.drop n) else .fault

/-- The octet `x` shifted right by `k`, where `k` is below eight. -/
def shiftRight (x : UInt8) (k : Nat) : Outcome ε UInt8 :=
  if k < 8 then .ok (x >>> UInt8.ofNat k) else .fault

@[simp] theorem sub_of_le {a b : Nat} (h : b ≤ a) : (sub a b : Outcome ε Nat) = .ok (a - b) :=
  if_pos h

@[simp] theorem mod_of_ne {a m : Nat} (h : m ≠ 0) : (mod a m : Outcome ε Nat) = .ok (a % m) :=
  if_neg h

@[simp] theorem emod_of_ne {a : Int} {m : Nat} (h : m ≠ 0) :
    (emod a m : Outcome ε Nat) = .ok (a % m).toNat := if_neg h

@[simp] theorem divide_of_ne {a b : Int} (h : b ≠ 0) :
    (divide a b : Outcome ε (Int × Int)) = .ok (a.tdiv b, a.tmod b) := if_neg h

@[simp] theorem split_of_le {n : Nat} {b : Bytes} (h : n ≤ b.length) :
    (split n b : Outcome ε (Bytes × Bytes)) = .ok (b.take n, b.drop n) := if_pos h

@[simp] theorem shiftRight_of_lt {x : UInt8} {k : Nat} (h : k < 8) :
    (shiftRight x k : Outcome ε UInt8) = .ok (x >>> UInt8.ofNat k) := if_pos h

end ThresholdKeys.Checked
