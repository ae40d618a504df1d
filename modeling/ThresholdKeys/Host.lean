import ThresholdKeys.Bytes

/-!
# What the host machine provides

The library needs two things from the machine that it runs on: what stands at a path, and an
endless supply of random octets. Both are values here, so a procedure that uses them is a function
like any other.
-/

namespace ThresholdKeys

/-- What stands at a path. -/
inductive Node where
  | absent
  | file (content : Bytes)
  | directory
  deriving DecidableEq, Repr

/-- The random octets of the machine, and how many of them have been taken. -/
structure Supply where
  octet : Nat → UInt8
  taken : Nat

namespace Supply

/-- The next `n` octets, and the supply without them. -/
def take (s : Supply) (n : Nat) : Bytes × Supply :=
  ((List.range n).map fun i => s.octet (s.taken + i), { s with taken := s.taken + n })

@[simp] theorem length_take (s : Supply) (n : Nat) : (s.take n).1.length = n := by simp [take]

end Supply

end ThresholdKeys
