import ThresholdKeys.Hash.Sha256

/-!
# Seeded generators

A generator expands a seed into the stream `H(seed, 0), H(seed, 1), …` of SHA-256 digests, where
the counter is written in eight octets. It replays a ceremony from a recorded seed.
-/

namespace ThresholdKeys

/-- A seed, the number of digests made so far and the octets of them that are not used yet. -/
structure Generator where
  seed : Bytes
  counter : Nat
  pending : Bytes
  deriving DecidableEq, Repr

namespace Generator

/-- A generator at the start of its stream. -/
def ofSeed (seed : Bytes) : Generator := ⟨seed, 0, []⟩

/-- The digest number `counter` of the stream. -/
def block (seed : Bytes) (counter : Nat) : Bytes := sha256 (seed ++ Bytes.fixed 8 counter)

/-- Makes `n` more digests. -/
def extend : Nat → Generator → Generator
  | 0, g => g
  | n + 1, g => extend n ⟨g.seed, g.counter + 1, g.pending ++ block g.seed g.counter⟩

/-- The next `n` octets, and the generator after them. -/
def take (g : Generator) (n : Nat) : Bytes × Generator :=
  let g := g.extend ((n - g.pending.length + 31) / 32)
  (g.pending.take n, { g with pending := g.pending.drop n })

end Generator

end ThresholdKeys
