import ThresholdKeys.Entropy.Source
import ThresholdKeys.Procedure

/-!
# Draining finite sources

A finite source can be read until it runs dry: to seed a generator with the digest of all its
octets, or to absorb them into a pool once and for all. Octets that a pool absorbed before the
source failed stay absorbed, but the source is not counted.
-/

namespace ThresholdKeys

/-- What draining a source gave: how it ended, the octets read, and the source after it. -/
def drain (chunk : Nat) : (rounds : Nat) → Source → (collected : Bytes) → Delivery Source
  | 0, s, collected => ⟨.stalled, collected, s⟩
  | rounds + 1, s, collected =>
    match s.read chunk with
    | (.ok [], s) => ⟨.ok (), collected, s⟩
    | (.ok piece, s) => drain chunk rounds s (collected ++ piece)
    | (.error e, s) => ⟨.error e, collected, s⟩
    | (.fault, s) => ⟨.fault, collected, s⟩
    | (.stalled, s) => ⟨.stalled, collected, s⟩

/-- A generator seeded with the digest of everything that the source yields. The source has to be
finite. -/
def Generator.ofDrained : Proc Source EntropyError Generator := fun patience s =>
  if s.isFinite then
    match drain 1024 patience s [] with
    | ⟨.ok (), collected, s⟩ => ⟨.ok (.ofSeed (sha256 collected)), s, []⟩
    | ⟨.error e, _, s⟩ => ⟨.error e, s, []⟩
    | ⟨.fault, _, s⟩ => ⟨.fault, s, []⟩
    | ⟨.stalled, _, s⟩ => ⟨.stalled, s, []⟩
  else ⟨.error .notReady, s, []⟩

/-- Adds a source to a pool. A finite one is drained into the pool at once and not kept. -/
def Pool.add (source : Source) : Proc Pool EntropyError Unit := fun patience p =>
  if source.isFinite then
    match drain 512 patience source [] with
    | ⟨.ok (), collected, source⟩ =>
      ⟨.ok (), { p with absorbed := p.absorbed ++ collected, drained := p.drained + 1 },
        [⟨.debug, s!"Absorbed {collected.length} bytes from finite source " ++ source.name⟩]⟩
    | ⟨.error e, collected, _⟩ => ⟨.error e, { p with absorbed := p.absorbed ++ collected }, []⟩
    | ⟨.fault, collected, _⟩ => ⟨.fault, { p with absorbed := p.absorbed ++ collected }, []⟩
    | ⟨.stalled, collected, _⟩ => ⟨.stalled, { p with absorbed := p.absorbed ++ collected }, []⟩
  else
    ⟨.ok (), { p with live := p.live ++ [source] },
      [⟨.debug, "Registered infinite source " ++ source.name⟩]⟩

/-- Adds a new source to a source. Only a pool takes it. -/
def Source.addSource (patience : Nat) : Source → (new : Source) → Source
  | .pool p, new => .pool (Pool.add new patience p).state
  | s, _ => s

end ThresholdKeys
