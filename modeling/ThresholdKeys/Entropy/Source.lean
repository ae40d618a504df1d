import ThresholdKeys.Cause
import ThresholdKeys.Entropy.Generator
import ThresholdKeys.Hash.Blake3
import ThresholdKeys.Host
import ThresholdKeys.Outcome

/-!
# Sources of entropy

A source is read in two ways. `read n` hands out at most `n` octets, as many as there are at the
moment; none from a finite source means that it is drained. `mustRead n` hands out exactly `n`: by
default it reads until they are together (`fill`), waiting while an infinite source has none, and
it fails when a finite one is drained. What it handed out before it failed stays handed out.

A pool mixes sources. Everything they contribute is appended to what the pool has absorbed, each
request adds its number and its length, and the output is derived from all of it.
-/

namespace ThresholdKeys

/-- An open file that is read as a source. -/
inductive Handle where
  /-- A file with the octets that are still unread. -/
  | file (unread : Bytes)
  /-- A directory, from which nothing can be read. -/
  | directory
  | closed
  deriving DecidableEq, Repr

/-- Any other machine that hands out octets: its memory is a list of numbers, and a step, given the
memory and the number of octets asked for, gives a result and the memory after it. -/
structure Device where
  name : String
  finite : Bool
  memory : List Nat
  step : List Nat → Nat → Except EntropyError Bytes × List Nat

/-- A pool over sources of type `S`: the live ones, what has been absorbed, how many finite sources
were drained into it, and the number of requests served. -/
structure PoolOf (S : Type) where
  live : List S
  absorbed : Bytes
  drained : Nat
  requests : Nat

/-- A source of entropy. -/
inductive Source where
  /-- Octets that an operator put in. -/
  | custom (buffer : Bytes) (closed : Bool)
  /-- A seeded generator. -/
  | seeded (generator : Generator)
  | file (handle : Handle) (finite : Bool)
  /-- The random octets of the machine. -/
  | os (supply : Supply) (closed : Bool)
  | device (device : Device)
  | pool (pool : PoolOf Source)

/-- A pool of sources. -/
abbrev Pool : Type := PoolOf Source

/-- A pool that has no sources. -/
def Pool.empty : Pool := ⟨[], [], 0, 0⟩

/-- The number of sources that contribute to a pool, drained and live ones. -/
def PoolOf.sourceCount {S : Type} (p : PoolOf S) : Nat := p.drained + p.live.length

namespace Source

/-- A source that holds some octets. -/
def ofBytes (b : Bytes) : Source := .custom b false

/-- A generator with a seed. -/
def ofSeed (seed : Bytes) : Source := .seeded (.ofSeed seed)

/-- Opens what stands at a path. A directory opens, and fails when it is read. -/
def openFile (node : Node) (finite : Bool) : Outcome EntropyError Source :=
  match node with
  | .absent => .error .notReady
  | .file content => .ok (.file (.file content) finite)
  | .directory => .ok (.file .directory finite)

/-- The name of the kind of source in texts. -/
def name : Source → String
  | custom _ _ => "CustomInput"
  | seeded _ => "Dprng"
  | file _ _ => "File"
  | os _ _ => "OsRng"
  | device d => d.name
  | pool _ => "Aggregator"

/-- Whether the source can run dry. -/
def isFinite : Source → Bool
  | custom _ _ => true
  | seeded _ => false
  | file _ finite => finite
  | os _ _ => false
  | device d => d.finite
  | pool _ => false

/-- Closes the source. A generator and a device have nothing to close; a pool forgets its sources
and what it absorbed. -/
def close : Source → Source
  | custom _ _ => custom [] true
  | seeded g => seeded g
  | file _ finite => file .closed finite
  | os supply _ => os supply true
  | device d => device d
  | pool p => pool ⟨[], [], 0, p.requests⟩

/-- Puts octets behind those that an operator put in before. Only operator entropy takes them. -/
def addOctets (octets : Bytes) : Source → Source
  | custom buffer closed => custom (buffer ++ octets) closed
  | s => s

end Source

/-- What a blocking read did: how it ended, the octets it handed out, and the source after it. -/
structure Delivery (σ : Type) where
  outcome : Outcome EntropyError Unit
  written : Bytes
  source : σ

/-- Reads until `need` more octets are together, in at most `rounds` rounds. -/
def fill {σ : Type} (read : σ → Nat → Outcome EntropyError Bytes × σ) (finite : Bool) :
    (rounds : Nat) → σ → (need : Nat) → (written : Bytes) → Delivery σ
  | _, s, 0, written => ⟨.ok (), written, s⟩
  | 0, s, _ + 1, written => ⟨.stalled, written, s⟩
  | rounds + 1, s, need + 1, written =>
    match read s (need + 1) with
    | (.ok [], s) =>
      if finite then ⟨.error .exhausted, written, s⟩
      else fill read finite rounds s (need + 1) written
    | (.ok piece, s) => fill read finite rounds s (need + 1 - piece.length) (written ++ piece)
    | (.error e, s) => ⟨.error e, written, s⟩
    | (.fault, s) => ⟨.fault, written, s⟩
    | (.stalled, s) => ⟨.stalled, written, s⟩

/-- What asking all live sources of a pool gave: how it ended, the sources after it, and what they
contributed before it ended. -/
structure Gathering where
  outcome : Outcome EntropyError Unit
  live : List Source
  contributed : Bytes

/-- The context in which a pool derives its output; it keeps pools apart from other uses of the
hash. -/
def poolContext : Bytes :=
  [0x65, 0x76, 0x6f, 0x74, 0x65, 0x2d, 0x6b, 0x65, 0x79, 0x73, 0x68, 0x61,
   0x72, 0x65, 0x20, 0x65, 0x6e, 0x74, 0x72, 0x6f, 0x70, 0x79, 0x20, 0x61,
   0x67, 0x67, 0x72, 0x65, 0x67, 0x61, 0x74, 0x6f, 0x72, 0x20, 0x76, 0x31]

/-- Ends a request for `n` octets: the contributions are absorbed, and if all sources contributed,
so are the number of the request and its length, and the output is derived. -/
def answerRequest (p : Pool) (n : Nat) (g : Gathering) : Outcome EntropyError Bytes × Pool :=
  let absorbed := p.absorbed ++ g.contributed
  match g.outcome with
  | .ok () =>
    let number := p.requests + 1
    let absorbed := absorbed ++ Bytes.littleEndian 8 number ++ Bytes.littleEndian 8 n
    (.ok (blake3Derived poolContext absorbed n), ⟨g.live, absorbed, p.drained, number⟩)
  | .error e => (.error e, ⟨g.live, absorbed, p.drained, p.requests⟩)
  | .fault => (.fault, ⟨g.live, absorbed, p.drained, p.requests⟩)
  | .stalled => (.stalled, ⟨g.live, absorbed, p.drained, p.requests⟩)

/-! ## Reading what there is -/

/-- Reads from an open file. -/
def Handle.read : Handle → Nat → Outcome EntropyError Bytes × Handle
  | .file unread, n => (.ok (unread.take n), .file (unread.drop n))
  | .directory, _ => (.error .readFailed, .directory)
  | .closed, _ => (.error .closed, .closed)

/-- Runs one step of a device; what it gives beyond `n` octets is not taken. -/
def Device.read (d : Device) (n : Nat) : Outcome EntropyError Bytes × Device :=
  match d.step d.memory n with
  | (.ok piece, memory) => (.ok (piece.take n), { d with memory := memory })
  | (.error e, memory) => (.error e, { d with memory := memory })

mutual

/-- Hands out at most `n` octets. -/
def Source.read : Source → Nat → Outcome EntropyError Bytes × Source
  | .custom buffer closed, n =>
    if closed then (.error .closed, .custom buffer closed)
    else (.ok (buffer.take n), .custom (buffer.drop n) closed)
  | .seeded g, n =>
    let (piece, g) := g.take n
    (.ok piece, .seeded g)
  | .file handle finite, n =>
    let (result, handle) := handle.read n
    (result, .file handle finite)
  | .os supply closed, n =>
    if closed then (.error .closed, .os supply closed)
    else
      let (piece, supply) := supply.take n
      (.ok piece, .os supply closed)
  | .device d, n =>
    let (result, d) := d.read n
    (result, .device d)
  | .pool p, n =>
    let (result, p) := readPool p n
    (result, .pool p)

/-- A request to a pool that takes from each live source what there is. -/
def readPool : Pool → Nat → Outcome EntropyError Bytes × Pool
  | ⟨live, absorbed, drained, requests⟩, n =>
    if drained + live.length = 0 then (.error .notReady, ⟨live, absorbed, drained, requests⟩)
    else answerRequest ⟨live, absorbed, drained, requests⟩ n (readLive live n)

/-- Takes from each source what there is, up to `n` octets, until one fails. -/
def readLive : List Source → Nat → Gathering
  | [], _ => ⟨.ok (), [], []⟩
  | s :: rest, n =>
    match s.read n with
    | (.ok piece, s) =>
      let g := readLive rest n
      ⟨g.outcome, s :: g.live, piece ++ g.contributed⟩
    | (.error e, s) => ⟨.error e, s :: rest, []⟩
    | (.fault, s) => ⟨.fault, s :: rest, []⟩
    | (.stalled, s) => ⟨.stalled, s :: rest, []⟩

end

/-! ## Reading all that is asked for -/

mutual

/-- Hands out exactly `n` octets, waiting for at most `patience` rounds in which there are none. -/
def Source.mustRead (patience : Nat) : Source → Nat → Delivery Source
  | .pool p, n =>
    let d := mustReadPool patience p n
    ⟨d.outcome, d.written, .pool d.source⟩
  | .custom buffer closed, n => fill Source.read true (n + patience) (.custom buffer closed) n []
  | .seeded g, n => fill Source.read false (n + patience) (.seeded g) n []
  | .file handle finite, n => fill Source.read finite (n + patience) (.file handle finite) n []
  | .os supply closed, n => fill Source.read false (n + patience) (.os supply closed) n []
  | .device d, n => fill Source.read d.finite (n + patience) (.device d) n []

/-- A request to a pool that takes `n` octets from each live source. -/
def mustReadPool (patience : Nat) : Pool → Nat → Delivery Pool
  | ⟨live, absorbed, drained, requests⟩, n =>
    if drained + live.length = 0 then ⟨.error .notReady, [], ⟨live, absorbed, drained, requests⟩⟩
    else
      match answerRequest ⟨live, absorbed, drained, requests⟩ n (mustReadLive patience live n) with
      | (.ok output, p) => ⟨.ok (), output, p⟩
      | (.error e, p) => ⟨.error e, [], p⟩
      | (.fault, p) => ⟨.fault, [], p⟩
      | (.stalled, p) => ⟨.stalled, [], p⟩

/-- Takes `n` octets from each source, until one fails; a source that fails contributes nothing. -/
def mustReadLive (patience : Nat) : List Source → Nat → Gathering
  | [], _ => ⟨.ok (), [], []⟩
  | s :: rest, n =>
    match s.mustRead patience n with
    | ⟨.ok (), piece, s⟩ =>
      let g := mustReadLive patience rest n
      ⟨g.outcome, s :: g.live, piece ++ g.contributed⟩
    | ⟨.error e, _, s⟩ => ⟨.error e, s :: rest, []⟩
    | ⟨.fault, _, s⟩ => ⟨.fault, s :: rest, []⟩
    | ⟨.stalled, _, s⟩ => ⟨.stalled, s :: rest, []⟩

end

end ThresholdKeys
