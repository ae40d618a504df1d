import ThresholdKeys.Entropy.Source

/-!
# Sources behind an interface

Whoever draws entropy does not look at what the source is: it has a name, is read in the two ways,
and can be closed. The caller seldom owns the source. It is given a *reference*, a place in a larger
memory where the source stands, and each operation on the reference is that operation on the source
in the place (`SourceInterface.through`).
-/

namespace ThresholdKeys

/-- What can be done with sources of the type `σ`. -/
structure SourceInterface (σ : Type) where
  name : σ → String
  isFinite : σ → Bool
  /-- Hands out at most as many octets as are asked for. -/
  read : σ → Nat → Outcome EntropyError Bytes × σ
  /-- Hands out exactly as many, with patience for some rounds in which there are none. -/
  mustRead : Nat → σ → Nat → Delivery σ
  close : σ → σ

/-- A place in a memory `τ` where a `σ` stands. What is put there is found there, and nothing else
changes. -/
structure Place (τ σ : Type) where
  view : τ → σ
  update : σ → τ → τ
  view_update : ∀ s memory, view (update s memory) = s
  update_view : ∀ memory, update (view memory) memory = memory
  update_update : ∀ s s' memory, update s (update s' memory) = update s memory

/-- The same delivery, of a source that stands in something larger. -/
def Delivery.map {σ τ : Type} (f : σ → τ) (d : Delivery σ) : Delivery τ :=
  ⟨d.outcome, d.written, f d.source⟩

namespace SourceInterface

/-- The source in a place, used through a reference. -/
def through {σ τ : Type} (S : SourceInterface σ) (p : Place τ σ) : SourceInterface τ where
  name memory := S.name (p.view memory)
  isFinite memory := S.isFinite (p.view memory)
  read memory n :=
    let (result, s) := S.read (p.view memory) n
    (result, p.update s memory)
  mustRead patience memory n := (S.mustRead patience (p.view memory) n).map (p.update · memory)
  close memory := p.update (S.close (p.view memory)) memory

end SourceInterface

/-- The sources of this library. -/
def Source.interface : SourceInterface Source where
  name := Source.name
  isFinite := Source.isFinite
  read := Source.read
  mustRead patience s n := s.mustRead patience n
  close := Source.close

/-- A pool, read as the source that it is. -/
def Pool.interface : SourceInterface Pool where
  name p := (Source.pool p).name
  isFinite p := (Source.pool p).isFinite
  read := readPool
  mustRead := mustReadPool
  close p := ⟨[], [], 0, p.requests⟩

/-! ## Requests -/

/-- A request for octets. -/
inductive Request where
  /-- For what there is, up to `n` octets. -/
  | read (n : Nat)
  /-- For exactly `n` octets. -/
  | mustRead (n : Nat)
  deriving DecidableEq, Repr

/-- The number of octets that are asked for. -/
def Request.size : Request → Nat
  | read n => n
  | mustRead n => n

/-- What a read handed out, as a delivery. -/
def Delivery.ofRead {σ : Type} : Outcome EntropyError Bytes × σ → Delivery σ
  | (.ok piece, s) => ⟨.ok (), piece, s⟩
  | (.error e, s) => ⟨.error e, [], s⟩
  | (.fault, s) => ⟨.fault, [], s⟩
  | (.stalled, s) => ⟨.stalled, [], s⟩

/-- A buffer after the delivery into it: what was handed out stands in front, the rest is as it
was. -/
def Delivery.buffer {σ : Type} (d : Delivery σ) (before : Bytes) : Bytes :=
  d.written ++ before.drop d.written.length

namespace SourceInterface

variable {σ : Type}

/-- Asks a source. -/
def serve (S : SourceInterface σ) (patience : Nat) (s : σ) : Request → Delivery σ
  | .read n => .ofRead (S.read s n)
  | .mustRead n => S.mustRead patience s n

/-- Asks a source again and again. -/
def serveAll (S : SourceInterface σ) (patience : Nat) : σ → List Request → List (Delivery σ)
  | _, [] => []
  | s, request :: rest =>
    let d := S.serve patience s request
    d :: serveAll S patience d.source rest

end SourceInterface

end ThresholdKeys
