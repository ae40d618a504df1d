import ThresholdKeys.Proofs.Entropy.Generators
import ThresholdKeys.Proofs.Entropy.Pools

/-!
# Closed sources

Operator entropy, a file and the octets of the machine remember that they were closed, and a pool
that was closed has no source left. From then on each request for octets is refused and leaves the
buffer and the source as they were (`Source.Closed.refuses`), and no call opens the source again
(`Source.Closed.afterAll`); only a pool has something to hand out when a source is added to it.

A generator does not know that it was closed. So `Source.refuses_after_close_iff` says of sources of
all kinds which ones are silent once they are closed: all but the generators, which answer as if
they had not been closed.

Calls are made on a source in a place, through a reference to it. The owner's calls are those on the
place that is the whole memory (`Place.whole`).
-/

namespace ThresholdKeys

/-! ## Refusal -/

section Refusal

variable {σ τ : Type}

/-- The whole memory, as a place in it. -/
def Place.whole (σ : Type) : Place σ σ where
  view s := s
  update s _ := s
  view_update _ _ := rfl
  update_view _ := rfl
  update_update _ _ _ := rfl

theorem Delivery.source_ofRead (result : Outcome EntropyError Bytes × σ) :
    (Delivery.ofRead result).source = result.2 := by
  obtain ⟨outcome, s⟩ := result
  cases outcome <;> rfl

/-- Each request for octets is refused for this cause, and leaves the source and the buffer as they
were. -/
def SourceInterface.Refuses (S : SourceInterface σ) (e : EntropyError) (s : σ) : Prop :=
  ∀ k (r : Request), 0 < r.size → (S.serve k s r).outcome = .error e ∧
    (S.serve k s r).source = s ∧ ∀ before, (S.serve k s r).buffer before = before

/-- So does each request through a reference. -/
theorem SourceInterface.Refuses.through {S : SourceInterface σ} {e : EntropyError} {p : Place τ σ}
    {memory : τ} (h : S.Refuses e (p.view memory)) : (S.through p).Refuses e memory := by
  intro k r hr
  obtain ⟨houtcome, hsource, hbuffer⟩ := h k r hr
  rw [serve_through]
  refine ⟨houtcome, ?_, hbuffer⟩
  show p.update (S.serve k (p.view memory) r).source memory = memory
  rw [hsource, p.update_view]

end Refusal

namespace Source

/-! ## Closed sources -/

/-- The kinds of sources. -/
inductive Kind where
  | custom
  | generator
  | file
  | os
  | device
  | pool
  deriving DecidableEq

def kind : Source → Kind
  | custom _ _ => .custom
  | seeded _ => .generator
  | file _ _ => .file
  | os _ _ => .os
  | device _ => .device
  | pool _ => .pool

/-- The cause for which a source of this kind refuses when it is closed. A closed pool is one
without sources. -/
def Kind.refusal : Kind → EntropyError
  | pool => .notReady
  | _ => .closed

/-- The source was closed, and is no pool to which a source was added since. -/
def Closed : Source → Prop
  | custom _ closed => closed = true
  | file handle _ => handle = .closed
  | os _ closed => closed = true
  | pool p => p.sourceCount = 0
  | seeded _ => False
  | device _ => False

variable {s : Source}

/-- Closing closes; a generator and a device have nothing to close. -/
theorem closed_close (hgenerator : s.kind ≠ .generator) (hdevice : s.kind ≠ .device) :
    s.close.Closed := by
  cases s with
  | seeded g => exact absurd rfl hgenerator
  | device d => exact absurd rfl hdevice
  | _ => rfl

theorem mustRead_pool {p : Pool} (h : p.sourceCount = 0) (k n : Nat) :
    (pool p).mustRead k n = ⟨.error .notReady, [], pool p⟩ := by
  have hserve := Pool.serve_of_no_source k (.mustRead n) h
  change mustReadPool k p n = _ at hserve
  rw [Source.mustRead, hserve]

namespace Closed

theorem kind_ne (h : s.Closed) : s.kind ≠ .generator ∧ s.kind ≠ .device := by
  cases s with
  | seeded g => exact h.elim
  | device d => exact h.elim
  | _ => exact ⟨nofun, nofun⟩

theorem read (h : s.Closed) (n : Nat) : s.read n = (.error s.kind.refusal, s) := by
  cases s with
  | custom buffer closed =>
    obtain rfl : closed = true := h
    rw [Source.read, if_pos rfl]
    rfl
  | file handle finite =>
    obtain rfl : handle = .closed := h
    rw [Source.read]
    rfl
  | os supply closed =>
    obtain rfl : closed = true := h
    rw [Source.read, if_pos rfl]
    rfl
  | pool p =>
    have hnone : p.drained + p.live.length = 0 := h
    rw [Source.read, readPool, if_pos hnone]
    rfl
  | seeded g => exact h.elim
  | device d => exact h.elim

theorem mustRead (h : s.Closed) (k : Nat) {n : Nat} (hn : 0 < n) :
    s.mustRead k n = ⟨.error s.kind.refusal, [], s⟩ := by
  obtain ⟨n, rfl⟩ := Nat.exists_eq_add_one.2 hn
  have hfill : ∀ finite, fill Source.read finite (n + 1 + k) s (n + 1) []
      = ⟨.error s.kind.refusal, [], s⟩ := by
    intro finite
    rw [Nat.add_right_comm, fill, h.read]
  cases s with
  | pool p => exact mustRead_pool h k (n + 1)
  | seeded g => exact h.elim
  | device d => exact h.elim
  | _ =>
    rw [Source.mustRead]
    exact hfill _

theorem serve (h : s.Closed) (k : Nat) {r : Request} (hr : 0 < r.size) :
    interface.serve k s r = ⟨.error s.kind.refusal, [], s⟩ := by
  cases r with
  | read n =>
    show Delivery.ofRead (s.read n) = _
    rw [h.read]
    rfl
  | mustRead n => exact h.mustRead k hr

/-- **A closed source refuses.** -/
theorem refuses (h : s.Closed) : interface.Refuses s.kind.refusal s := by
  intro k r hr
  rw [h.serve k hr]
  exact ⟨rfl, rfl, fun before => rfl⟩

/-- A request for nothing changes nothing either. -/
theorem source_serve (h : s.Closed) (k : Nat) (r : Request) :
    (interface.serve k s r).source = s := by
  by_cases hr : 0 < r.size
  · rw [h.serve k hr]
  cases r with
  | read n =>
    show (Delivery.ofRead (s.read n)).source = s
    rw [h.read]
    rfl
  | mustRead n =>
    obtain rfl : n = 0 := Nat.eq_zero_of_not_pos hr
    show (s.mustRead k 0).source = s
    cases s with
    | pool p => rw [mustRead_pool h]
    | seeded g => exact h.elim
    | device d => exact h.elim
    | _ => rw [Source.mustRead, fill]

theorem drain (h : s.Closed) (chunk rounds : Nat) :
    (ThresholdKeys.drain chunk rounds s []).source = s := by
  cases rounds with
  | zero => rfl
  | succ rounds => rw [ThresholdKeys.drain, h.read]

end Closed

end Source

/-! ## Calls -/

/-- A call on a source. Beside those of the interface there are calls on sources of one kind; they
leave sources of other kinds as they are. -/
inductive SourceCall where
  | request (r : Request)
  | close
  /-- Puts octets into operator entropy. -/
  | addOctets (octets : Bytes)
  /-- Adds a source to a pool. -/
  | addSource (new : Source)
  /-- Seeds a generator with what a finite source has. -/
  | seedGenerator

namespace Source

/-- Makes a call. -/
def after (k : Nat) (s : Source) : SourceCall → Source
  | .request r => (interface.serve k s r).source
  | .close => s.close
  | .addOctets octets => s.addOctets octets
  | .addSource new => s.addSource k new
  | .seedGenerator => (Generator.ofDrained k s).state

/-- Makes one call after the other. -/
def afterAll (k : Nat) (s : Source) (calls : List SourceCall) : Source := calls.foldl (after k) s

variable {s : Source} (k : Nat)

theorem afterAll_append (s : Source) (earlier later : List SourceCall) :
    s.afterAll k (earlier ++ later) = (s.afterAll k earlier).afterAll k later :=
  List.foldl_append ..

theorem state_ofDrained (s : Source) : (Generator.ofDrained k s).state
    = if s.isFinite = true then (drain 1024 k s []).source else s := by
  rw [Generator.ofDrained]
  split
  · generalize drain 1024 k s [] = d
    obtain ⟨outcome, written, s'⟩ := d
    cases outcome <;> rfl
  · rfl

/-! ### Once the source is closed -/

/-- A closed source stays closed, whatever is called, unless a source is added to it. -/
theorem Closed.after (h : s.Closed) {call : SourceCall} (hcall : ∀ new, call ≠ .addSource new) :
    (s.after k call).Closed := by
  cases call with
  | request r =>
    rw [Source.after, h.source_serve]
    exact h
  | close => exact closed_close h.kind_ne.1 h.kind_ne.2
  | addOctets octets =>
    cases s with
    | seeded g => exact h.elim
    | device d => exact h.elim
    | _ => exact h
  | addSource new => exact absurd rfl (hcall new)
  | seedGenerator =>
    rw [Source.after, state_ofDrained, h.drain, ite_self]
    exact h

theorem Closed.afterAll (h : s.Closed) {calls : List SourceCall}
    (hcalls : ∀ new, .addSource new ∉ calls) : (s.afterAll k calls).Closed := by
  induction calls generalizing s with
  | nil => exact h
  | cons call rest ih =>
    have hcall : ∀ new, call ≠ .addSource new := by
      rintro new rfl
      exact hcalls new (List.mem_cons_self ..)
    exact ih (h.after k hcall) fun new hnew => hcalls new (List.mem_cons_of_mem _ hnew)

/-! ### The kind of the source -/

theorem kind_read (s : Source) (n : Nat) : (s.read n).2.kind = s.kind := by
  cases s with
  | custom buffer closed =>
    rw [Source.read]
    split <;> rfl
  | os supply closed =>
    rw [Source.read]
    split <;> rfl
  | _ =>
    rw [Source.read]
    rfl

theorem kind_fill (finite : Bool) (rounds : Nat) (s : Source) (need : Nat) (written : Bytes) :
    (fill Source.read finite rounds s need written).source.kind = s.kind := by
  induction rounds generalizing s need written with
  | zero => cases need <;> rfl
  | succ rounds ih =>
    cases need with
    | zero => rfl
    | succ need =>
      rw [fill, ← kind_read s (need + 1)]
      generalize s.read (need + 1) = result
      obtain ⟨outcome, s'⟩ := result
      cases outcome with
      | ok piece =>
        cases piece with
        | nil =>
          cases finite with
          | true => rfl
          | false => exact ih s' _ _
        | cons x piece => exact ih s' _ _
      | _ => rfl

theorem kind_drain (chunk rounds : Nat) (s : Source) (collected : Bytes) :
    (drain chunk rounds s collected).source.kind = s.kind := by
  induction rounds generalizing s collected with
  | zero => rfl
  | succ rounds ih =>
    rw [drain, ← kind_read s chunk]
    generalize s.read chunk = result
    obtain ⟨outcome, s'⟩ := result
    cases outcome with
    | ok piece =>
      cases piece with
      | nil => rfl
      | cons x piece => exact ih s' _
    | _ => rfl

theorem kind_serve (s : Source) (r : Request) : (interface.serve k s r).source.kind = s.kind := by
  cases r with
  | read n =>
    show (Delivery.ofRead (s.read n)).source.kind = s.kind
    rw [Delivery.source_ofRead]
    exact kind_read s n
  | mustRead n =>
    show (s.mustRead k n).source.kind = s.kind
    cases s with
    | pool p =>
      rw [Source.mustRead]
      rfl
    | _ =>
      rw [Source.mustRead]
      exact kind_fill ..

/-- No call makes a source one of another kind. -/
theorem kind_after (s : Source) (call : SourceCall) : (s.after k call).kind = s.kind := by
  cases call with
  | request r => exact kind_serve k s r
  | seedGenerator =>
    rw [Source.after, state_ofDrained]
    split
    · exact kind_drain ..
    · rfl
  | _ => cases s <;> rfl

theorem kind_afterAll (s : Source) (calls : List SourceCall) :
    (s.afterAll k calls).kind = s.kind := by
  induction calls generalizing s with
  | nil => rfl
  | cons call rest ih => exact (ih (s.after k call)).trans (kind_after k s call)

/-- **A source that has been closed is closed.** -/
theorem closed_afterAll (hgenerator : s.kind ≠ .generator) (hdevice : s.kind ≠ .device)
    (earlier : List SourceCall) {later : List SourceCall} (hlater : ∀ new, .addSource new ∉ later) :
    (s.afterAll k (earlier ++ .close :: later)).Closed := by
  -- Of the calls before, all that matters is that they kept the kind.
  rw [afterAll_append]
  have hkind := kind_afterAll k s earlier
  rw [← hkind] at hgenerator hdevice
  exact (closed_close hgenerator hdevice).afterAll k hlater

/-! ### Generators -/

theorem eq_seeded_of_kind (h : s.kind = .generator) : ∃ g, s = .seeded g := by
  cases s with
  | seeded g => exact ⟨g, rfl⟩
  | _ => cases h

/-- That a generator is closed makes no difference. -/
theorem afterAll_close_of_generator (h : s.kind = .generator) (earlier later : List SourceCall) :
    s.afterAll k (earlier ++ .close :: later) = s.afterAll k (earlier ++ later) := by
  have hkind := kind_afterAll k s earlier
  obtain ⟨g, hg⟩ := eq_seeded_of_kind (hkind.trans h)
  rw [afterAll_append, afterAll_append, hg]
  rfl

/-! ## References -/

section References

variable {τ : Type} (p : Place τ Source)

/-- Makes a call on the source in a place. Requests are made and the source is closed through the
reference to it. -/
def callIn (k : Nat) (memory : τ) : SourceCall → τ
  | .request r => ((interface.through p).serve k memory r).source
  | .close => (interface.through p).close memory
  | .addOctets octets => p.update ((p.view memory).addOctets octets) memory
  | .addSource new => p.update ((p.view memory).addSource k new) memory
  | .seedGenerator => p.update (Generator.ofDrained k (p.view memory)).state memory

/-- Makes one call after the other. -/
def callsIn (k : Nat) (memory : τ) (calls : List SourceCall) : τ := calls.foldl (callIn p k) memory

theorem callIn_eq (memory : τ) (call : SourceCall) :
    callIn p k memory call = p.update ((p.view memory).after k call) memory := by
  cases call with
  | request r =>
    rw [callIn, serve_through]
    rfl
  | _ => rfl

/-- Calls through a reference are calls on the source in the place. -/
theorem callsIn_eq (memory : τ) (calls : List SourceCall) :
    callsIn p k memory calls = p.update ((p.view memory).afterAll k calls) memory := by
  induction calls generalizing memory with
  | nil => exact (p.update_view memory).symm
  | cons call rest ih =>
    show callsIn p k (callIn p k memory call) rest = _
    rw [ih, callIn_eq, p.view_update, p.update_update]
    rfl

end References

/-! ## The whole -/

/-- **Closing silences every source but a generator.** A source in a place is called in any way,
closed, and called in any way again, but no source is added to it. It is no device, which is closed
as its maker likes. Then each request for octets through the reference to it is refused, and leaves
the buffer and all of the memory as they were, exactly if the source is no generator. A generator is
what it would be if it had not been closed, and answers each request in full. -/
theorem refuses_after_close_iff {τ : Type} (p : Place τ Source) (k : Nat) (memory : τ)
    (earlier later : List SourceCall) (hdevice : (p.view memory).kind ≠ .device)
    (hlater : ∀ new, .addSource new ∉ later) :
    let closed := callsIn p k memory (earlier ++ .close :: later)
    ((interface.through p).Refuses (p.view memory).kind.refusal closed
      ↔ (p.view memory).kind ≠ .generator) ∧
    ((p.view memory).kind = .generator →
      closed = callsIn p k memory (earlier ++ later) ∧
      ∀ k' r, ((interface.through p).serve k' closed r).outcome = .ok () ∧
        ((interface.through p).serve k' closed r).written.length = r.size) := by
  intro closed
  have hview : p.view closed = (p.view memory).afterAll k (earlier ++ .close :: later) := by
    rw [show closed = _ from callsIn_eq k p memory _, p.view_update]
  have hkind : (p.view closed).kind = (p.view memory).kind := by rw [hview, kind_afterAll]
  have hanswers : (p.view memory).kind = .generator → ∀ k' r,
      ((interface.through p).serve k' closed r).outcome = .ok () ∧
        ((interface.through p).serve k' closed r).written.length = r.size := by
    intro hgenerator k' r
    obtain ⟨g, hg⟩ := eq_seeded_of_kind (hkind.trans hgenerator)
    rw [serve_through, hg, serve_seeded]
    exact ⟨rfl, g.length_take r.size⟩
  refine ⟨⟨fun hrefuses hgenerator => ?_, fun hgenerator => ?_⟩,
    fun hgenerator => ⟨?_, hanswers hgenerator⟩⟩
  · -- A generator answers even a request for one octet.
    have hrefused := (hrefuses 0 (.read 1) Nat.one_pos).1
    rw [(hanswers hgenerator 0 (.read 1)).1] at hrefused
    cases hrefused
  · have hclosed : (p.view closed).Closed := by
      rw [hview]
      exact closed_afterAll k hgenerator hdevice earlier hlater
    have hrefuses := hclosed.refuses
    rw [hkind] at hrefuses
    exact hrefuses.through
  · show callsIn p k memory _ = _
    rw [callsIn_eq, callsIn_eq, afterAll_close_of_generator k hgenerator]

/-- Operator entropy that was read, closed and then filled up again hands out nothing. -/
theorem refuses_after_close_refilled :
    interface.Refuses .closed ((ofBytes [1, 2, 3]).afterAll 0
      [.request (.read 1), .close, .addOctets [4, 5], .request (.mustRead 2), .seedGenerator]) := by
  have hlater : ∀ new, .addSource new ∉
      [SourceCall.addOctets [4, 5], .request (.mustRead 2), .seedGenerator] := by simp
  exact (refuses_after_close_iff (.whole Source) 0 (ofBytes [1, 2, 3]) [.request (.read 1)] _
    (by decide) hlater).1.2 (by decide)

/-- A generator that was closed goes on: it hands out the beginning of its stream. -/
theorem closed_generator_answers :
    interface.serve 0 (ofSeed [0]).close (.mustRead 4)
        = ⟨.ok (), [0x3e, 0x70, 0x77, 0xfd], .seeded ((Generator.ofSeed [0]).take 4).2⟩ ∧
      ¬ ∃ e, interface.Refuses e (ofSeed [0]).close := by
  have hanswer : interface.serve 0 (ofSeed [0]).close (.mustRead 4)
      = ⟨.ok (), ((Generator.ofSeed [0]).take 4).1, .seeded ((Generator.ofSeed [0]).take 4).2⟩ :=
    serve_seeded (.ofSeed [0]) 0 (.mustRead 4)
  have hfirst : ((Generator.ofSeed [0]).take 4).1 = [0x3e, 0x70, 0x77, 0xfd] := by decide +kernel
  refine ⟨by rw [hanswer, hfirst], ?_⟩
  rintro ⟨e, hrefuses⟩
  obtain ⟨hrefused, -⟩ := hrefuses 0 (.mustRead 4) (by decide)
  rw [hanswer] at hrefused
  cases hrefused

end Source

end ThresholdKeys
