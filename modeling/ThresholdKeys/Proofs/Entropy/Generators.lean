import Mathlib.Algebra.Ring.Nat
import ThresholdKeys.Proofs.Entropy.Draining

/-!
# The stream of a generator

A generator hands out the digests of its seed with the counters 0, 1, 2, …, one behind the other
(`digests`). How many octets have been taken and in which pieces does not matter: the generator
keeps the part of the digests made so far that has not been handed out (`Generator.At`), and each
request takes from its front (`Generator.At.take_spec`).

The other way round, a generator is seeded with the digest of all that a finite source has in
reserve, whatever the pieces are in which the source hands it out (`ofDrained_finite`).
-/

namespace ThresholdKeys

/-! ## Digests -/

/-- The first `m` digests of a seed. The counter is written in eight octets. -/
def digests (seed : Bytes) (m : Nat) : Bytes :=
  (List.range m).flatMap fun i => sha256 (seed ++ Bytes.fixed 8 i)

theorem digests_succ (seed : Bytes) (m : Nat) :
    digests seed (m + 1) = digests seed m ++ Generator.block seed m := by
  simp [digests, List.range_succ, Generator.block]

@[simp] theorem length_digests (seed : Bytes) (m : Nat) : (digests seed m).length = 32 * m := by
  induction m with
  | zero => rfl
  | succ m ih =>
    rw [digests_succ, List.length_append, ih, Generator.block, length_sha256]
    omega

/-- More digests have the same beginning. -/
theorem digests_prefix (seed : Bytes) {m m' : Nat} (h : m ≤ m') :
    digests seed m <+: digests seed m' := by
  induction h with
  | refl => exact List.prefix_refl _
  | step _ ih =>
    rw [digests_succ]
    exact ih.trans (List.prefix_append _ _)

/-- What stands at a place of the stream does not depend on how many digests have been made. -/
theorem take_drop_digests (seed : Bytes) {pos n m m' : Nat} (h : pos + n ≤ 32 * m)
    (h' : pos + n ≤ 32 * m') :
    ((digests seed m).drop pos).take n = ((digests seed m').drop pos).take n := by
  have hshorter : ∀ {m m'}, m ≤ m' → pos + n ≤ 32 * m →
      ((digests seed m).drop pos).take n = ((digests seed m').drop pos).take n := by
    intro m m' hle hm
    obtain ⟨more, hmore⟩ := digests_prefix seed hle
    rw [← hmore, List.drop_append_of_le_length (by rw [length_digests]; omega),
      List.take_append_of_le_length (by rw [List.length_drop, length_digests]; omega)]
  cases Nat.le_total m m' with
  | inl hle => exact hshorter hle h
  | inr hle => exact (hshorter hle h').symm

/-! ## Generators -/

namespace Generator

/-- The generator has this seed, and `pos` octets of its stream have been taken. -/
structure At (seed : Bytes) (pos : Nat) (g : Generator) : Prop where
  seed_eq : g.seed = seed
  pos_le : pos ≤ 32 * g.counter
  pending_eq : g.pending = (digests seed g.counter).drop pos

theorem at_ofSeed (seed : Bytes) : At seed 0 (ofSeed seed) := ⟨rfl, Nat.zero_le _, rfl⟩

theorem counter_extend (n : Nat) (g : Generator) : (g.extend n).counter = g.counter + n := by
  induction n generalizing g with
  | zero => rfl
  | succ n ih =>
    rw [extend, ih]
    exact Nat.succ_add_eq_add_succ g.counter n

theorem length_pending_extend (n : Nat) (g : Generator) :
    (g.extend n).pending.length = g.pending.length + 32 * n := by
  induction n generalizing g with
  | zero => rfl
  | succ n ih =>
    rw [extend, ih, List.length_append, block, length_sha256]
    omega

/-- A generator never runs dry. -/
theorem length_take (g : Generator) (n : Nat) : (g.take n).1.length = n := by
  rw [take, List.length_take, length_pending_extend]
  omega

namespace At

variable {seed : Bytes} {pos : Nat} {g : Generator}

/-- Making digests takes nothing. -/
theorem extend (h : At seed pos g) (n : Nat) : At seed pos (g.extend n) := by
  induction n generalizing g with
  | zero => exact h
  | succ n ih =>
    have hle := h.pos_le
    refine ih ⟨h.seed_eq, by show pos ≤ 32 * (g.counter + 1); omega, ?_⟩
    show g.pending ++ block g.seed g.counter = (digests seed (g.counter + 1)).drop pos
    rw [digests_succ, List.drop_append_of_le_length (by rw [length_digests]; exact hle),
      ← h.pending_eq, h.seed_eq]

theorem length_pending (h : At seed pos g) : g.pending.length = 32 * g.counter - pos := by
  rw [h.pending_eq, List.length_drop, length_digests]

/-- **Taking octets takes the next ones of the stream.** -/
theorem take_spec (h : At seed pos g) (n : Nat) {m : Nat} (hm : pos + n ≤ 32 * m) :
    (g.take n).1 = ((digests seed m).drop pos).take n ∧ At seed (pos + n) (g.take n).2 := by
  have hg := h.extend ((n - g.pending.length + 31) / 32)
  have hcounter := counter_extend ((n - g.pending.length + 31) / 32) g
  have hlength := h.length_pending
  have hle := h.pos_le
  rw [Generator.take]
  generalize g.extend ((n - g.pending.length + 31) / 32) = g' at hg hcounter
  have henough : pos + n ≤ 32 * g'.counter := by omega
  dsimp only
  constructor
  · rw [hg.pending_eq]
    exact take_drop_digests seed henough hm
  · refine ⟨hg.seed_eq, henough, ?_⟩
    show g'.pending.drop n = _
    rw [hg.pending_eq, List.drop_drop]

end At

end Generator

/-! ## Requests to a generator -/

theorem Generator.take_zero (g : Generator) : g.take 0 = ([], g) := by
  simp [take, extend]

theorem read_seeded (g : Generator) (n : Nat) :
    Source.read (.seeded g) n = (.ok (g.take n).1, .seeded (g.take n).2) := by
  rw [Source.read]

/-- A generator answers a request of either kind with as many octets as it is asked for. -/
theorem serve_seeded (g : Generator) (k : Nat) (request : Request) :
    Source.interface.serve k (.seeded g) request
      = ⟨.ok (), (g.take request.size).1, .seeded (g.take request.size).2⟩ := by
  cases request with
  | read n =>
    show Delivery.ofRead (Source.read (.seeded g) n) = _
    rw [read_seeded]
    rfl
  | mustRead n =>
    show Source.mustRead k (.seeded g) n = _
    rw [Source.mustRead]
    cases n with
    | zero => rw [fill, Request.size, g.take_zero]
    | succ n =>
      have hlength := g.length_take (n + 1)
      rw [Nat.add_right_comm, Request.size, fill, read_seeded]
      generalize g.take (n + 1) = taken at hlength
      obtain ⟨piece, g'⟩ := taken
      cases piece with
      | nil => cases hlength
      | cons x piece =>
        dsimp only at hlength ⊢
        rw [hlength, Nat.sub_self, fill]
        rfl

/-- **The stream does not depend on how it is read**: the answers to any requests are the stream,
from where the generator stands on. -/
theorem serveAll_seeded {seed : Bytes} {pos : Nat} {g : Generator} (h : g.At seed pos) (k : Nat)
    (requests : List Request) {m : Nat} (hm : pos + (requests.map Request.size).sum ≤ 32 * m) :
    (∀ d ∈ Source.interface.serveAll k (.seeded g) requests, d.outcome = .ok ()) ∧
    (Source.interface.serveAll k (.seeded g) requests).map (·.written.length)
      = requests.map Request.size ∧
    (Source.interface.serveAll k (.seeded g) requests).flatMap (·.written)
      = ((digests seed m).drop pos).take (requests.map Request.size).sum := by
  induction requests generalizing pos g with
  | nil => simp [SourceInterface.serveAll]
  | cons request rest ih =>
    rw [List.map_cons, List.sum_cons] at hm ⊢
    obtain ⟨htaken, hnext⟩ := h.take_spec request.size (m := m) (by omega)
    obtain ⟨hok, hlengths, hwritten⟩ := ih hnext (by omega)
    rw [SourceInterface.serveAll, serve_seeded]
    dsimp only
    refine ⟨?_, ?_, ?_⟩
    · rw [List.forall_mem_cons]
      exact ⟨rfl, hok⟩
    · rw [List.map_cons, hlengths, g.length_take]
    · rw [List.flatMap_cons, hwritten, htaken, List.take_add, List.drop_drop]

/-! ## Seeding -/

section Seeding

variable {R : Source → Reserve → Prop} {s : Source} {octets : Bytes}

/-- A generator that was seeded from a source has the digest of all that the source had. -/
theorem ofDrained_eq_ok (hR : HandsOut Source.read R) (h : R s (.finite octets)) {k : Nat}
    {g : Generator} (hok : (Generator.ofDrained k s).outcome = .ok g) :
    g = .ofSeed (sha256 octets) ∧ R (Generator.ofDrained k s).state (.finite []) := by
  rw [Generator.ofDrained] at hok ⊢
  split at hok
  · next hfinite =>
    rw [if_pos hfinite]
    split at hok
    · next hdrain =>
      cases hok
      obtain ⟨rfl, hs'⟩ := drain_eq_ok hR h (by decide) hdrain
      exact ⟨rfl, hs'⟩
    all_goals cases hok
  · cases hok

theorem ofDrained_finite (hR : Flows Source.read R) (h : R s (.finite octets))
    (hfinite : s.isFinite = true) {k : Nat} (hk : octets.length < k) :
    ∃ s', Generator.ofDrained k s = ⟨.ok (.ofSeed (sha256 octets)), s', []⟩ ∧
      R s' (.finite []) := by
  obtain ⟨s', hdrain, hs'⟩ := drain_finite hR h (by decide : 0 < 1024) hk []
  refine ⟨s', ?_, hs'⟩
  rw [Generator.ofDrained, if_pos hfinite, hdrain]
  rfl

end Seeding

/-! ## The whole -/

/-- **A generator hands out the digests of its seed, however it is read, and of a source only the
octets matter, however it hands them out.**

* Any requests of either kind, of any lengths, are all answered in full, and the answers together
  are as many octets of the stream of digests, from its beginning.
* Seeding a generator with a finite source ends after at most as many rounds as the source has
  octets, and one. It gives the generator that has the digest of all these octets as its seed, and
  leaves the source drained. Where the source may be refused in between, this is so whenever the
  seeding succeeds. -/
theorem Generator.stream_independent_of_pieces :
    (∀ (seed : Bytes) (k : Nat) (requests : List Request) (m : Nat),
      (requests.map Request.size).sum ≤ 32 * m →
      (∀ d ∈ Source.interface.serveAll k (.ofSeed seed) requests, d.outcome = .ok ()) ∧
      (Source.interface.serveAll k (.ofSeed seed) requests).map (·.written.length)
        = requests.map Request.size ∧
      (Source.interface.serveAll k (.ofSeed seed) requests).flatMap (·.written)
        = (digests seed m).take (requests.map Request.size).sum) ∧
    ∀ (R : Source → Reserve → Prop) (s : Source) (octets : Bytes), R s (.finite octets) →
      (HandsOut Source.read R → ∀ k g, (ofDrained k s).outcome = .ok g →
        g = .ofSeed (sha256 octets) ∧ R (ofDrained k s).state (.finite [])) ∧
      (Flows Source.read R → s.isFinite = true → ∀ k, octets.length < k →
        ∃ s', ofDrained k s = ⟨.ok (.ofSeed (sha256 octets)), s', []⟩ ∧
          ∀ n, ∃ s'', s'.read n = (.ok [], s'') ∧ R s'' (.finite [])) := by
  constructor
  · intro seed k requests m hm
    exact serveAll_seeded (at_ofSeed seed) k requests (by omega)
  · intro R s octets h
    refine ⟨fun hR k g hok => ofDrained_eq_ok hR h hok, fun hR hfinite k hk => ?_⟩
    obtain ⟨s', hdrained, hs'⟩ := ofDrained_finite hR h hfinite hk
    exact ⟨s', hdrained, hR.read_drained hs'⟩

/-- Operator entropy seeds a generator, which is then read in pieces. -/
theorem stream_independent_of_pieces_dice :
    (∃ s', Generator.ofDrained 4 (.ofBytes [1, 2, 3])
      = ⟨.ok (.ofSeed (sha256 [1, 2, 3])), s', []⟩) ∧
    (Source.interface.serveAll 0 (.ofSeed (sha256 [1, 2, 3]))
        [.mustRead 7, .read 0, .read 33]).flatMap (·.written)
      = (digests (sha256 [1, 2, 3]) 2).take 40 := by
  obtain ⟨hstream, hseed⟩ := Generator.stream_independent_of_pieces
  constructor
  · obtain ⟨s', hdrained, -⟩ := (hseed Source.HoldsOctets (.ofBytes [1, 2, 3]) [1, 2, 3]
      ⟨_, rfl, rfl⟩).2 plainSource_ofBytes.toFlows rfl 4 (by decide)
    exact ⟨s', hdrained⟩
  · exact (hstream (sha256 [1, 2, 3]) 0 [.mustRead 7, .read 0, .read 33] 2 (by decide)).2.2

end ThresholdKeys
