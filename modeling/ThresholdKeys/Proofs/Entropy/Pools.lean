import Mathlib.Data.List.Forall2
import ThresholdKeys.Proofs.Entropy.Draining

/-!
# The inputs of a pool

Whatever happens to a pool between two requests that it answers, the second answer is derived from
more than the first: what a pool has absorbed only grows (`Pool.Recorded.grows`), and an answered
request adds its number and its length behind what the live sources gave (`Pool.Answered`). The
sources may be refused at any point; then the request is refused, or the source is not counted, and
what was absorbed until then stays.

`Pool.perform_recorded` says what one call does, and `Pool.history_recorded` what a history of calls
does.
-/

namespace ThresholdKeys

/-! ## Asking the live sources -/

/-- Asks sources one after the other, until one fails. -/
def gather (ask : Source → Delivery Source) : List Source → Gathering
  | [] => ⟨.ok (), [], []⟩
  | s :: rest =>
    match ask s with
    | ⟨.ok (), piece, s⟩ =>
      let g := gather ask rest
      ⟨g.outcome, s :: g.live, piece ++ g.contributed⟩
    | ⟨.error e, _, s⟩ => ⟨.error e, s :: rest, []⟩
    | ⟨.fault, _, s⟩ => ⟨.fault, s :: rest, []⟩
    | ⟨.stalled, _, s⟩ => ⟨.stalled, s :: rest, []⟩

theorem readLive_eq_gather (k n : Nat) (live : List Source) :
    readLive live n = gather (Source.interface.serve k · (.read n)) live := by
  induction live with
  | nil => rw [readLive, gather]
  | cons s rest ih =>
    have hserve : Source.interface.serve k s (.read n) = .ofRead (s.read n) := rfl
    rw [readLive, gather, ih, hserve]
    generalize s.read n = result
    obtain ⟨outcome, s⟩ := result
    cases outcome <;> rfl

theorem mustReadLive_eq_gather (k n : Nat) (live : List Source) :
    mustReadLive k live n = gather (Source.interface.serve k · (.mustRead n)) live := by
  induction live with
  | nil => rw [mustReadLive, gather]
  | cons s rest ih =>
    rw [mustReadLive, gather, ih]
    rfl

/-- The sources contribute if none of them fails. -/
theorem gather_ok_iff (ask : Source → Delivery Source) (live : List Source) :
    (gather ask live).outcome = .ok () ↔ ∀ given ∈ live.map ask, given.outcome = .ok () := by
  induction live with
  | nil => simp [gather]
  | cons s rest ih =>
    rw [gather, List.map_cons, List.forall_mem_cons, ← ih]
    generalize ask s = given
    obtain ⟨outcome, piece, s⟩ := given
    cases outcome <;> simp

/-- They contribute in their order. -/
theorem gather_eq_of_ok {ask : Source → Delivery Source} {live : List Source}
    (h : ∀ given ∈ live.map ask, given.outcome = .ok ()) : gather ask live
      = ⟨.ok (), (live.map ask).map (·.source), (live.map ask).flatMap (·.written)⟩ := by
  induction live with
  | nil => rfl
  | cons s rest ih =>
    rw [List.map_cons, List.forall_mem_cons] at h
    obtain ⟨hs, hrest⟩ := h
    rw [gather, ih hrest, List.map_cons, List.map_cons, List.flatMap_cons]
    generalize ask s = given at hs
    obtain ⟨outcome, piece, s⟩ := given
    cases hs
    rfl

/-- They stay in their places, and those behind one that fails are not asked. -/
theorem gather_live (ask : Source → Delivery Source) (live : List Source) :
    List.Forall₂ (fun s s' => s' = s ∨ s' = (ask s).source) live (gather ask live).live := by
  induction live with
  | nil => exact .nil
  | cons s rest ih =>
    have huntouched : List.Forall₂ (fun s s' => s' = s ∨ s' = (ask s).source) rest rest :=
      List.forall₂_same.2 fun s _ => .inl rfl
    rw [gather]
    split
    · next hasked => exact .cons (.inr (by rw [hasked])) ih
    all_goals
      next hasked => exact .cons (.inr (by rw [hasked])) huntouched

/-- A request that not all sources contribute to is refused, but what some contributed stays. -/
theorem answerRequest_of_refused {g : Gathering} (h : g.outcome ≠ .ok ()) (p : Pool) (n : Nat) :
    Delivery.ofRead (answerRequest p n g)
      = ⟨g.outcome, [], ⟨g.live, p.absorbed ++ g.contributed, p.drained, p.requests⟩⟩ := by
  obtain ⟨outcome, live, contributed⟩ := g
  cases outcome with
  | ok u => exact absurd rfl h
  | _ => rfl

/-! ## Requests -/

namespace Pool

variable (k : Nat) (p : Pool) (r : Request)

/-- What the live sources of a pool give if each of them is asked. -/
def asked : List (Delivery Source) := p.live.map (Source.interface.serve k · r)

variable {p}

/-- A pool that no source contributes to refuses. -/
theorem serve_of_no_source (h : p.sourceCount = 0) :
    Pool.interface.serve k p r = ⟨.error .notReady, [], p⟩ := by
  obtain ⟨live, absorbed, drained, requests⟩ := p
  have hnone : drained + live.length = 0 := h
  cases r with
  | read n =>
    show Delivery.ofRead (readPool _ n) = _
    rw [readPool, if_pos hnone]
    rfl
  | mustRead n =>
    show mustReadPool k _ n = _
    rw [mustReadPool, if_pos hnone]

/-- Any other one asks its live sources, for a request of either kind in the same way. -/
theorem serve_of_source (h : p.sourceCount ≠ 0) : Pool.interface.serve k p r
    = .ofRead (answerRequest p r.size (gather (Source.interface.serve k · r) p.live)) := by
  obtain ⟨live, absorbed, drained, requests⟩ := p
  have hsome : ¬drained + live.length = 0 := h
  cases r with
  | read n =>
    show Delivery.ofRead (readPool _ n) = _
    rw [readPool, readLive_eq_gather k, if_neg hsome]
    rfl
  | mustRead n =>
    show mustReadPool k _ n = _
    rw [mustReadPool, mustReadLive_eq_gather, if_neg hsome, Request.size]
    generalize answerRequest _ _ _ = answer
    obtain ⟨outcome, p'⟩ := answer
    cases outcome <;> rfl

variable (p)

/-- What an answered request does: all live sources gave something, what they gave is absorbed in
their order, then the number of the request and its length are, and the answer is derived from all
that has been absorbed. -/
structure Answered (d : Delivery Pool) : Prop where
  all_ok : ∀ given ∈ p.asked k r, given.outcome = .ok ()
  live_eq : d.source.live = (p.asked k r).map (·.source)
  absorbed_eq : d.source.absorbed = p.absorbed ++ (p.asked k r).flatMap (·.written)
    ++ Bytes.littleEndian 8 (p.requests + 1) ++ Bytes.littleEndian 8 r.size
  drained_eq : d.source.drained = p.drained
  requests_eq : d.source.requests = p.requests + 1
  written_eq : d.written = blake3Derived poolContext d.source.absorbed r.size

/-- What a request does. It is answered exactly if a source contributes to the pool and no live one
fails; if not, its number is not used up. The live sources keep their places. -/
structure Requested (d : Delivery Pool) : Prop where
  grows : p.absorbed <+: d.source.absorbed
  ok_iff : d.outcome = .ok () ↔
    p.sourceCount ≠ 0 ∧ ∀ given ∈ p.asked k r, given.outcome = .ok ()
  answered : d.outcome = .ok () → Answered k p r d
  refused : d.outcome ≠ .ok () → d.source.requests = p.requests ∧ d.written = []
  places : List.Forall₂ (fun s s' => s' = s ∨ s' = (Source.interface.serve k s r).source)
    p.live d.source.live

theorem serve_requested : Requested k p r (Pool.interface.serve k p r) := by
  by_cases hnone : p.sourceCount = 0
  · rw [serve_of_no_source k r hnone]
    exact ⟨List.prefix_refl _, by simp [hnone], nofun, fun _ => ⟨rfl, rfl⟩,
      List.forall₂_same.2 fun _ _ => .inl rfl⟩
  have hplaces := gather_live (Source.interface.serve k · r) p.live
  rw [serve_of_source k r hnone]
  by_cases hok : ∀ given ∈ p.asked k r, given.outcome = .ok ()
  · rw [gather_eq_of_ok hok] at hplaces ⊢
    refine ⟨?_, iff_of_true rfl ⟨hnone, hok⟩, fun _ => ?_, fun hne => absurd rfl hne, hplaces⟩
    · show p.absorbed <+: p.absorbed ++ _ ++ _ ++ _
      rw [List.append_assoc, List.append_assoc]
      exact List.prefix_append _ _
    · exact ⟨hok, rfl, rfl, rfl, rfl, rfl⟩
  · have hrefused := (gather_ok_iff _ _).not.2 hok
    rw [answerRequest_of_refused hrefused]
    exact ⟨List.prefix_append _ _, iff_of_false hrefused fun h => hok h.2,
      fun h => absurd h hrefused, fun _ => ⟨rfl, rfl⟩, hplaces⟩

/-! ## Additions -/

/-- What adding a source does. It is counted once unless it fails. A finite one is absorbed, with
all the octets that it had in reserve; an endless one is kept behind the others. -/
structure Added (s : Source) (d : Delivery Pool) : Prop where
  grows : p.absorbed <+: d.source.absorbed
  requests_eq : d.source.requests = p.requests
  counted : d.outcome = .ok () → d.source.sourceCount = p.sourceCount + 1
  refused : d.outcome ≠ .ok () → d.source.sourceCount = p.sourceCount ∧ d.source.live = p.live
  absorbed_eq : s.isFinite = true → d.outcome = .ok () →
    ∀ (R : Source → Reserve → Prop) (octets : Bytes), HandsOut Source.read R →
      R s (.finite octets) →
      d.source = { p with absorbed := p.absorbed ++ octets, drained := p.drained + 1 }
  accepted : s.isFinite = true →
    ∀ (R : Source → Reserve → Prop) (octets : Bytes), Flows Source.read R →
      R s (.finite octets) → octets.length < k → d.outcome = .ok ()
  kept : s.isFinite = false → d = ⟨.ok (), [], { p with live := p.live ++ [s] }⟩

/-- Adds a source. -/
def added (s : Source) : Delivery Pool :=
  let run := Pool.add s k p
  ⟨run.outcome, [], run.state⟩

variable {p}

theorem added_of_finite {s : Source} (h : s.isFinite = true) : added k p s =
    ⟨(drain 512 k s []).outcome, [], { p with
      absorbed := p.absorbed ++ (drain 512 k s []).written
      drained := p.drained + if (drain 512 k s []).outcome = .ok () then 1 else 0 }⟩ := by
  rw [added, Pool.add, if_pos h]
  generalize drain 512 k s [] = d
  obtain ⟨outcome, collected, s'⟩ := d
  cases outcome <;> rfl

theorem added_of_endless {s : Source} (h : s.isFinite = false) :
    added k p s = ⟨.ok (), [], { p with live := p.live ++ [s] }⟩ := by
  rw [added, Pool.add, if_neg (by rw [h]; decide)]

variable (p)

theorem added_spec (s : Source) : Added k p s (added k p s) := by
  cases hfinite : s.isFinite with
  | true =>
    rw [added_of_finite k hfinite]
    constructor
    case grows => exact List.prefix_append _ _
    case requests_eq => rfl
    case counted =>
      intro hok
      rw [PoolOf.sourceCount, if_pos hok]
      exact Nat.add_right_comm ..
    case refused =>
      intro hne
      rw [PoolOf.sourceCount, if_neg hne]
      exact ⟨rfl, rfl⟩
    case absorbed_eq =>
      intro _ hok R octets hR h
      have hdrain : drain 512 k s []
          = ⟨.ok (), (drain 512 k s []).written, (drain 512 k s []).source⟩ := by rw [← hok]
      rw [if_pos hok, (drain_eq_ok hR h (by decide) hdrain).1]
      rfl
    case accepted =>
      intro _ R octets hR h hk
      obtain ⟨s', hdrain, -⟩ := drain_finite hR h (by decide : 0 < 512) hk []
      rw [hdrain]
    case kept => exact fun h => absurd (hfinite.symm.trans h) (by decide)
  | false =>
    rw [added_of_endless k hfinite]
    exact ⟨List.prefix_refl _, rfl, fun _ => by simp [PoolOf.sourceCount, Nat.add_assoc],
      fun hne => absurd rfl hne, by simp [hfinite], by simp [hfinite], fun _ => rfl⟩

end Pool

/-! ## Histories -/

/-- A call on a pool. -/
inductive PoolCall where
  | add (s : Source)
  | request (r : Request)

/-- A call that was made, with the pool before it and what it gave. -/
structure PoolTurn where
  before : Pool
  call : PoolCall
  given : Delivery Pool

namespace PoolTurn

variable (t : PoolTurn)

/-- The pool after the call. -/
def after : Pool := t.given.source

/-- What an answer was derived from, if the call was a request and was answered. -/
def input? : Option Bytes :=
  match t.call, t.given.outcome with
  | .request _, .ok () => some t.after.absorbed
  | _, _ => none

/-- The call did what calls of its kind do. -/
def Recorded (k : Nat) : Prop :=
  match t.call with
  | .add s => t.before.Added k s t.given
  | .request r => t.before.Requested k r t.given

variable {t} {k : Nat}

theorem Recorded.grows (h : t.Recorded k) : t.before.absorbed <+: t.after.absorbed := by
  obtain ⟨p, call, d⟩ := t
  cases call with
  | add s => exact h.grows
  | request r => exact h.grows

/-- What an answer is derived from is more than what had been absorbed before. -/
theorem Recorded.input_lt (h : t.Recorded k) {input : Bytes} (hinput : t.input? = some input) :
    input = t.after.absorbed ∧ t.before.absorbed.length < input.length := by
  obtain ⟨p, call, ⟨outcome, written, p'⟩⟩ := t
  cases call with
  | add s => cases hinput
  | request r =>
    cases outcome with
    | ok u =>
      cases hinput
      have habsorbed : p'.absorbed = _ := (h.answered rfl).absorbed_eq
      refine ⟨rfl, ?_⟩
      show p.absorbed.length < p'.absorbed.length
      rw [habsorbed]
      simp [Bytes.littleEndian]
    | _ => cases hinput

end PoolTurn

namespace Pool

variable (k : Nat)

/-- Makes a call. -/
def perform (p : Pool) : PoolCall → Delivery Pool
  | .add s => added k p s
  | .request r => Pool.interface.serve k p r

/-- Makes one call after the other. -/
def history : Pool → List PoolCall → List PoolTurn
  | _, [] => []
  | p, call :: rest =>
    let d := perform k p call
    ⟨p, call, d⟩ :: history d.source rest

theorem perform_recorded (p : Pool) (call : PoolCall) :
    PoolTurn.Recorded ⟨p, call, perform k p call⟩ k := by
  cases call with
  | add s => exact added_spec k p s
  | request r => exact serve_requested k p r

theorem history_recorded (p : Pool) (calls : List PoolCall) :
    ∀ t ∈ history k p calls, t.Recorded k := by
  induction calls generalizing p with
  | nil => simp [history]
  | cons call rest ih =>
    rw [history, List.forall_mem_cons]
    exact ⟨perform_recorded k p call, ih _⟩

/-- What was absorbed at any time is the beginning of what is absorbed at any later one. -/
theorem history_grows (p : Pool) (calls : List PoolCall) :
    (∀ t ∈ history k p calls, p.absorbed <+: t.before.absorbed) ∧
    (history k p calls).Pairwise fun t t' => t.after.absorbed <+: t'.before.absorbed := by
  induction calls generalizing p with
  | nil => simp [history]
  | cons call rest ih =>
    obtain ⟨hfirst, hrest⟩ := ih (perform k p call).source
    rw [history, List.forall_mem_cons, List.pairwise_cons]
    exact ⟨⟨List.prefix_refl _, fun t ht => (perform_recorded k p call).grows.trans (hfirst t ht)⟩,
      hfirst, hrest⟩

/-- **No two requests to a pool are answered from the same input.** In any history of additions and
requests, where sources may fail at any point,

* every call did what `Added` and `Requested` say of calls of its kind;
* what has been absorbed only grows, from call to call and over the history;
* the input of an earlier answer is the beginning of the input of a later one, and not all of it. -/
theorem inputs_never_repeat (p : Pool) (calls : List PoolCall) :
    (∀ t ∈ history k p calls, t.Recorded k ∧ t.before.absorbed <+: t.after.absorbed) ∧
    (history k p calls).Pairwise (fun t t' => t.after.absorbed <+: t'.before.absorbed) ∧
    ((history k p calls).filterMap PoolTurn.input?).Pairwise
      (fun earlier later => earlier <+: later ∧ earlier ≠ later) := by
  have hrecorded := history_recorded k p calls
  obtain ⟨-, hgrows⟩ := history_grows k p calls
  refine ⟨fun t ht => ⟨hrecorded t ht, (hrecorded t ht).grows⟩, hgrows, ?_⟩
  rw [List.pairwise_filterMap]
  refine hgrows.imp_of_mem fun {t t'} ht ht' hbetween input hinput input' hinput' => ?_
  obtain ⟨rfl, -⟩ := (hrecorded t ht).input_lt hinput
  obtain ⟨rfl, hlonger⟩ := (hrecorded t' ht').input_lt hinput'
  refine ⟨hbetween.trans (hrecorded t' ht').grows, fun hsame => ?_⟩
  have hle := hbetween.length_le
  rw [hsame] at hle
  exact Nat.not_le.2 hlonger hle

/-- Three octets that an operator put in, and a request that nothing is absorbed for but its number
and its length. -/
example : (history 4 .empty [.request (.read 1), .add (.ofBytes [7, 8, 9]),
      .request (.mustRead 2)]).filterMap PoolTurn.input?
    = [[7, 8, 9, 1, 0, 0, 0, 0, 0, 0, 0, 2, 0, 0, 0, 0, 0, 0, 0]] := by
  rfl

end Pool

end ThresholdKeys
