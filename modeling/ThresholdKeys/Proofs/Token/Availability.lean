import ThresholdKeys.Proofs.Token.Records
import ThresholdKeys.Token.Cards

/-!
# Calls to tokens in memory

A token whose pending failures do not outnumber the retries of a policy is *available*: a call to it
ends as its records say (`Available.run`). One that is out of reach refuses every call, however
often it is repeated (`OutOfReach.run`). The three operations are read off: a store puts the record
under its identifier, a read finds it, a removal takes it away, and the token stays available.
-/

namespace ThresholdKeys

/-! ## Repetitions -/

/-- An outcome that is not worth a repetition. -/
def Outcome.IsFinal {α : Type} : Outcome TokenError α → Prop
  | .ok _ => True
  | .error e => e.isTransient = false
  | .fault => False
  | .stalled => False

namespace RetryPolicy

variable {σ α : Type} {call : Proc σ TokenError α} {k : Nat} {s s' : σ} {log : List LogRecord}

/-- A call that ends for good is made once. -/
theorem attempts_final {o : Outcome TokenError α} (h : call k s = ⟨o, s', log⟩) (ho : o.IsFinal)
    (label : String) (retries left : Nat) :
    ∃ log', attempts label retries call left k s = ⟨o, s', log'⟩ := by
  cases left with
  | zero => exact ⟨log, h⟩
  | succ left =>
    cases o with
    | ok a =>
      rw [attempts, Proc.bind_apply_ok (Proc.attempt_apply_ok h)]
      exact ⟨_, rfl⟩
    | error e =>
      have he : e.isTransient = false := ho
      rw [attempts, Proc.bind_apply_ok (Proc.attempt_apply_error h)]
      simp only [he]
      exact ⟨_, rfl⟩
    | fault => exact ho.elim
    | stalled => exact ho.elim

/-- After a transient failure the call is made again. -/
theorem attempts_transient {e : TokenError} (h : call k s = ⟨.error e, s', log⟩)
    (he : e.isTransient = true) (label : String) (retries left : Nat) :
    ∃ log', attempts label retries call (left + 1) k s
      = ⟨(attempts label retries call left k s').outcome,
        (attempts label retries call left k s').state, log'⟩ := by
  rw [attempts, Proc.bind_apply_ok (Proc.attempt_apply_error h)]
  simp only [he]
  exact ⟨_, rfl⟩

end RetryPolicy

/-! ## Calls to a token in memory -/

/-- A token that can be reached after no more failures than there are retries, with what it keeps
under an identifier. -/
structure Available (retries : Nat) (identifier : Bytes) (kept : Option Record) (m : MemoryToken) :
    Prop where
  reachable : m.unreachable = false
  pending : m.pendingFailures ≤ retries
  lookup : m.records.lookup? identifier = kept

/-- The token after all its failures and one more call. -/
def MemoryToken.settled (m : MemoryToken) : MemoryToken :=
  { m with pendingFailures := 0, calls := m.calls + m.pendingFailures + 1 }

/-- The token after a failure, with `n` more to come. -/
def MemoryToken.failed (m : MemoryToken) (n : Nat) : MemoryToken :=
  { m with pendingFailures := n, calls := m.calls + 1 }

/-- The token after `n` calls that failed, one pending failure each. -/
def MemoryToken.exhausted (m : MemoryToken) (n : Nat) : MemoryToken :=
  { m with pendingFailures := m.pendingFailures - n, calls := m.calls + n }

/-- The token after `n` calls that did not reach it. -/
def MemoryToken.unanswered (m : MemoryToken) (n : Nat) : MemoryToken :=
  { m with calls := m.calls + n }

theorem MemoryToken.exhausted_exhausted (m : MemoryToken) (a b : Nat) :
    (m.exhausted a).exhausted b = m.exhausted (a + b) := by
  simp only [exhausted, MemoryToken.mk.injEq, true_and]
  omega

theorem MemoryToken.unanswered_unanswered (m : MemoryToken) (a b : Nat) :
    (m.unanswered a).unanswered b = m.unanswered (a + b) := by
  simp only [unanswered, Nat.add_assoc]

theorem MemoryToken.settled_failed {m : MemoryToken} {n : Nat} (h : m.pendingFailures = n + 1) :
    (m.failed n).settled = m.settled := by
  simp only [settled, failed, h, MemoryToken.mk.injEq, true_and]
  omega

/-- A token that nothing hinders is reached at once. -/
theorem MemoryToken.connect_bind_apply {α : Type} {body : Proc MemoryToken TokenError α}
    {m m' : MemoryToken} {k : Nat} {o : Outcome TokenError α} {log : List LogRecord}
    (hr : m.unreachable = false) (hp : m.pendingFailures = 0)
    (hbody : body k m.settled = ⟨o, m', log⟩) : (do connect; body) k m = ⟨o, m', log⟩ := by
  have hconnect : connect k m = ⟨.ok (), m.settled, []⟩ := by
    simp [connect, settled, hr, hp]
  rw [Proc.bind_apply_ok hconnect, hbody]
  rfl

/-- Once the token is reached, its records are read. -/
theorem MemoryToken.readReached_eq (tag identifier : Bytes) (k : Nat) (m : MemoryToken) :
    readReached tag identifier k m = ⟨m.records.get tag identifier, m, []⟩ := rfl

namespace Token

theorem dispatch_memory {α : Type} (onMemory : Proc MemoryToken TokenError α)
    (onSealed : Proc SealedToken TokenError α) (k : Nat) (m : MemoryToken) :
    dispatch onMemory onSealed k (memory m)
      = ⟨(onMemory k m).outcome, memory (onMemory k m).state, (onMemory k m).log⟩ := rfl

section Calls

variable {α : Type} {body : Proc MemoryToken TokenError α}
  {onSealed : Proc SealedToken TokenError α} {m : MemoryToken} {k : Nat}

/-- A call to a token in memory connects first. -/
def connecting (body : Proc MemoryToken TokenError α) (onSealed : Proc SealedToken TokenError α) :
    Proc Token TokenError α :=
  dispatch (do MemoryToken.connect; body) onSealed

theorem connecting_settled {o : Outcome TokenError α} {m' : MemoryToken} {log : List LogRecord}
    (hr : m.unreachable = false) (hp : m.pendingFailures = 0)
    (hbody : body k m.settled = ⟨o, m', log⟩) :
    connecting body onSealed k (memory m) = ⟨o, memory m', log⟩ := by
  rw [connecting, dispatch_memory, MemoryToken.connect_bind_apply hr hp hbody]

theorem connecting_pending {n : Nat} (hr : m.unreachable = false)
    (hp : m.pendingFailures = n + 1) :
    connecting body onSealed k (memory m) = ⟨.error .communication, memory (m.failed n), []⟩ := by
  have hconnect : MemoryToken.connect k m = ⟨.error .communication, m.failed n, []⟩ := by
    simp [MemoryToken.connect, MemoryToken.failed, hr, hp]
  rw [connecting, dispatch_memory, Proc.bind_apply_error hconnect]

theorem connecting_outOfReach (hr : m.unreachable = true) :
    connecting body onSealed k (memory m)
      = ⟨.error .communication, memory (m.failed m.pendingFailures), []⟩ := by
  have hconnect : MemoryToken.connect k m
      = ⟨.error .communication, m.failed m.pendingFailures, []⟩ := by
    simp [MemoryToken.connect, MemoryToken.failed, hr]
  rw [connecting, dispatch_memory, Proc.bind_apply_error hconnect]

/-- Repetitions use up the pending failures, and then the call ends for good. -/
theorem attempts_connecting {o : Outcome TokenError α} {m' : MemoryToken} {log : List LogRecord}
    (hr : m.unreachable = false) (hbody : body k m.settled = ⟨o, m', log⟩) (ho : o.IsFinal)
    (label : String) (retries : Nat) {left : Nat} (hp : m.pendingFailures ≤ left) :
    ∃ log', RetryPolicy.attempts label retries (connecting body onSealed) left k (memory m)
      = ⟨o, memory m', log'⟩ := by
  induction left generalizing m with
  | zero =>
    exact RetryPolicy.attempts_final (connecting_settled hr (by omega) hbody) ho label retries 0
  | succ left ih =>
    cases hn : m.pendingFailures with
    | zero =>
      exact RetryPolicy.attempts_final (connecting_settled hr hn hbody) ho label retries _
    | succ n =>
      have hfailed : connecting body onSealed k (memory m)
          = ⟨.error .communication, memory (m.failed n), []⟩ := connecting_pending hr hn
      obtain ⟨log₁, h₁⟩ := RetryPolicy.attempts_transient hfailed rfl label retries left
      have hrest : ∃ log', RetryPolicy.attempts label retries (connecting body onSealed) left k
          (memory (m.failed n)) = ⟨o, memory m', log'⟩ := by
        refine ih hr ?_ ?_
        · rw [MemoryToken.settled_failed hn, hbody]
        · rw [hn] at hp
          exact Nat.le_of_succ_le_succ hp
      obtain ⟨log₂, h₂⟩ := hrest
      rw [h₂] at h₁
      exact ⟨_, h₁⟩

theorem connecting_failed (hr : m.unreachable = false) (hp : 0 < m.pendingFailures) :
    connecting body onSealed k (memory m)
      = ⟨.error .communication, memory (m.exhausted 1), []⟩ :=
  connecting_pending hr (Nat.succ_pred_eq_of_pos hp).symm

/-- The repetitions are over before the pending failures are. -/
theorem attempts_exhausted (hr : m.unreachable = false) (label : String) (retries : Nat)
    {left : Nat} (hp : left < m.pendingFailures) :
    ∃ log, RetryPolicy.attempts label retries (connecting body onSealed) left k (memory m)
      = ⟨.error .communication, memory (m.exhausted (left + 1)), log⟩ := by
  induction left generalizing m with
  | zero => exact ⟨[], connecting_failed hr hp⟩
  | succ left ih =>
    have hfailed : connecting body onSealed k (memory m)
        = ⟨.error .communication, memory (m.exhausted 1), []⟩ := connecting_failed hr (by omega)
    have hmore : left < (m.exhausted 1).pendingFailures := Nat.lt_sub_of_add_lt hp
    obtain ⟨log₁, h₁⟩ := RetryPolicy.attempts_transient hfailed rfl label retries left
    obtain ⟨log₂, h₂⟩ := ih (m := m.exhausted 1) hr hmore
    rw [h₂, MemoryToken.exhausted_exhausted, Nat.add_comm 1] at h₁
    exact ⟨log₁, h₁⟩

/-- A token out of reach fails every repetition. -/
theorem attempts_outOfReach (hr : m.unreachable = true) (label : String) (retries left : Nat) :
    ∃ log, RetryPolicy.attempts label retries (connecting body onSealed) left k (memory m)
      = ⟨.error .communication, memory (m.unanswered (left + 1)), log⟩ := by
  induction left generalizing m with
  | zero => exact ⟨[], connecting_outOfReach hr⟩
  | succ left ih =>
    have hfailed : connecting body onSealed k (memory m)
        = ⟨.error .communication, memory (m.unanswered 1), []⟩ := connecting_outOfReach hr
    obtain ⟨log₁, h₁⟩ := RetryPolicy.attempts_transient hfailed rfl label retries left
    obtain ⟨log₂, h₂⟩ := ih (m := m.unanswered 1) hr
    rw [h₂, MemoryToken.unanswered_unanswered, Nat.add_comm 1] at h₁
    exact ⟨log₁, h₁⟩

end Calls

end Token

/-! ## The three operations -/

namespace Cards

variable {α : Type} {cards cards' : Cards} {slot k : Nat} {identifier : Bytes} {r : Record}
  {log : List LogRecord}

/-- A call changes its slot only. -/
theorem call_apply {p : Proc Token TokenError α} {token token' : Token} {o : Outcome TokenError α}
    {log : List LogRecord} (hslot : cards.tokens[slot]? = some token)
    (hrun : cards.retry.run token.id p k token = ⟨o, token', log⟩) :
    call slot p k cards = ⟨o, { cards with tokens := cards.tokens.set slot token' }, log⟩ := by
  rw [call, hslot]
  dsimp only
  rw [hrun]

theorem call_available {body : Proc MemoryToken TokenError α}
    {onSealed : Proc SealedToken TokenError α} {kept : Option Record} {m m' : MemoryToken}
    {o : Outcome TokenError α} (hslot : cards.tokens[slot]? = some (.memory m))
    (h : Available cards.retry.retries identifier kept m)
    (hbody : body k m.settled = ⟨o, m', []⟩) (ho : o.IsFinal) :
    ∃ log', call slot (Token.connecting body onSealed) k cards
      = ⟨o, { cards with tokens := cards.tokens.set slot (.memory m') }, log'⟩ := by
  have hrun : ∃ log', cards.retry.run m.id (Token.connecting body onSealed) k (.memory m)
      = ⟨o, .memory m', log'⟩ :=
    Token.attempts_connecting h.reachable hbody ho m.id cards.retry.retries h.pending
  obtain ⟨log', hrun⟩ := hrun
  exact ⟨log', call_apply hslot hrun⟩

/-- Storing writes a record of the log after the call. -/
theorem store_of_call {o : Outcome TokenError Unit}
    (h : call slot (Token.store r) k cards = ⟨o, cards', log⟩) :
    ∃ log', store slot r k cards = ⟨o, cards', log'⟩ := by
  have hnote : ∀ a : Unit, ∃ log', (do
      let label ← label slot
      Proc.note .debug s!"Token {label}: stored {describe r.identifier} (index {r.index})" :
        Proc Cards TokenError Unit) k cards' = ⟨.ok (id a), cards', log'⟩ := fun _ => ⟨_, rfl⟩
  obtain ⟨log', hstore⟩ := Proc.bind_noting_apply h hnote
  rw [id_map] at hstore
  exact ⟨log', hstore⟩

/-- Removing writes one too, if there was something to remove. -/
theorem remove_of_call {tag identifier : Bytes} {o : Outcome TokenError Bool}
    (h : call slot (Token.remove tag identifier) k cards = ⟨o, cards', log⟩) :
    ∃ log', remove slot tag identifier k cards = ⟨o, cards', log'⟩ := by
  have hnote : ∀ present : Bool, ∃ log', (if present then do
      let label ← label slot
      Proc.note .info s!"Token {label}: removed {describe identifier}"
      return true
    else return false : Proc Cards TokenError Bool) k cards'
      = ⟨.ok (id present), cards', log'⟩ := by
    intro present
    cases present <;> exact ⟨_, rfl⟩
  obtain ⟨log', hremove⟩ := Proc.bind_noting_apply h hnote
  rw [id_map] at hremove
  exact ⟨log', hremove⟩

/-- A record is stored where there was none. -/
theorem call_store {m : MemoryToken} (hslot : cards.tokens[slot]? = some (.memory m))
    (h : Available cards.retry.retries r.identifier none m) :
    ∃ m' log, Available cards.retry.retries r.identifier (some r) m' ∧
      call slot (Token.store r) k cards
        = ⟨.ok (), { cards with tokens := cards.tokens.set slot (.memory m') }, log⟩ := by
  have hstore : m.settled.records.store r = .ok (Records.insert r m.records) := by
    rw [MemoryToken.settled, Records.store, h.lookup]
  have hcall : ∃ log, call slot (Token.store r) k cards = ⟨.ok (), { cards with
      tokens := cards.tokens.set slot
        (.memory { m.settled with records := Records.insert r m.records }) }, log⟩ := by
    refine call_available hslot h ?_ trivial
    rw [MemoryToken.storeReached, Proc.get_bind_apply, hstore, Proc.liftM_ok_bind]
    rfl
  obtain ⟨log, hcall⟩ := hcall
  exact ⟨{ m.settled with records := Records.insert r m.records }, log,
    ⟨h.reachable, Nat.zero_le _, Records.lookup?_insert_self r m.records⟩, hcall⟩

/-- A record is read with its tag. -/
theorem read_available {m : MemoryToken} (hslot : cards.tokens[slot]? = some (.memory m))
    (h : Available cards.retry.retries identifier (some r) m) :
    ∃ log, read slot r.tag identifier k cards = ⟨.ok ⟨r.index, r.blob⟩,
      { cards with tokens := cards.tokens.set slot (.memory m.settled) }, log⟩ := by
  have hget : m.settled.records.get r.tag identifier = .ok ⟨r.index, r.blob⟩ := by
    rw [MemoryToken.settled, Records.get, h.lookup]
    exact if_pos rfl
  refine call_available hslot h ?_ trivial
  rw [MemoryToken.readReached_eq, hget]

/-- Nothing is read where nothing is kept. -/
theorem read_absent {m : MemoryToken} (hslot : cards.tokens[slot]? = some (.memory m))
    (h : Available cards.retry.retries identifier none m) (tag : Bytes) :
    ∃ log, read slot tag identifier k cards = ⟨.error .notFound,
      { cards with tokens := cards.tokens.set slot (.memory m.settled) }, log⟩ := by
  have hget : m.settled.records.get tag identifier = .error .notFound := by
    rw [MemoryToken.settled, Records.get, h.lookup]
  refine call_available hslot h ?_ rfl
  rw [MemoryToken.readReached_eq, hget]

/-- A token out of reach is not read. -/
theorem read_outOfReach {m : MemoryToken} (hslot : cards.tokens[slot]? = some (.memory m))
    (hr : m.unreachable = true) (tag identifier : Bytes) :
    ∃ m' log, read slot tag identifier k cards = ⟨.error .communication,
      { cards with tokens := cards.tokens.set slot (.memory m') }, log⟩ := by
  have hrun : ∃ log, cards.retry.run m.id (Token.read tag identifier) k (.memory m)
      = ⟨.error .communication, .memory (m.unanswered (cards.retry.retries + 1)), log⟩ :=
    Token.attempts_outOfReach hr m.id cards.retry.retries cards.retry.retries
  obtain ⟨log, hrun⟩ := hrun
  exact ⟨_, log, call_apply hslot hrun⟩

/-- A record is removed with its tag. -/
theorem call_remove {m : MemoryToken} (hslot : cards.tokens[slot]? = some (.memory m))
    (h : Available cards.retry.retries identifier (some r) m) :
    ∃ m' log, Available cards.retry.retries identifier none m' ∧
      call slot (Token.remove r.tag identifier) k cards
        = ⟨.ok true, { cards with tokens := cards.tokens.set slot (.memory m') }, log⟩ := by
  have hremove : m.settled.records.remove r.tag identifier
      = .ok (some (m.records.erase identifier)) := by
    rw [MemoryToken.settled, Records.remove, h.lookup]
    exact if_pos rfl
  have hcall : ∃ log, call slot (Token.remove r.tag identifier) k cards = ⟨.ok true, { cards with
      tokens := cards.tokens.set slot
        (.memory { m.settled with records := m.records.erase identifier }) }, log⟩ := by
    refine call_available hslot h ?_ trivial
    rw [MemoryToken.removeReached, Proc.get_bind_apply, hremove, Proc.liftM_ok_bind]
    rfl
  obtain ⟨log, hcall⟩ := hcall
  exact ⟨{ m.settled with records := m.records.erase identifier }, log,
    ⟨h.reachable, Nat.zero_le _, Records.lookup?_erase_self m.records identifier⟩, hcall⟩

end Cards

end ThresholdKeys
