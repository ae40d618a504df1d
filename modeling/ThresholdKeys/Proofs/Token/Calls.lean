import ThresholdKeys.Proofs.Token.Availability

/-!
# Calls to tokens

A `Call` is one of the three operations as a value, and its `effect` on records is that of an
operation on a map in which every identifier is written once. A call to a token in memory that
nothing hinders has this effect (`Call.onMemory_apply`). A call to a slot has it under the
conditions of `MemoryToken.repeated`, which says what repetitions come to, and in the slot alone
(`Call.onCards_apply`).
-/

namespace ThresholdKeys

/-- An operation of a token. -/
inductive Call where
  | store (r : Record)
  | read (tag identifier : Bytes)
  | remove (tag identifier : Bytes)
  deriving DecidableEq, Repr

/-- What an operation returns. -/
inductive Answer where
  | stored
  | blob (b : IndexedBlob)
  /-- Whether there was something to remove. -/
  | removed (present : Bool)
  deriving DecidableEq, Repr

namespace Call

/-- The call to a token in memory. -/
def onMemory : Call → Proc MemoryToken TokenError Answer
  | store r => do
    MemoryToken.store r
    return .stored
  | read tag identifier => do return .blob (← MemoryToken.read tag identifier)
  | remove tag identifier => do return .removed (← MemoryToken.remove tag identifier)

/-- The call to a token in a file. -/
def onSealed : Call → Proc SealedToken TokenError Answer
  | store r => do
    SealedToken.store r
    return .stored
  | read tag identifier => do return .blob (← SealedToken.read tag identifier)
  | remove tag identifier => do return .removed (← SealedToken.remove tag identifier)

/-- The call to the token in a slot. -/
def onCards (slot : Nat) : Call → Proc Cards TokenError Answer
  | store r => do
    Cards.store slot r
    return .stored
  | read tag identifier => do return .blob (← Cards.read slot tag identifier)
  | remove tag identifier => do return .removed (← Cards.remove slot tag identifier)

/-- What the call answers if the token keeps `rs`, and what the token keeps then. -/
def effect (rs : Records) : Call → Outcome TokenError Answer × Records
  | store r =>
    match rs.lookup? r.identifier with
    | some _ => (.error .alreadyExists, rs)
    | none => (.ok .stored, Records.insert r rs)
  | read tag identifier =>
    match rs.lookup? identifier with
    | none => (.error .notFound, rs)
    | some r =>
      if r.tag = tag then (.ok (.blob ⟨r.index, r.blob⟩), rs) else (.error .wrongTag, rs)
  | remove tag identifier =>
    match rs.lookup? identifier with
    | none => (.ok (.removed false), rs)
    | some r =>
      if r.tag = tag then (.ok (.removed true), rs.erase identifier) else (.error .wrongTag, rs)

/-- A call leaves the records as they are, or it puts a new record in, or it takes one out; and it
never is the storage that fails. -/
theorem effect_cases (rs : Records) (call : Call) :
    (∃ o, call.effect rs = (o, rs) ∧ o ≠ .error .storage) ∨
      (∃ r, call = .store r ∧ rs.lookup? r.identifier = none ∧
        call.effect rs = (.ok .stored, Records.insert r rs)) ∨
      ∃ identifier r, call = .remove r.tag identifier ∧ rs.lookup? identifier = some r ∧
        call.effect rs = (.ok (.removed true), rs.erase identifier) := by
  cases call with
  | store r =>
    rw [effect]
    cases hr : rs.lookup? r.identifier with
    | some kept => exact .inl ⟨_, rfl, by simp⟩
    | none => exact .inr (.inl ⟨r, rfl, hr, rfl⟩)
  | read tag identifier =>
    rw [effect]
    cases rs.lookup? identifier with
    | none => exact .inl ⟨_, rfl, by simp⟩
    | some r =>
      dsimp only
      split <;> exact .inl ⟨_, rfl, by simp⟩
  | remove tag identifier =>
    rw [effect]
    cases hr : rs.lookup? identifier with
    | none => exact .inl ⟨_, rfl, by simp⟩
    | some r =>
      dsimp only
      split
      · next htag => exact .inr (.inr ⟨identifier, r, by rw [htag], hr, rfl⟩)
      · exact .inl ⟨_, rfl, by simp⟩

end Call

/-! ## Repetitions -/

/-- What a call comes to that is repeated up to `retries` times, if the call alone ends with `o` and
leaves the records `rs`. -/
def MemoryToken.repeated {α : Type} (retries : Nat) (o : Outcome TokenError α) (rs : Records)
    (m : MemoryToken) : Outcome TokenError α × MemoryToken :=
  if m.unreachable then (.error .communication, m.unanswered (retries + 1))
  else if m.pendingFailures ≤ retries then (o, { m.settled with records := rs })
  else (.error .communication, m.exhausted (retries + 1))

/-- Either the token is not reached and its records are as they were, or the call has its effect. -/
theorem MemoryToken.repeated_cases {α : Type} (retries : Nat) (o : Outcome TokenError α)
    (rs : Records) (m : MemoryToken) :
    (∃ m', m.repeated retries o rs = (.error .communication, m') ∧ m'.records = m.records) ∨
      m.repeated retries o rs = (o, { m.settled with records := rs }) := by
  unfold repeated
  split
  · exact .inl ⟨_, rfl, rfl⟩
  · split
    · exact .inr rfl
    · exact .inl ⟨_, rfl, rfl⟩

theorem Cards.call_repeated {α : Type} {body : Proc MemoryToken TokenError α}
    {onSealed : Proc SealedToken TokenError α} {cards : Cards} {slot k : Nat} {m : MemoryToken}
    {o : Outcome TokenError α} {rs : Records} {log : List LogRecord}
    (hslot : cards.tokens[slot]? = some (.memory m))
    (hbody : body k m.settled = ⟨o, { m.settled with records := rs }, log⟩) (ho : o.IsFinal) :
    ∃ log', call slot (Token.connecting body onSealed) k cards
      = ⟨(m.repeated cards.retry.retries o rs).1, { cards with
          tokens := cards.tokens.set slot (.memory (m.repeated cards.retry.retries o rs).2) },
        log'⟩ := by
  have hrun : ∃ log', cards.retry.run m.id (Token.connecting body onSealed) k (.memory m)
      = ⟨(m.repeated cards.retry.retries o rs).1,
        .memory (m.repeated cards.retry.retries o rs).2, log'⟩ := by
    unfold MemoryToken.repeated
    split
    · next hr => exact Token.attempts_outOfReach hr m.id _ _
    · next hr =>
      have hreachable : m.unreachable = false := by simpa using hr
      split
      · next hp => exact Token.attempts_connecting hreachable hbody ho m.id _ hp
      · next hp => exact Token.attempts_exhausted hreachable m.id _ (Nat.lt_of_not_le hp)
  obtain ⟨log', hrun⟩ := hrun
  exact ⟨log', call_apply hslot hrun⟩

theorem MemoryToken.repeated_map {α β : Type} (f : α → β) (retries : Nat)
    (o : Outcome TokenError α) (rs : Records) (m : MemoryToken) :
    m.repeated retries (f <$> o) rs = (f <$> (m.repeated retries o rs).1,
      (m.repeated retries o rs).2) := by
  unfold repeated
  split
  · rfl
  · split <;> rfl

/-! ## After the connection -/

/-- Where the token is reached, the procedure does what the call does, and answers as it does. -/
def MemoryToken.Realizes {α : Type} (body : Proc MemoryToken TokenError α) (answer : α → Answer)
    (call : Call) : Prop :=
  ∀ k m, ∃ o, body k m = ⟨o, { m with records := (call.effect m.records).2 }, []⟩ ∧
    answer <$> o = (call.effect m.records).1 ∧ o.IsFinal

namespace MemoryToken

theorem storeReached_realizes (r : Record) :
    Realizes (storeReached r) (fun _ => .stored) (.store r) := by
  intro k m
  rw [storeReached, Proc.get_bind_apply, Records.store, Call.effect]
  cases m.records.lookup? r.identifier with
  | some _ => exact ⟨.error .alreadyExists, rfl, rfl, rfl⟩
  | none => exact ⟨.ok (), rfl, rfl, trivial⟩

theorem readReached_realizes (tag identifier : Bytes) :
    Realizes (readReached tag identifier) .blob (.read tag identifier) := by
  intro k m
  rw [readReached_eq, Records.get, Call.effect]
  cases m.records.lookup? identifier with
  | none => exact ⟨.error .notFound, rfl, rfl, rfl⟩
  | some r =>
    dsimp only
    by_cases htag : r.tag = tag
    · rw [if_pos htag, if_pos htag]
      exact ⟨.ok ⟨r.index, r.blob⟩, rfl, rfl, trivial⟩
    · rw [if_neg htag, if_neg htag]
      exact ⟨.error .wrongTag, rfl, rfl, rfl⟩

theorem removeReached_realizes (tag identifier : Bytes) :
    Realizes (removeReached tag identifier) .removed (.remove tag identifier) := by
  intro k m
  rw [removeReached, Proc.get_bind_apply, Records.remove, Call.effect]
  cases m.records.lookup? identifier with
  | none => exact ⟨.ok false, rfl, rfl, trivial⟩
  | some r =>
    dsimp only
    by_cases htag : r.tag = tag
    · rw [if_pos htag, if_pos htag]
      exact ⟨.ok true, rfl, rfl, trivial⟩
    · rw [if_neg htag, if_neg htag]
      exact ⟨.error .wrongTag, rfl, rfl, rfl⟩

namespace Realizes

variable {α : Type} {body : Proc MemoryToken TokenError α} {answer : α → Answer} {call : Call}

/-- With a connection in front that nothing hinders. -/
theorem connected (h : Realizes body answer call) {m : MemoryToken} (hr : m.unreachable = false)
    (hp : m.pendingFailures = 0) (k : Nat) :
    (do return answer (← (do connect; body)) : Proc MemoryToken TokenError Answer) k m
      = ⟨(call.effect m.records).1,
        { m.settled with records := (call.effect m.records).2 }, []⟩ := by
  obtain ⟨o, hbody, hanswer, -⟩ := h k m.settled
  rw [Proc.bind_pure_apply (connect_bind_apply hr hp hbody), hanswer]
  rfl

/-- In a slot the call is repeated. -/
theorem inSlot (h : Realizes body answer call) {onSealed : Proc SealedToken TokenError α}
    {cards : Cards} {slot : Nat} {m : MemoryToken} (hslot : cards.tokens[slot]? = some (.memory m))
    (k : Nat) :
    ∃ o log, Cards.call slot (Token.connecting body onSealed) k cards
        = ⟨(m.repeated cards.retry.retries o (call.effect m.records).2).1, { cards with
            tokens := cards.tokens.set slot
              (.memory (m.repeated cards.retry.retries o (call.effect m.records).2).2) }, log⟩ ∧
      answer <$> o = (call.effect m.records).1 := by
  obtain ⟨o, hbody, hanswer, ho⟩ := h k m.settled
  obtain ⟨log, hcall⟩ := Cards.call_repeated hslot hbody ho
  exact ⟨o, log, hcall, hanswer⟩

end Realizes

end MemoryToken

namespace Cards

/-- A store is repeated as any call is. -/
theorem store_repeated {cards : Cards} {slot : Nat} {m : MemoryToken}
    (hslot : cards.tokens[slot]? = some (.memory m)) (r : Record) (k : Nat) :
    ∃ o log, store slot r k cards = ⟨(m.repeated cards.retry.retries o
        ((Call.store r).effect m.records).2).1, { cards with
          tokens := cards.tokens.set slot (.memory (m.repeated cards.retry.retries o
            ((Call.store r).effect m.records).2).2) }, log⟩ ∧
      (fun _ => Answer.stored) <$> o = ((Call.store r).effect m.records).1 := by
  obtain ⟨o, log, hcall, hanswer⟩ := (MemoryToken.storeReached_realizes r).inSlot hslot k
  obtain ⟨log', hstore⟩ := store_of_call hcall
  exact ⟨o, log', hstore, hanswer⟩

end Cards

namespace Call

/-- **A call that nothing hinders** has its effect on the records. -/
theorem onMemory_apply {m : MemoryToken} (hr : m.unreachable = false)
    (hp : m.pendingFailures = 0) (call : Call) (k : Nat) :
    call.onMemory k m = ⟨(call.effect m.records).1,
      { m.settled with records := (call.effect m.records).2 }, []⟩ := by
  cases call with
  | store r => exact (MemoryToken.storeReached_realizes r).connected hr hp k
  | read tag identifier =>
    exact (MemoryToken.readReached_realizes tag identifier).connected hr hp k
  | remove tag identifier =>
    exact (MemoryToken.removeReached_realizes tag identifier).connected hr hp k

/-- **A call to a slot** has its effect under the conditions of repetition, in the slot alone. -/
theorem onCards_apply {cards : Cards} {slot : Nat} {m : MemoryToken}
    (hslot : cards.tokens[slot]? = some (.memory m)) (call : Call) (k : Nat) :
    ∃ log, call.onCards slot k cards = ⟨(m.repeated cards.retry.retries (call.effect m.records).1
        (call.effect m.records).2).1,
      { cards with tokens := cards.tokens.set slot (.memory (m.repeated cards.retry.retries
        (call.effect m.records).1 (call.effect m.records).2).2) }, log⟩ := by
  cases call with
  | store r =>
    obtain ⟨o, log, hstore, hanswer⟩ := Cards.store_repeated hslot r k
    rw [onCards, Proc.bind_pure_apply hstore, ← hanswer, MemoryToken.repeated_map]
    exact ⟨log, rfl⟩
  | read tag identifier =>
    obtain ⟨o, log, hcall, hanswer⟩ :=
      (MemoryToken.readReached_realizes tag identifier).inSlot hslot k
    have hread : Cards.read slot tag identifier k cards = ⟨_, _, log⟩ := hcall
    rw [onCards, Proc.bind_pure_apply hread, ← hanswer, MemoryToken.repeated_map]
    exact ⟨log, rfl⟩
  | remove tag identifier =>
    obtain ⟨o, log, hcall, hanswer⟩ :=
      (MemoryToken.removeReached_realizes tag identifier).inSlot hslot k
    obtain ⟨log', hremove⟩ := Cards.remove_of_call hcall
    rw [onCards, Proc.bind_pure_apply hremove, ← hanswer, MemoryToken.repeated_map]
    exact ⟨log', rfl⟩

theorem onCards_unknownSlot {cards : Cards} {slot : Nat} (hslot : cards.tokens[slot]? = none)
    (call : Call) (k : Nat) :
    call.onCards slot k cards = ⟨.error (.unknownSlot slot), cards, []⟩ := by
  have hcall : ∀ {α : Type} (p : Proc Token TokenError α),
      Cards.call slot p k cards = ⟨.error (.unknownSlot slot), cards, []⟩ := by
    intro α p
    rw [Cards.call, hslot]
  cases call with
  | store r =>
    rw [onCards, Cards.store]
    exact Proc.bind_apply_error (Proc.bind_apply_error (hcall _) _) _
  | read tag identifier => exact Proc.bind_apply_error (hcall _) _
  | remove tag identifier => exact Proc.bind_apply_error (Proc.bind_apply_error (hcall _) _) _

end Call

end ThresholdKeys
