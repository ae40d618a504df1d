import ThresholdKeys.Ceremony.Collection
import ThresholdKeys.Proofs.Token.Availability

/-!
# What a token yields

A token of any kind *yields* a blob if a read of it, repeated as a policy says, comes to that blob,
and yields nothing if the read comes to a cause for which the token is passed over. What was stored
on a token, by however many attempts, is what the token yields from then on
(`Token.yields_of_store`), and so it is in the slots of a set of tokens (`Cards.yields_of_store`).
-/

namespace ThresholdKeys

/-! ## Repetitions -/

/-- A call that is repeated until it returns a value returned it at once in some state. -/
theorem RetryPolicy.attempts_eq_ok {σ α : Type} {label : String} {retries left k : Nat}
    {call : Proc σ TokenError α} {s s' : σ} {a : α} {log : List LogRecord}
    (h : attempts label retries call left k s = ⟨.ok a, s', log⟩) :
    ∃ s₀ log₀, call k s₀ = ⟨.ok a, s', log₀⟩ := by
  induction left generalizing s log with
  | zero => exact ⟨s, log, h⟩
  | succ left ih =>
    rw [attempts] at h
    obtain ⟨result, s₁, log₁, log₂, hcall, hrest⟩ := Proc.bind_eq_ok h
    unfold Proc.attempt at hcall
    split at hcall
    · next a' s₂ log' hrun =>
      cases hcall
      cases hrest
      exact ⟨s, _, hrun⟩
    · next e s₂ log' hrun =>
      cases hcall
      dsimp only at hrest
      split at hrest
      · obtain ⟨_, s₃, log₃, log₄, hnote, hagain⟩ := Proc.bind_eq_ok hrest
        cases hnote
        exact ih hagain
      · cases hrest
    all_goals cases hcall

/-! ## Stores -/

/-- A token in memory that took a record can be reached, and keeps it. -/
theorem MemoryToken.store_eq_ok {r : Record} {k : Nat} {m m' : MemoryToken} {log : List LogRecord}
    (h : store r k m = ⟨.ok (), m', log⟩) :
    m'.unreachable = false ∧ m'.pendingFailures = 0 ∧
      m'.records.lookup? r.identifier = some r := by
  obtain ⟨_, m₁, log₁, log₂, hconnect, hstored⟩ := Proc.bind_eq_ok h
  have hreached : m₁.unreachable = false ∧ m₁.pendingFailures = 0 := by
    unfold connect at hconnect
    dsimp only at hconnect
    split at hconnect
    · cases hconnect
    · next hr =>
      split at hconnect
      · next hp =>
        cases hconnect
        exact ⟨by simpa using hr, hp⟩
      · cases hconnect
  rw [storeReached, Proc.get_bind_apply, Records.store] at hstored
  split at hstored
  · cases hstored
  · cases hstored
    exact ⟨hreached.1, hreached.2, Records.lookup?_insert_self r m₁.records⟩

/-- A save writes the records or leaves the file alone, and does not change them. -/
theorem SealedToken.save_cases (k : Nat) (t : SealedToken) :
    ∃ drive, save k t = ⟨.ok (), { t with drive := drive }, []⟩ ∨
      save k t = ⟨.error .storage, { t with drive := drive }, []⟩ := by
  unfold save
  dsimp only
  split
  · exact ⟨_, .inl rfl⟩
  · exact ⟨_, .inr rfl⟩

/-- A token in a file that took a record keeps it. -/
theorem SealedToken.store_eq_ok {r : Record} {k : Nat} {t t' : SealedToken} {log : List LogRecord}
    (h : store r k t = ⟨.ok (), t', log⟩) : t'.records.lookup? r.identifier = some r := by
  rw [store, Proc.get_bind_apply] at h
  cases hr : t.records.lookup? r.identifier with
  | some kept =>
    rw [hr] at h
    cases h
  | none =>
    rw [hr] at h
    dsimp only at h
    rw [commit, Proc.modify_bind_apply] at h
    obtain ⟨drive, hsave | hsave⟩ := save_cases k { t with records := Records.insert r t.records }
    · rw [Proc.tryCatch_apply_ok hsave] at h
      cases h
      exact Records.lookup?_insert_self r t.records
    · rw [Proc.tryCatch_apply_error hsave, Proc.modify_bind_apply] at h
      cases h

/-! ## Reads -/

namespace Token

/-- What reads of a token under a policy come to: a blob, or a cause for which the token is passed
over. -/
def Yields (retry : RetryPolicy) (tag identifier : Bytes) (token : Token) :
    Option IndexedBlob → Prop
  | some b => ∀ k, (retry.run token.id (read tag identifier) k token).outcome = .ok b
  | none => ∀ k, ∃ e, e.meansAbsent = true ∧
      (retry.run token.id (read tag identifier) k token).outcome = .error e

/-- A token yields one thing. -/
theorem Yields.unique {retry : RetryPolicy} {tag identifier : Bytes} {token : Token}
    {b b' : IndexedBlob} (h : token.Yields retry tag identifier (some b))
    (h' : token.Yields retry tag identifier (some b')) : b = b' := by
  cases (h 0).symm.trans (h' 0)
  rfl

theorem dispatch_sealed {α : Type} (onMemory : Proc MemoryToken TokenError α)
    (onSealed : Proc SealedToken TokenError α) (k : Nat) (t : SealedToken) :
    dispatch onMemory onSealed k (sealed t)
      = ⟨(onSealed k t).outcome, sealed (onSealed k t).state, (onSealed k t).log⟩ := rfl

/-- A call to a token returns a value if the call to its kind does. -/
theorem dispatch_eq_ok {α : Type} {onMemory : Proc MemoryToken TokenError α}
    {onSealed : Proc SealedToken TokenError α} {k : Nat} {token token' : Token} {a : α}
    {log : List LogRecord} (h : dispatch onMemory onSealed k token = ⟨.ok a, token', log⟩) :
    (∃ m m', token' = memory m' ∧ onMemory k m = ⟨.ok a, m', log⟩) ∨
      ∃ t t', token' = sealed t' ∧ onSealed k t = ⟨.ok a, t', log⟩ := by
  cases token with
  | memory m =>
    obtain ⟨houtcome, hstate, hlog⟩ := Run.mk.inj h
    exact .inl ⟨m, _, hstate.symm, by rw [← houtcome, ← hlog]⟩
  | sealed t =>
    obtain ⟨houtcome, hstate, hlog⟩ := Run.mk.inj h
    exact .inr ⟨t, _, hstate.symm, by rw [← houtcome, ← hlog]⟩
  | failing id cause => cases h

/-- A record that was stored at once is read at once. -/
theorem read_of_store {r : Record} {k : Nat} {token token' : Token} {log : List LogRecord}
    (h : store r k token = ⟨.ok (), token', log⟩) (k' : Nat) :
    ∃ token'' log', read r.tag r.identifier k' token'
      = ⟨.ok ⟨r.index, r.blob⟩, token'', log'⟩ := by
  have hget : ∀ rs : Records, rs.lookup? r.identifier = some r →
      rs.get r.tag r.identifier = .ok ⟨r.index, r.blob⟩ := by
    intro rs hlookup
    rw [Records.get, hlookup]
    exact if_pos rfl
  obtain ⟨m, m', rfl, hstore⟩ | ⟨t, t', rfl, hstore⟩ := dispatch_eq_ok h
  · obtain ⟨hr, hp, hkept⟩ := MemoryToken.store_eq_ok hstore
    have hread : MemoryToken.read r.tag r.identifier k' m'
        = ⟨.ok ⟨r.index, r.blob⟩, m'.settled, []⟩ := by
      refine MemoryToken.connect_bind_apply hr hp ?_
      rw [MemoryToken.readReached_eq, MemoryToken.settled, hget _ hkept]
    rw [read, dispatch_memory, hread]
    exact ⟨_, _, rfl⟩
  · have hread : SealedToken.read r.tag r.identifier k' t'
        = ⟨.ok ⟨r.index, r.blob⟩, t', []⟩ := by
      rw [SealedToken.read, Proc.get_bind_apply, hget _ (SealedToken.store_eq_ok hstore)]
      rfl
    rw [read, dispatch_sealed, hread]
    exact ⟨_, _, rfl⟩

/-- **What was stored is what is yielded.** -/
theorem yields_of_store {retry : RetryPolicy} {r : Record} {k : Nat} {token token' : Token}
    {log : List LogRecord}
    (h : retry.run token.id (store r) k token = ⟨.ok (), token', log⟩) :
    token'.Yields retry r.tag r.identifier (some ⟨r.index, r.blob⟩) := by
  obtain ⟨token₀, log₀, hstore⟩ := RetryPolicy.attempts_eq_ok h
  intro k'
  obtain ⟨token'', log', hread⟩ := read_of_store hstore k'
  obtain ⟨log'', hrun⟩ := RetryPolicy.attempts_final hread trivial token'.id retry.retries
    retry.retries
  exact congrArg Run.outcome hrun

end Token

/-! ## Slots -/

namespace Cards

variable {cards cards' : Cards} {tag identifier : Bytes} {slot : Nat}

/-- What the token in a slot yields. -/
def Yields (cards : Cards) (tag identifier : Bytes) (slot : Nat) (found : Option IndexedBlob) :
    Prop :=
  ∃ token, cards.tokens[slot]? = some token ∧ token.Yields cards.retry tag identifier found

/-- The cards with another token in a slot. -/
def put (cards : Cards) (slot : Nat) (token : Token) : Cards :=
  { cards with tokens := cards.tokens.set slot token }

@[simp] theorem put_retry (cards : Cards) (slot : Nat) (token : Token) :
    (cards.put slot token).retry = cards.retry := rfl

@[simp] theorem length_put (cards : Cards) (slot : Nat) (token : Token) :
    (cards.put slot token).tokens.length = cards.tokens.length := List.length_set

theorem getElem?_put_ne {slot j : Nat} (h : slot ≠ j) (token : Token) :
    (cards.put slot token).tokens[j]? = cards.tokens[j]? := List.getElem?_set_ne h

theorem getElem?_put_self {old : Token} (h : cards.tokens[slot]? = some old) (token : Token) :
    (cards.put slot token).tokens[slot]? = some token :=
  List.getElem?_set_self (List.getElem?_eq_some_iff.1 h).1

/-- Another slot yields what it did. -/
theorem yields_put_ne {slot j : Nat} (h : slot ≠ j) (token : Token) {found : Option IndexedBlob} :
    (cards.put slot token).Yields tag identifier j found ↔ cards.Yields tag identifier j found := by
  unfold Yields
  rw [getElem?_put_ne h, put_retry]

/-- The slot yields what the token in it does. -/
theorem yields_put_self {token : Token} {found : Option IndexedBlob}
    (hslot : slot < cards.tokens.length) (h : token.Yields cards.retry tag identifier found) :
    (cards.put slot token).Yields tag identifier slot found :=
  ⟨token, getElem?_put_self (List.getElem?_eq_getElem hslot) token, h⟩

theorem Yields.unique {b b' : IndexedBlob} (h : cards.Yields tag identifier slot (some b))
    (h' : cards.Yields tag identifier slot (some b')) : b = b' := by
  obtain ⟨token, hslot, hyields⟩ := h
  obtain ⟨token', hslot', hyields'⟩ := h'
  cases hslot.symm.trans hslot'
  exact hyields.unique hyields'

/-- A call that returns a value was made to the token in the slot. -/
theorem call_eq_ok {α : Type} {p : Proc Token TokenError α} {k : Nat} {a : α}
    {log : List LogRecord} (h : call slot p k cards = ⟨.ok a, cards', log⟩) :
    ∃ token token', cards.tokens[slot]? = some token ∧ cards' = cards.put slot token' ∧
      cards.retry.run token.id p k token = ⟨.ok a, token', log⟩ := by
  unfold call at h
  split at h
  · cases h
  · next token hslot =>
    obtain ⟨houtcome, hstate, hlog⟩ := Run.mk.inj h
    exact ⟨token, _, hslot, hstate.symm, by rw [← houtcome, ← hlog]⟩

/-- A store that went through changes its slot, which yields the blob from then on. -/
theorem yields_of_store {r : Record} {k : Nat} {log : List LogRecord}
    (h : store slot r k cards = ⟨.ok (), cards', log⟩) :
    ∃ token, cards' = cards.put slot token ∧
      cards'.Yields r.tag r.identifier slot (some ⟨r.index, r.blob⟩) := by
  obtain ⟨_, cards₁, log₁, log₂, hcall, hnote⟩ := Proc.bind_eq_ok h
  have hsame : cards₁ = cards' := by
    cases hnote
    rfl
  obtain ⟨token, token', hslot, rfl, hrun⟩ := call_eq_ok hcall
  rw [← hsame]
  exact ⟨token', rfl, token', getElem?_put_self hslot token', Token.yields_of_store hrun⟩

/-- A call changes its slot alone. -/
theorem call_put {α : Type} {token : Token} (hslot : cards.tokens[slot]? = some token)
    (p : Proc Token TokenError α) (k : Nat) :
    call slot p k cards = ⟨(cards.retry.run token.id p k token).outcome,
      cards.put slot (cards.retry.run token.id p k token).state,
      (cards.retry.run token.id p k token).log⟩ := call_apply hslot rfl

/-- What is yielded is read. -/
theorem read_yields {found : Option IndexedBlob} (h : cards.Yields tag identifier slot found)
    (k : Nat) : ∃ token log, match found with
      | some b => read slot tag identifier k cards = ⟨.ok b, cards.put slot token, log⟩
      | none => ∃ e, e.meansAbsent = true ∧
          read slot tag identifier k cards = ⟨.error e, cards.put slot token, log⟩ := by
  obtain ⟨token, hslot, hyields⟩ := h
  have hread : read slot tag identifier k cards = ⟨_, _, _⟩ := call_put hslot _ k
  cases found with
  | some b =>
    rw [hyields k] at hread
    exact ⟨_, _, hread⟩
  | none =>
    obtain ⟨e, habsent, he⟩ := hyields k
    rw [he] at hread
    exact ⟨_, _, e, habsent, hread⟩

/-- What is read is yielded. -/
theorem yields_of_read {found : Option IndexedBlob} {token : Token}
    (hslot : cards.tokens[slot]? = some token) (h : ∀ k, match found with
      | some b => (read slot tag identifier k cards).outcome = .ok b
      | none => ∃ e, e.meansAbsent = true ∧
          (read slot tag identifier k cards).outcome = .error e) :
    cards.Yields tag identifier slot found := by
  have hread : ∀ k, (read slot tag identifier k cards).outcome
      = (cards.retry.run token.id (Token.read tag identifier) k token).outcome :=
    fun k => congrArg Run.outcome (call_put hslot _ k)
  refine ⟨token, hslot, ?_⟩
  cases found with
  | some b => exact fun k => (hread k).symm.trans (h k)
  | none =>
    intro k
    obtain ⟨e, habsent, he⟩ := h k
    exact ⟨e, habsent, (hread k).symm.trans he⟩

end Cards

end ThresholdKeys
