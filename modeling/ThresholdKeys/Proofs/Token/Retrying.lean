import ThresholdKeys.Proofs.Token.Calls

/-!
# Repeated calls take effect once

Tokens in memory whose calls fail now and then, or always, are called through slots, in any order.
`Call.repeated` says what a call has to come to: the call without failures, made once, if the
failures are over before the repetitions are, and a communication failure without effect otherwise.
Every call of every run comes to that, in its slot and in no other
(`perform_takes_effect_once`), and a permanent failure ends the repetitions.
-/

namespace ThresholdKeys

/-- Tokens in memory in the slots of a ceremony. -/
def Cards.ofMemory (tokens : List MemoryToken) (retry : RetryPolicy) : Cards :=
  ⟨tokens.map .memory, retry⟩

/-- Makes calls to slots, one after the other, whatever they come to. -/
def Cards.perform (k : Nat) : List (Nat × Call) → Cards →
    List (Outcome TokenError Answer) × Cards
  | [], cards => ([], cards)
  | (slot, call) :: rest, cards =>
    let run := call.onCards slot k cards
    let (outcomes, cards) := perform k rest run.state
    (run.outcome :: outcomes, cards)

/-- What a call to a token comes to that is repeated up to `retries` times. -/
def Call.repeated (retries k : Nat) (call : Call) (m : MemoryToken) :
    Outcome TokenError Answer × MemoryToken :=
  if m.unreachable then
    (.error .communication, { m with calls := m.calls + (retries + 1) })
  else if m.pendingFailures ≤ retries then
    let direct := call.onMemory k { m with pendingFailures := 0 }
    (direct.outcome, { m with
      records := direct.state.records
      pendingFailures := 0
      calls := m.calls + (m.pendingFailures + 1) })
  else
    (.error .communication, { m with
      pendingFailures := m.pendingFailures - (retries + 1)
      calls := m.calls + (retries + 1) })

/-- The same of calls to slots, one after the other. -/
def repeatedAll (retries k : Nat) : List (Nat × Call) → List MemoryToken →
    List (Outcome TokenError Answer) × List MemoryToken
  | [], tokens => ([], tokens)
  | (slot, call) :: rest, tokens =>
    match tokens[slot]? with
    | none =>
      let (outcomes, tokens) := repeatedAll retries k rest tokens
      (.error (.unknownSlot slot) :: outcomes, tokens)
    | some m =>
      let (outcome, m) := call.repeated retries k m
      let (outcomes, tokens) := repeatedAll retries k rest (tokens.set slot m)
      (outcome :: outcomes, tokens)

/-! ## One call -/

theorem Call.repeated_eq (retries k : Nat) (call : Call) (m : MemoryToken) :
    call.repeated retries k m
      = m.repeated retries (call.effect m.records).1 (call.effect m.records).2 := by
  unfold repeated MemoryToken.repeated
  split
  · rfl
  · next hr =>
    have hreachable : m.unreachable = false := by simpa using hr
    have hdirect := call.onMemory_apply (m := { m with pendingFailures := 0 }) hreachable rfl k
    split
    · rw [hdirect]
      rfl
    · rfl

theorem Cards.set_ofMemory (tokens : List MemoryToken) (retry : RetryPolicy) (slot : Nat)
    (m : MemoryToken) : ofMemory (tokens.set slot m) retry
      = { ofMemory tokens retry with
          tokens := (ofMemory tokens retry).tokens.set slot (.memory m) } := by
  rw [ofMemory, List.map_set]
  rfl

/-- A permanent failure is final: there is no second call. -/
theorem RetryPolicy.attempts_permanent {σ α : Type} {call : Proc σ TokenError α} {k : Nat} {s : σ}
    {e : TokenError} (h : (call k s).outcome = .error e) (he : e.isTransient = false)
    (label : String) (retries left : Nat) :
    attempts label retries call left k s = call k s := by
  have hcall : call k s = ⟨.error e, (call k s).state, (call k s).log⟩ := by rw [← h]
  cases left with
  | zero => rfl
  | succ left =>
    rw [attempts, Proc.bind_apply_ok (Proc.attempt_apply_error hcall)]
    simp only [he]
    rw [if_neg Bool.false_ne_true, Proc.throw_apply, List.append_nil, ← hcall]

/-! ## Runs -/

theorem Cards.perform_ofMemory (retry : RetryPolicy) (k : Nat) (calls : List (Nat × Call))
    (tokens : List MemoryToken) :
    perform k calls (ofMemory tokens retry)
      = ((repeatedAll retry.retries k calls tokens).1,
        ofMemory (repeatedAll retry.retries k calls tokens).2 retry) := by
  induction calls generalizing tokens with
  | nil => rfl
  | cons head rest ih =>
    obtain ⟨slot, call⟩ := head
    have hget : (ofMemory tokens retry).tokens[slot]? = tokens[slot]?.map .memory :=
      List.getElem?_map ..
    rw [perform, repeatedAll]
    cases hslot : tokens[slot]? with
    | none =>
      rw [hslot] at hget
      rw [call.onCards_unknownSlot hget k]
      dsimp only
      rw [ih tokens]
    | some m =>
      rw [hslot] at hget
      obtain ⟨log, hcall⟩ := call.onCards_apply hget k
      rw [hcall]
      dsimp only
      rw [← set_ofMemory, ih, call.repeated_eq]
      rfl

/-- **Repeated calls take effect once.** Whatever calls have been made before, each comes to what it
has to come to and changes no other slot; and the permanent failures are not repeated. -/
theorem perform_takes_effect_once (tokens : List MemoryToken) (retry : RetryPolicy) (k : Nat)
    (calls : List (Nat × Call)) :
    Cards.perform k calls (.ofMemory tokens retry)
        = ((repeatedAll retry.retries k calls tokens).1,
          .ofMemory (repeatedAll retry.retries k calls tokens).2 retry) ∧
      ∀ e ∈ [TokenError.notFound, .alreadyExists, .wrongTag],
        ∀ (α : Type) (call : Proc Token TokenError α) (label : String) (token : Token),
          (call k token).outcome = .error e → retry.run label call k token = call k token := by
  refine ⟨Cards.perform_ofMemory retry k calls tokens, ?_⟩
  intro e he α call label token hcall
  have hpermanent : e.isTransient = false := by
    simp only [List.mem_cons, List.not_mem_nil, or_false] at he
    rcases he with rfl | rfl | rfl <;> rfl
  exact RetryPolicy.attempts_permanent hcall hpermanent label retry.retries retry.retries

/-- A token that fails two calls, one that fails three, and one that fails all of them. -/
def flakyTokens : List MemoryToken := [.empty "a" 2, .empty "b" 3, .outOfReach "c"]

/-- A share to be stored. -/
def flakyShare : Record := ⟨[2], [1], 1, [7, 3, 5]⟩

/-- The share is stored in each slot and again in the first one; what was not stored is read. -/
def flakyCalls : List (Nat × Call) :=
  [(0, .store flakyShare), (1, .store flakyShare), (2, .store flakyShare), (0, .store flakyShare),
    (1, .read [1] [2]), (5, .read [1] [2])]

theorem perform_takes_effect_once_flaky :
    Cards.perform 0 flakyCalls (.ofMemory flakyTokens (.immediate 2))
        = ([.ok .stored, .error .communication, .error .communication, .error .alreadyExists,
            .error .notFound, .error (.unknownSlot 5)],
          .ofMemory [⟨"a", [flakyShare], 0, false, 4⟩, ⟨"b", [], 0, false, 4⟩,
            ⟨"c", [], 0, true, 3⟩] (.immediate 2)) ∧
      (RetryPolicy.immediate 2).run "a" (Token.store flakyShare) 0
          (.memory ⟨"a", [flakyShare], 0, false, 3⟩)
        = Token.store flakyShare 0 (.memory ⟨"a", [flakyShare], 0, false, 3⟩) := by
  obtain ⟨hrun, hpermanent⟩ :=
    perform_takes_effect_once flakyTokens (.immediate 2) 0 flakyCalls
  have hcome : repeatedAll (RetryPolicy.immediate 2).retries 0 flakyCalls flakyTokens
      = ([.ok .stored, .error .communication, .error .communication, .error .alreadyExists,
          .error .notFound, .error (.unknownSlot 5)],
        [⟨"a", [flakyShare], 0, false, 4⟩, ⟨"b", [], 0, false, 4⟩, ⟨"c", [], 0, true, 3⟩]) := by
    decide +kernel
  rw [hcome] at hrun
  exact ⟨hrun, hpermanent .alreadyExists (by decide) Unit (Token.store flakyShare) "a" _ rfl⟩

end ThresholdKeys
