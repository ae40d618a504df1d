import ThresholdKeys.Proofs.Token.Calls

/-!
# Tokens in files across failed saves and reopening

A token in a file goes through calls, between which it may be dropped and opened again, and any of
its saves may fail. A token in memory beside it goes through the same calls but those whose save
failed (`Beside.call`). Both give the same answers and end with the same records, and these are
what a later opening reads back (`SealedToken.run_refines`).

The invariant is `Kept`: what stands at the path opens to the records in memory, or there are no
records and no file. `Call.onSealed_apply` says what a call does to records and drive.
-/

namespace ThresholdKeys

/-! ## Saving -/

namespace Drive

/-- Whether the next replacement of a file fails. -/
def refusing (d : Drive) : Bool := d.refusals.headD false || !d.inDirectory

/-- The nonce of the next save. -/
def nonce (d : Drive) : Bytes := (d.supply.take nonceLength).1

/-- The drive after a save, whether or not it failed, except for what stands at the path. -/
def spent (d : Drive) : Drive :=
  { d with refusals := d.refusals.tail, supply := (d.supply.take nonceLength).2 }

/-- A replacement, after octets were drawn for it. -/
theorem replace_drawn {d : Drive} (h : d.node ≠ .directory) (supply : Supply) (content : Bytes) :
    replace { d with supply := supply } content
      = if d.refusing then (false, { d with refusals := d.refusals.tail, supply := supply })
        else (true, ⟨.file content, d.inDirectory, d.refusals.tail, supply⟩) := by
  have hfree : (d.refusing || decide (d.node = .directory)) = d.refusing := by simp [h]
  show (if (d.refusing || decide (d.node = .directory)) = true then _ else _) = _
  rw [hfree]

end Drive

namespace SealedToken

/-- The token after its records were replaced and saved. -/
def saved (rs : Records) (t : SealedToken) : SealedToken :=
  { t with
    records := rs
    drive := { t.drive.spent with node := .file (fileContent t.key t.salt t.drive.nonce rs) } }

variable {t : SealedToken}

theorem save_apply (h : t.drive.node ≠ .directory) (k : Nat) :
    save k t = if t.drive.refusing then ⟨.error .storage, { t with drive := t.drive.spent }, []⟩
      else ⟨.ok (), saved t.records t, []⟩ := by
  unfold save
  dsimp only
  rw [Drive.replace_drawn h]
  by_cases hrefusing : t.drive.refusing
  · rw [if_pos hrefusing, if_pos hrefusing]
    rfl
  · rw [if_neg hrefusing, if_neg hrefusing]
    rfl

/-- A change that is not saved is undone. -/
theorem commit_apply {change undo : Records → Records} (h : t.drive.node ≠ .directory)
    (hundo : undo (change t.records) = t.records) (k : Nat) :
    commit change undo k t
      = if t.drive.refusing then ⟨.error .storage, { t with drive := t.drive.spent }, []⟩
        else ⟨.ok (), saved (change t.records) t, []⟩ := by
  have hsave := save_apply (t := { t with records := change t.records }) h k
  rw [commit, Proc.modify_bind_apply]
  by_cases hrefusing : t.drive.refusing
  · rw [if_pos hrefusing] at hsave ⊢
    rw [Proc.tryCatch_apply_error hsave, Proc.modify_bind_apply, Proc.throw_apply, hundo]
    rfl
  · rw [if_neg hrefusing] at hsave ⊢
    exact Proc.tryCatch_apply_ok hsave _

theorem commit_bind_pure {α : Type} {change undo : Records → Records}
    (h : t.drive.node ≠ .directory) (hundo : undo (change t.records) = t.records) (a : α)
    (k : Nat) :
    (do commit change undo; return a) k t
      = if t.drive.refusing then ⟨.error .storage, { t with drive := t.drive.spent }, []⟩
        else ⟨.ok a, saved (change t.records) t, []⟩ := by
  have hcommit := commit_apply h hundo k
  by_cases hrefusing : t.drive.refusing
  · rw [if_pos hrefusing] at hcommit ⊢
    exact Proc.bind_pure_apply hcommit _
  · rw [if_neg hrefusing] at hcommit ⊢
    exact Proc.bind_pure_apply hcommit _

end SealedToken

/-- **What a call to a token in a file does**: nothing to the file if the records stay the same, and
nothing to the records if the save fails. -/
theorem Call.onSealed_apply {t : SealedToken} (hsorted : t.records.Sorted)
    (hnode : t.drive.node ≠ .directory) (call : Call) (k : Nat) :
    call.onSealed k t
      = if (call.effect t.records).2 = t.records then ⟨(call.effect t.records).1, t, []⟩
        else if t.drive.refusing then ⟨.error .storage, { t with drive := t.drive.spent }, []⟩
        else ⟨(call.effect t.records).1, t.saved (call.effect t.records).2, []⟩ := by
  cases call with
  | store r =>
    rw [onSealed, SealedToken.store, bind_assoc, Proc.get_bind_apply, effect]
    cases hr : t.records.lookup? r.identifier with
    | some kept => exact (if_pos rfl).symm
    | none =>
      have hnew : Records.insert r t.records ≠ t.records := Records.insert_ne hr
      dsimp only
      rw [if_neg hnew]
      exact SealedToken.commit_bind_pure hnode (hsorted.erase_insert hr) _ k
  | read tag identifier =>
    rw [onSealed, SealedToken.read, bind_assoc, Proc.get_bind_apply, effect, Records.get]
    cases t.records.lookup? identifier with
    | none => exact (if_pos rfl).symm
    | some r =>
      by_cases htag : r.tag = tag
      · simp only [if_pos htag]
        exact (if_pos trivial).symm
      · simp only [if_neg htag]
        exact (if_pos trivial).symm
  | remove tag identifier =>
    rw [onSealed, SealedToken.remove, bind_assoc, Proc.get_bind_apply, effect]
    cases hr : t.records.lookup? identifier with
    | none => exact (if_pos rfl).symm
    | some r =>
      by_cases htag : r.tag = tag
      · have hgone : t.records.erase identifier ≠ t.records := Records.erase_ne hr
        simp only [if_pos htag, if_neg hgone, bind_assoc, pure_bind]
        exact SealedToken.commit_bind_pure hnode (hsorted.insert_erase hr) _ k
      · simp only [if_neg htag]
        exact (if_pos trivial).symm

/-! ## Opening what was saved -/

/-- What stands at the path are the records, sealed under a key that belongs to a salt; where
nothing was ever saved, nothing stands there. -/
def Drive.Holds (key salt : Bytes) (rs : Records) (d : Drive) : Prop :=
  (d.node = .absent ∧ rs = []) ∨
    ∃ nonce, nonce.length = nonceLength ∧
      d.node = .file (SealedToken.fileContent key salt nonce rs)

/-- The invariant of a token in a file: its file holds its records, and they can be encoded. -/
structure Kept (pin : Bytes) (t : SealedToken) : Prop where
  salt : t.salt.length = saltLength
  key : t.key = pinKey pin t.salt
  sorted : t.records.Sorted
  index : ∀ r ∈ t.records, r.index < 2 ^ 32
  size : t.records.toDer.length < Der.lengthLimit
  file : t.drive.Holds t.key t.salt t.records

namespace SealedToken

variable {pin : Bytes} {t : SealedToken}

/-- The records come back from the content of a file. -/
theorem readContent_fileContent {salt nonce : Bytes} {rs : Records} (key : Bytes)
    (hsalt : salt.length = saltLength) (hnonce : nonce.length = nonceLength)
    (hrs : Records.ofDer rs.toDer = .ok rs) :
    readContent key (fileContent key salt nonce rs) = .ok rs := by
  have hcontent : fileContent key salt nonce rs
      = salt ++ (nonce ++ sealBox key nonce rs.toDer) := List.append_assoc ..
  have hafter : (fileContent key salt nonce rs).drop saltLength
      = nonce ++ sealBox key nonce rs.toDer := by
    rw [hcontent, List.drop_left' hsalt]
  have hbox : (fileContent key salt nonce rs).drop (saltLength + nonceLength)
      = sealBox key nonce rs.toDer := by
    rw [← List.drop_drop, hafter, List.drop_left' hnonce]
  rw [readContent, hafter, List.take_left' hnonce, hbox, openBox?_seal]
  dsimp only
  rw [hrs, Outcome.mapError_ok]

/-- A new token keeps nothing yet. -/
theorem unlock_absent {drive : Drive} (hnode : drive.node = .absent) (id : String) (pin : Bytes) :
    ∃ t, unlock id pin drive = .ok t ∧ Kept pin t ∧ t.records = [] ∧
      t.drive.refusals = drive.refusals ∧ t.drive.inDirectory = drive.inDirectory := by
  have hempty : (Records.toDer []).length < Der.lengthLimit := by decide
  refine ⟨⟨id, [], pinKey pin (drive.supply.take saltLength).1, (drive.supply.take saltLength).1,
    { drive with supply := (drive.supply.take saltLength).2 }⟩, ?_, ?_, rfl, rfl, rfl⟩
  · rw [unlock, hnode]
  · exact ⟨Supply.length_take _ _, rfl, .nil, by simp, hempty, .inl ⟨hnode, rfl⟩⟩

theorem unlock_fileContent {drive : Drive} {salt nonce : Bytes} {rs : Records}
    (hsalt : salt.length = saltLength) (hnonce : nonce.length = nonceLength)
    (hrs : Records.ofDer rs.toDer = .ok rs) (id : String) (pin : Bytes)
    (hnode : drive.node = .file (fileContent (pinKey pin salt) salt nonce rs)) :
    unlock id pin drive = .ok ⟨id, rs, pinKey pin salt, salt, drive⟩ := by
  have hread := readContent_fileContent (pinKey pin salt) hsalt hnonce hrs
  have hlen : ¬ (fileContent (pinKey pin salt) salt nonce rs).length
      < saltLength + nonceLength := by
    rw [fileContent, List.length_append, List.length_append, hsalt, hnonce]
    omega
  have hfront : (fileContent (pinKey pin salt) salt nonce rs).take saltLength = salt := by
    rw [fileContent, List.append_assoc, List.take_left' hsalt]
  -- an empty file would be that of a new token
  generalize fileContent (pinKey pin salt) salt nonce rs = content at *
  cases content with
  | nil => exact absurd (by decide) hlen
  | cons octet rest =>
    rw [unlock, hnode]
    dsimp only
    rw [if_neg hlen, hfront, hread]
    rfl

/-- **What is kept comes back**, under any name of the token. -/
theorem unlock_kept (h : Kept pin t) (id : String) :
    ∃ t', unlock id pin t.drive = .ok t' ∧ Kept pin t' ∧ t'.records = t.records ∧
      t'.drive.refusals = t.drive.refusals ∧ t'.drive.inDirectory = t.drive.inDirectory := by
  rcases h.file with ⟨hnode, hnone⟩ | ⟨nonce, hnonce, hnode⟩
  · rw [hnone]
    exact unlock_absent hnode id pin
  · rw [h.key] at hnode
    have hread := h.sorted.ofDer_toDer h.index h.size
    refine ⟨_, unlock_fileContent h.salt hnonce hread id pin hnode, ?_, rfl, rfl, rfl⟩
    exact ⟨h.salt, rfl, h.sorted, h.index, h.size, .inr ⟨nonce, hnonce, hnode⟩⟩

end SealedToken

/-! ## Beside a token in memory -/

/-- What happens to a token in a file. -/
inductive Step where
  | call (call : Call)
  /-- The token is dropped and opened again. -/
  | reopen
  deriving DecidableEq, Repr

/-- What the steps come to: the answers to the calls, and the token. A token that does not open
again ends the run. -/
def SealedToken.run (pin : Bytes) (k : Nat) : List Step → SealedToken →
    Outcome TokenError (List (Outcome TokenError Answer) × SealedToken)
  | [], t => .ok ([], t)
  | .reopen :: rest, t => do
    let t ← unlock t.id pin t.drive
    run pin k rest t
  | .call call :: rest, t => do
    let called := call.onSealed k t
    let (answers, t) ← run pin k rest called.state
    return (called.outcome :: answers, t)

/-- A token in memory, beside a drive of which is known which saves fail. -/
structure Beside where
  token : MemoryToken
  refusals : List Bool
  inDirectory : Bool
  deriving DecidableEq

namespace Beside

/-- The call is made on the token in memory. If that changes its records and the save fails, then
the call is not made, and the answer says that the storage failed. -/
def call (k : Nat) (call : Call) (b : Beside) : Outcome TokenError Answer × Beside :=
  let direct := call.onMemory k b.token
  if direct.state.records = b.token.records then (direct.outcome, { b with token := direct.state })
  else if b.refusals.headD false || !b.inDirectory then
    (.error .storage, { b with refusals := b.refusals.tail })
  else (direct.outcome, { b with token := direct.state, refusals := b.refusals.tail })

/-- The answers to the calls, and what is left. Reopening changes nothing. -/
def run (k : Nat) : List Step → Beside → List (Outcome TokenError Answer) × Beside
  | [], b => ([], b)
  | .reopen :: rest, b => run k rest b
  | .call call :: rest, b =>
    let (answer, b) := b.call k call
    let (answers, b) := run k rest b
    (answer :: answers, b)

/-- The token in memory never fails and has the records of the one in the file, and it is known
which of the saves will fail. -/
structure Follows (b : Beside) (t : SealedToken) : Prop where
  reachable : b.token.unreachable = false
  pending : b.token.pendingFailures = 0
  records : b.token.records = t.records
  refusals : b.refusals = t.drive.refusals
  inDirectory : b.inDirectory = t.drive.inDirectory

variable {b : Beside} {t : SealedToken} {pin : Bytes}

theorem call_apply (h : b.Follows t) (call : Call) (k : Nat) :
    b.call k call
      = if (call.effect t.records).2 = t.records then ((call.effect t.records).1,
          { b with token := { b.token.settled with records := (call.effect t.records).2 } })
        else if t.drive.refusing then (.error .storage, { b with refusals := b.refusals.tail })
        else ((call.effect t.records).1, { b with
          token := { b.token.settled with records := (call.effect t.records).2 }
          refusals := b.refusals.tail }) := by
  rw [Beside.call, call.onMemory_apply h.reachable h.pending, h.records, h.refusals, h.inDirectory]
  rfl

end Beside

/-! ## One call -/

namespace Call

theorem effect_sorted {rs : Records} (h : rs.Sorted) (call : Call) :
    (call.effect rs).2.Sorted := by
  rcases call.effect_cases rs with ⟨o, heffect, -⟩ | ⟨r, -, -, heffect⟩ |
    ⟨identifier, r, -, -, heffect⟩
  · rw [heffect]
    exact h
  · rw [heffect]
    exact h.insert r
  · rw [heffect]
    exact h.erase identifier

theorem mem_effect {rs : Records} {call : Call} {r : Record} (h : r ∈ (call.effect rs).2) :
    r ∈ rs ∨ call = .store r := by
  rcases call.effect_cases rs with ⟨o, heffect, -⟩ | ⟨s, rfl, -, heffect⟩ | ⟨_, _, -, -, heffect⟩
  · rw [heffect] at h
    exact .inl h
  · rw [heffect] at h
    rcases Records.mem_insert h with rfl | h
    · exact .inr rfl
    · exact .inl h
  · rw [heffect] at h
    exact .inl (List.mem_of_mem_filter h)

theorem effect_ne_storage (rs : Records) (call : Call) :
    (call.effect rs).1 ≠ .error .storage := by
  rcases call.effect_cases rs with ⟨o, heffect, ho⟩ | ⟨_, -, -, heffect⟩ | ⟨_, _, -, -, heffect⟩
  · rw [heffect]
    exact ho
  · simp [heffect]
  · simp [heffect]

end Call

namespace Kept

variable {pin : Bytes} {t : SealedToken}

theorem node_ne (h : Kept pin t) : t.drive.node ≠ .directory := by
  intro hdirectory
  rcases h.file with ⟨hnode, -⟩ | ⟨_, -, hnode⟩
  · rw [hdirectory] at hnode
    cases hnode
  · rw [hdirectory] at hnode
    cases hnode

theorem spent (h : Kept pin t) : Kept pin { t with drive := t.drive.spent } :=
  ⟨h.salt, h.key, h.sorted, h.index, h.size, h.file⟩

theorem saved {rs : Records} (h : Kept pin t) (hsorted : rs.Sorted)
    (hindex : ∀ r ∈ rs, r.index < 2 ^ 32) (hsize : rs.toDer.length < Der.lengthLimit) :
    Kept pin (t.saved rs) :=
  ⟨h.salt, h.key, hsorted, hindex, hsize, .inr ⟨t.drive.nonce, Supply.length_take _ _, rfl⟩⟩

end Kept

namespace Beside

variable {b : Beside} {t : SealedToken} {pin : Bytes} {k : Nat}

/-- A call gets the same answer on both sides. -/
theorem call_follows (hkept : Kept pin t) (h : b.Follows t) {call : Call}
    (hindex : ∀ r, call = .store r → r.index < 2 ^ 32)
    (hsize : (b.call k call).2.token.records.toDer.length < Der.lengthLimit) :
    (call.onSealed k t).outcome = (b.call k call).1 ∧ Kept pin (call.onSealed k t).state ∧
      (b.call k call).2.Follows (call.onSealed k t).state := by
  rw [call.onSealed_apply hkept.sorted hkept.node_ne k]
  rw [call_apply h] at hsize ⊢
  by_cases hsame : (call.effect t.records).2 = t.records
  · rw [if_pos hsame, if_pos hsame]
    exact ⟨rfl, hkept, ⟨h.reachable, rfl, hsame, h.refusals, h.inDirectory⟩⟩
  · rw [if_neg hsame] at hsize ⊢
    rw [if_neg hsame]
    by_cases hrefusing : t.drive.refusing
    · -- the change was undone, and one refusal is used up on both sides
      rw [if_pos hrefusing, if_pos hrefusing]
      exact ⟨rfl, hkept.spent, ⟨h.reachable, h.pending, h.records,
        congrArg List.tail h.refusals, h.inDirectory⟩⟩
    · -- the file holds the new records
      rw [if_neg hrefusing] at hsize ⊢
      rw [if_neg hrefusing]
      have hindices : ∀ r ∈ (call.effect t.records).2, r.index < 2 ^ 32 := by
        intro r hr
        rcases Call.mem_effect hr with hr | hr
        · exact hkept.index r hr
        · exact hindex r hr
      refine ⟨rfl, hkept.saved (call.effect_sorted hkept.sorted) hindices hsize, ?_⟩
      exact ⟨h.reachable, rfl, rfl, congrArg List.tail h.refusals, h.inDirectory⟩

/-- The induction is on the steps that are left; the invariant is `Kept`, and `Follows` ties the
two sides together. -/
theorem run_follows (steps : List Step) (hkept : Kept pin t) (h : b.Follows t)
    (hindex : ∀ r, .call (.store r) ∈ steps → r.index < 2 ^ 32)
    (hsize : ∀ n, (b.run k (steps.take n)).2.token.records.toDer.length < Der.lengthLimit) :
    ∃ t', SealedToken.run pin k steps t = .ok ((b.run k steps).1, t') ∧ Kept pin t' ∧
      (b.run k steps).2.Follows t' := by
  induction steps generalizing b t with
  | nil => exact ⟨t, rfl, hkept, h⟩
  | cons step rest ih =>
    have hindex' : ∀ r, .call (.store r) ∈ rest → r.index < 2 ^ 32 :=
      fun r hr => hindex r (List.mem_cons_of_mem step hr)
    cases step with
    | reopen =>
      obtain ⟨t₁, hunlock, hkept₁, hrecords, hrefusals, hdirectory⟩ :=
        SealedToken.unlock_kept hkept t.id
      have h₁ : b.Follows t₁ := ⟨h.reachable, h.pending, h.records.trans hrecords.symm,
        h.refusals.trans hrefusals.symm, h.inDirectory.trans hdirectory.symm⟩
      obtain ⟨t', hrun, hkept', h'⟩ := ih hkept₁ h₁ hindex' fun n => hsize (n + 1)
      refine ⟨t', ?_, hkept', h'⟩
      rw [SealedToken.run, hunlock, Outcome.ok_bind, hrun]
      rfl
    | call call =>
      obtain ⟨hanswer, hkept₁, h₁⟩ := call_follows hkept h
        (fun r hr => hindex r (hr ▸ List.mem_cons_self)) (hsize 1)
      obtain ⟨t', hrun, hkept', h'⟩ := ih hkept₁ h₁ hindex' fun n => hsize (n + 1)
      refine ⟨t', ?_, hkept', h'⟩
      rw [SealedToken.run]
      dsimp only
      rw [hrun, Outcome.ok_bind, hanswer]
      rfl

end Beside

/-! ## Runs -/

/-- **A token in a file refines a token in memory.** From a path where nothing stands, every run of
calls and reopenings, whichever of its saves fail, gives the answers of a token in memory that goes
through the same calls but those whose save failed, and its records are read back whenever it is
opened again. A failed save changes neither the records nor what is read back.

Indices are numbers of 32 bits, and the encoding of all records is shorter than `2 ^ 64` octets. -/
theorem SealedToken.run_refines {drive : Drive} (hnew : drive.node = .absent) (id : String)
    (pin : Bytes) (k : Nat) {steps : List Step}
    (hindex : ∀ r, .call (.store r) ∈ steps → r.index < 2 ^ 32)
    (hsize : ∀ n, (Beside.run k (steps.take n) ⟨.empty id 0, drive.refusals, drive.inDirectory⟩
      ).2.token.records.toDer.length < Der.lengthLimit) :
    ∃ t₀ t, unlock id pin drive = .ok t₀ ∧
      run pin k steps t₀ = .ok
        ((Beside.run k steps ⟨.empty id 0, drive.refusals, drive.inDirectory⟩).1, t) ∧
      (Beside.run k steps ⟨.empty id 0, drive.refusals, drive.inDirectory⟩).2.token.records
        = t.records ∧
      SealedToken.records <$> unlock id pin t.drive = .ok t.records ∧
      ∀ call : Call, (call.onSealed k t).outcome = .error .storage →
        (call.onSealed k t).state.records = t.records ∧
          SealedToken.records <$> unlock id pin (call.onSealed k t).state.drive
            = .ok t.records := by
  have hreads : ∀ {t : SealedToken}, Kept pin t →
      SealedToken.records <$> unlock id pin t.drive = .ok t.records := by
    intro t hkept
    obtain ⟨t', hunlock, -, hrecords, -⟩ := unlock_kept hkept id
    rw [hunlock, Outcome.map_ok, hrecords]
  obtain ⟨t₀, hopen, hkept₀, hnone, hrefusals, hdirectory⟩ := unlock_absent hnew id pin
  have hfollows₀ : (⟨.empty id 0, drive.refusals, drive.inDirectory⟩ : Beside).Follows t₀ :=
    ⟨rfl, rfl, hnone.symm, hrefusals.symm, hdirectory.symm⟩
  obtain ⟨t, hrun, hkept, hfollows⟩ :=
    Beside.run_follows steps hkept₀ hfollows₀ hindex hsize
  refine ⟨t₀, t, hopen, hrun, hfollows.records, hreads hkept, ?_⟩
  intro call hstorage
  rw [call.onSealed_apply hkept.sorted hkept.node_ne k] at hstorage ⊢
  by_cases hsame : (call.effect t.records).2 = t.records
  · rw [if_pos hsame]
    exact ⟨rfl, hreads hkept⟩
  · rw [if_neg hsame] at hstorage ⊢
    by_cases hrefusing : t.drive.refusing
    · rw [if_pos hrefusing]
      exact ⟨rfl, hreads hkept.spent⟩
    · rw [if_neg hrefusing] at hstorage
      exact absurd hstorage (call.effect_ne_storage t.records)

/-- A path without a file, on a machine that refuses the second replacement. -/
def secondSaveFails : Drive := ⟨.absent, true, [false, true], ⟨UInt8.ofNat, 0⟩⟩

/-- Two shares are stored, the second one again after the token was opened again; then the first one
is removed. -/
def interruptedSteps : List Step :=
  [.call (.store ⟨[2], [1], 1, [7]⟩), .call (.store ⟨[3], [1], 2, [9]⟩), .reopen,
    .call (.read [1] [2]), .call (.read [1] [3]), .call (.store ⟨[3], [1], 2, [9]⟩),
    .call (.remove [1] [2]), .reopen, .call (.read [1] [2])]

theorem SealedToken.run_refines_interrupted :
    ∃ t₀ t, unlock "file" [1, 2, 3, 4] secondSaveFails = .ok t₀ ∧
      run [1, 2, 3, 4] 0 interruptedSteps t₀ = .ok ([.ok .stored, .error .storage,
        .ok (.blob ⟨1, [7]⟩), .error .notFound, .ok .stored, .ok (.removed true),
        .error .notFound], t) ∧
      t.records = [⟨[3], [1], 2, [9]⟩] ∧
      SealedToken.records <$> unlock "file" [1, 2, 3, 4] t.drive = .ok [⟨[3], [1], 2, [9]⟩] := by
  have hindex : ∀ r, .call (.store r) ∈ interruptedSteps → r.index < 2 ^ 32 := by
    intro r hr
    simp only [interruptedSteps, List.mem_cons, Step.call.injEq, Call.store.injEq, reduceCtorEq,
      List.not_mem_nil, or_false, false_or] at hr
    rcases hr with rfl | rfl | rfl <;> decide
  have hsize : ∀ n, (Beside.run 0 (interruptedSteps.take n) ⟨.empty "file" 0,
      secondSaveFails.refusals, secondSaveFails.inDirectory⟩).2.token.records.toDer.length
        < Der.lengthLimit := by
    intro n
    by_cases hn : n < 9
    · have hsmall : ∀ n < 9, (Beside.run 0 (interruptedSteps.take n) ⟨.empty "file" 0,
          secondSaveFails.refusals, secondSaveFails.inDirectory⟩).2.token.records.toDer.length
            < Der.lengthLimit := by decide +kernel
      exact hsmall n hn
    · rw [List.take_of_length_le (Nat.le_of_not_lt hn)]
      decide +kernel
  have hbeside : Beside.run 0 interruptedSteps ⟨.empty "file" 0, secondSaveFails.refusals,
        secondSaveFails.inDirectory⟩
      = ([.ok .stored, .error .storage, .ok (.blob ⟨1, [7]⟩), .error .notFound, .ok .stored,
          .ok (.removed true), .error .notFound],
        ⟨⟨"file", [⟨[3], [1], 2, [9]⟩], 0, false, 6⟩, [], true⟩) := by decide +kernel
  obtain ⟨t₀, t, hopen, hrun, hrecords, hread, -⟩ :=
    run_refines rfl "file" [1, 2, 3, 4] 0 hindex hsize
  rw [hbeside] at hrun hrecords
  have hleft : t.records = [⟨[3], [1], 2, [9]⟩] := hrecords.symm
  rw [hleft] at hread
  exact ⟨t₀, t, hopen, hrun, hleft, hread⟩

end ThresholdKeys
