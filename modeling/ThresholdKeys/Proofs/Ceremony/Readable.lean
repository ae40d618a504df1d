import ThresholdKeys.Proofs.Ceremony.Collecting
import ThresholdKeys.Proofs.Endings
import ThresholdKeys.Proofs.Token.Retrying

/-!
# Collecting from tokens in any state

Tokens in memory may hold anything, fail now and then or not be reached at all. The *readable* blobs
are those that a read, repeated as the policy says, comes to. Collecting succeeds exactly if their
indices are different and those of parties, and then each blob is in the place of its index, and
nowhere else (`collectAll_ofMemory`). That depends on the blobs and not on the slots that they come
from, so the tokens may stand in any order. The records on them do not change, whatever the outcome.
-/

namespace ThresholdKeys

variable {t : Threshold} {tag identifier : Bytes} {retry : RetryPolicy}

/-! ## Readable blobs -/

/-- What a token in memory hands out when a read is repeated up to `retries` times: nothing if it is
out of reach, or if it keeps nothing under the identifier and with the tag. -/
def MemoryToken.yield? (retries : Nat) (tag identifier : Bytes) (m : MemoryToken) :
    Option IndexedBlob :=
  if m.unreachable = true ∨ retries < m.pendingFailures then none
  else (m.records.get tag identifier).value?

/-- The blobs that are read from tokens, in the order of the slots. -/
def readable (retries : Nat) (tag identifier : Bytes) (tokens : List MemoryToken) :
    List IndexedBlob :=
  tokens.filterMap (MemoryToken.yield? retries tag identifier)

theorem Records.get_cases (rs : Records) (tag identifier : Bytes) :
    (∃ b, rs.get tag identifier = .ok b) ∨
      ∃ e, rs.get tag identifier = .error e ∧ e.meansAbsent = true ∧ e.isTransient = false := by
  unfold get
  split
  · exact .inr ⟨_, rfl, rfl, rfl⟩
  · split
    · exact .inl ⟨_, rfl⟩
    · exact .inr ⟨_, rfl, rfl, rfl⟩

/-- A read comes to a blob, or to a cause for which the token is passed over. -/
def ComesTo (found : Option IndexedBlob) (o : Outcome TokenError IndexedBlob) : Prop :=
  match found with
  | some b => o = .ok b
  | none => ∃ e, e.meansAbsent = true ∧ o = .error e

theorem ComesTo.unique {found found' : Option IndexedBlob} {o : Outcome TokenError IndexedBlob}
    (h : ComesTo found o) (h' : ComesTo found' o) : found = found' := by
  cases found with
  | some b =>
    obtain rfl : o = .ok b := h
    cases found' with
    | some b' =>
      cases h'
      rfl
    | none =>
      obtain ⟨e, -, he⟩ := h'
      cases he
  | none =>
    obtain ⟨e, -, rfl⟩ := h
    cases found' with
    | some b' => cases h'
    | none => rfl

/-- A repeated read comes to what the token hands out, and does not touch the records. -/
theorem MemoryToken.repeated_get (retries : Nat) (tag identifier : Bytes) (m : MemoryToken) :
    ComesTo (m.yield? retries tag identifier)
        (m.repeated retries (m.records.get tag identifier) m.records).1 ∧
      (m.repeated retries (m.records.get tag identifier) m.records).2.records = m.records := by
  unfold repeated yield?
  by_cases hr : m.unreachable = true
  · rw [if_pos hr, if_pos (.inl hr)]
    exact ⟨⟨_, rfl, rfl⟩, rfl⟩
  · rw [if_neg hr]
    by_cases hp : m.pendingFailures ≤ retries
    · rw [if_pos hp, if_neg (not_or.2 ⟨hr, Nat.not_lt.2 hp⟩)]
      refine ⟨?_, rfl⟩
      obtain ⟨b, hget⟩ | ⟨e, hget, habsent, -⟩ := m.records.get_cases tag identifier
      · rw [hget]
        rfl
      · rw [hget]
        exact ⟨e, habsent, rfl⟩
    · rw [if_neg hp, if_pos (.inr (Nat.lt_of_not_le hp))]
      exact ⟨⟨_, rfl, rfl⟩, rfl⟩

namespace Cards

variable {tokens : List MemoryToken} {slot : Nat} {m : MemoryToken}

/-- Reading a slot comes to what the token in it hands out, and the token keeps its records. -/
theorem read_ofMemory (hslot : tokens[slot]? = some m) (tag identifier : Bytes)
    (retry : RetryPolicy) (k : Nat) :
    ∃ o m' log, ComesTo (m.yield? retry.retries tag identifier) o ∧ m'.records = m.records ∧
      read slot tag identifier k (ofMemory tokens retry)
        = ⟨o, ofMemory (tokens.set slot m') retry, log⟩ := by
  have hget : (ofMemory tokens retry).tokens[slot]? = some (.memory m) := by
    simp [ofMemory, hslot]
  have hbody : MemoryToken.readReached tag identifier k m.settled
      = ⟨m.records.get tag identifier, { m.settled with records := m.records }, []⟩ :=
    MemoryToken.readReached_eq tag identifier k m.settled
  have hfinal : (m.records.get tag identifier).IsFinal := by
    obtain ⟨b, hb⟩ | ⟨e, he, -, hpermanent⟩ := m.records.get_cases tag identifier
    · rw [hb]
      trivial
    · rw [he]
      exact hpermanent
  obtain ⟨log, hread⟩ : ∃ log, read slot tag identifier k (ofMemory tokens retry) = ⟨_, _, log⟩ :=
    call_repeated hget hbody hfinal
  obtain ⟨hcomes, hrecords⟩ := m.repeated_get retry.retries tag identifier
  refine ⟨_, _, log, hcomes, hrecords, ?_⟩
  rw [set_ofMemory]
  exact hread

/-- A slot yields what the token in it hands out. -/
theorem yields_ofMemory_iff {found : Option IndexedBlob} :
    (ofMemory tokens retry).Yields tag identifier slot found ↔
      ∃ m, tokens[slot]? = some m ∧ m.yield? retry.retries tag identifier = found := by
  constructor
  · intro h
    obtain ⟨m, hslot⟩ : ∃ m, tokens[slot]? = some m := by
      obtain ⟨token, htoken, -⟩ := h
      obtain ⟨m, hslot, -⟩ := Option.map_eq_some_iff.1 ((List.getElem?_map ..).symm.trans htoken)
      exact ⟨m, hslot⟩
    obtain ⟨o, m', log, hcomes, -, hread⟩ := read_ofMemory hslot tag identifier retry 0
    obtain ⟨token, log', hyield⟩ := read_yields h 0
    refine ⟨m, hslot, hcomes.unique ?_⟩
    cases found with
    | some b => exact (congrArg Run.outcome hread).symm.trans (congrArg Run.outcome hyield)
    | none =>
      obtain ⟨e, habsent, hyield⟩ := hyield
      exact ⟨e, habsent, (congrArg Run.outcome hread).symm.trans (congrArg Run.outcome hyield)⟩
  · rintro ⟨m, hslot, rfl⟩
    have htoken : (ofMemory tokens retry).tokens[slot]? = some (.memory m) := by
      simp [ofMemory, hslot]
    refine yields_of_read htoken fun k => ?_
    obtain ⟨o, m', log, hcomes, -, hread⟩ := read_ofMemory hslot tag identifier retry k
    have hfound : ComesTo (m.yield? retry.retries tag identifier)
        (read slot tag identifier k (ofMemory tokens retry)).outcome := by
      rw [hread]
      exact hcomes
    cases hyield : m.yield? retry.retries tag identifier with
    | some b =>
      rw [hyield] at hfound
      exact hfound
    | none =>
      rw [hyield] at hfound
      exact hfound

end Cards

/-- The readable blobs are those that some slot yields. -/
theorem mem_readable_iff (retry : RetryPolicy) {tokens : List MemoryToken} {b : IndexedBlob} :
    b ∈ readable retry.retries tag identifier tokens ↔
      ∃ slot, (Cards.ofMemory tokens retry).Yields tag identifier slot (some b) := by
  simp only [readable, List.mem_filterMap, Cards.yields_ofMemory_iff]
  constructor
  · rintro ⟨m, hm, hyield⟩
    obtain ⟨slot, hslot⟩ := List.mem_iff_getElem?.1 hm
    exact ⟨slot, m, hslot, hyield⟩
  · rintro ⟨slot, m, hslot, hyield⟩
    exact ⟨m, List.mem_of_getElem? hslot, hyield⟩

/-! ## Records -/

namespace Cards

/-- The cards are tokens in memory that keep these records. -/
def HaveRecords (retry : RetryPolicy) (records : List Records) (cards : Cards) : Prop :=
  ∃ tokens, cards = ofMemory tokens retry ∧ tokens.map (·.records) = records

variable {records : List Records}

theorem keeps_read (slot : Nat) (tag identifier : Bytes) :
    Proc.Keeps (HaveRecords retry records) (read slot tag identifier) := by
  rintro k _ ⟨tokens, rfl, hrecords⟩
  cases hslot : tokens[slot]? with
  | none =>
    have hget : (ofMemory tokens retry).tokens[slot]? = none := by simp [ofMemory, hslot]
    rw [read, call, hget]
    exact ⟨tokens, rfl, hrecords⟩
  | some m =>
    obtain ⟨o, m', log, -, hm', hread⟩ := read_ofMemory hslot tag identifier retry k
    rw [hread]
    have hkept : (tokens.map (·.records))[slot]? = some m.records := by simp [hslot]
    obtain ⟨hlt, hm⟩ := List.getElem?_eq_some_iff.1 hkept
    refine ⟨_, rfl, hrecords ▸ ?_⟩
    rw [List.map_set, hm', ← hm, List.set_getElem_self]

end Cards

/-- The induction is on the slots that are left. -/
theorem keeps_collectFrom {records : List Records} (count slot : Nat)
    (found : List (Option IndexedBlob)) :
    Proc.Keeps (Cards.HaveRecords retry records)
      (collectFrom t tag identifier count slot found) := by
  induction count generalizing slot found with
  | zero => exact .pure found
  | succ count ih =>
    rw [collectFrom]
    refine (Cards.keeps_read slot tag identifier).attempt.bind fun read => ?_
    cases read with
    | error e =>
      dsimp only
      split
      · exact (Proc.Keeps.note _ _).bind fun _ => ih _ _
      · exact .throw _
    | ok b =>
      dsimp only
      split
      · exact .throw _
      · split
        · exact .lift _
        · exact .throw _
        · exact ih _ _

/-! ## Collecting -/

/-- Collecting from all slots comes to the places of the readable blobs, and no token's records
change. -/
theorem collectAll_filled (tag identifier : Bytes) (retry : RetryPolicy) (k : Nat)
    {tokens : List MemoryToken} (hlen : tokens.length ≤ t.parties) :
    (collectAll t tag identifier k (.ofMemory tokens retry)).state.HaveRecords retry
        (tokens.map (·.records)) ∧
      ∀ places, (collectAll t tag identifier k (.ofMemory tokens retry)).outcome = .ok places ↔
        Filled t (readable retry.retries tag identifier tokens) places := by
  have hcount : (Cards.ofMemory tokens retry).tokens.length = tokens.length := by
    simp [Cards.ofMemory]
  have hslots : ∀ i y, (tokens.map (MemoryToken.yield? retry.retries tag identifier))[i]? = some y →
      (Cards.ofMemory tokens retry).Yields tag identifier (0 + i) y := by
    intro i y hy
    rw [List.getElem?_map] at hy
    rw [Nat.zero_add, Cards.yields_ofMemory_iff]
    exact Option.map_eq_some_iff.1 hy
  have hpresent : present (tokens.map (MemoryToken.yield? retry.retries tag identifier))
      = readable retry.retries tag identifier tokens := List.filterMap_map
  have hiff := collectFrom_yields k _ (filled_start (t := t)) hslots
  rw [List.nil_append, hpresent, List.length_map] at hiff
  rw [collectAll, Proc.get_bind_apply, hcount, if_neg (by omega)]
  exact ⟨keeps_collectFrom _ _ _ k _ ⟨tokens, rfl, rfl⟩, hiff⟩

/-- **Collecting loses, duplicates and misplaces nothing**, and does not depend on the slots.

* It succeeds exactly if the readable blobs have different indices of parties.
* Then there is a place for each party, a blob stands in the place of its index if some slot yields
  it, and the blobs that are there are the readable ones in the order of their indices.
* The tokens keep their records.
* Tokens in another order come to the same places, or to none in both orders. -/
theorem collectAll_ofMemory (t : Threshold) (tag identifier : Bytes) (retry : RetryPolicy) (k : Nat)
    (tokens : List MemoryToken) (hlen : tokens.length ≤ t.parties) :
    ((∃ places, (collectAll t tag identifier k (.ofMemory tokens retry)).outcome = .ok places) ↔
        ((readable retry.retries tag identifier tokens).map (·.index)).Nodup ∧
          ∀ b ∈ readable retry.retries tag identifier tokens,
            1 ≤ b.index ∧ b.index ≤ t.parties) ∧
      (∀ places, (collectAll t tag identifier k (.ofMemory tokens retry)).outcome = .ok places →
        places.length = t.parties ∧
          (∀ i < t.parties, ∀ b, places[i]? = some (some b) ↔ b.index = i + 1 ∧
            ∃ slot, (Cards.ofMemory tokens retry).Yields tag identifier slot (some b)) ∧
          (present places).Perm (readable retry.retries tag identifier tokens) ∧
          (present places).Pairwise (·.index < ·.index)) ∧
      (∃ after, (collectAll t tag identifier k (.ofMemory tokens retry)).state
          = .ofMemory after retry ∧ after.map (·.records) = tokens.map (·.records)) ∧
      (∀ shuffled : List MemoryToken, shuffled.Perm tokens → ∀ places,
        (collectAll t tag identifier k (.ofMemory shuffled retry)).outcome = .ok places ↔
          (collectAll t tag identifier k (.ofMemory tokens retry)).outcome = .ok places) := by
  obtain ⟨⟨after, hstate, hafter⟩, hiff⟩ := collectAll_filled tag identifier retry k hlen
  refine ⟨?_, ?_, ⟨after, hstate, hafter⟩, ?_⟩
  · constructor
    · rintro ⟨places, hplaces⟩
      have h := (hiff places).1 hplaces
      exact ⟨h.nodup, fun b hb => isIndex_iff.1 (h.isIndex b hb)⟩
    · rintro ⟨hnodup, hindex⟩
      obtain ⟨places, h⟩ := Filled.exists_filled (fun b hb => isIndex_iff.2 (hindex b hb)) hnodup
      exact ⟨places, (hiff places).2 h⟩
  · intro places hplaces
    have h := (hiff places).1 hplaces
    refine ⟨h.length, fun i hi b => ?_, h.present_perm, h.present_increasing⟩
    rw [h.iff i hi b, mem_readable_iff retry, and_comm]
  · intro shuffled hshuffled places
    have hlen' : shuffled.length ≤ t.parties := hshuffled.length_eq ▸ hlen
    obtain ⟨-, hiff'⟩ := collectAll_filled tag identifier retry k hlen'
    rw [hiff, hiff']
    exact Filled.perm (hshuffled.filterMap _)

/-- Four tokens for five parties: the share of party four after two failures, a blob with another
tag, a token out of reach and the share of party one. -/
def mixedTokens : List MemoryToken :=
  [⟨"a", [⟨[2], [1], 4, [7]⟩], 2, false, 0⟩, ⟨"b", [⟨[2], [9], 4, [8]⟩], 0, false, 0⟩,
    ⟨"c", [⟨[2], [1], 3, [5]⟩], 0, true, 0⟩, ⟨"d", [⟨[2], [1], 1, [3]⟩], 0, false, 0⟩]

theorem collectAll_ofMemory_mixed :
    (∃ places, (collectAll ⟨5, 3, by decide, by decide⟩ [1] [2] 0
        (.ofMemory mixedTokens (.immediate 2))).outcome = .ok places ∧
      (present places).Perm [⟨4, [7]⟩, ⟨1, [3]⟩] ∧
      (present places).Pairwise (·.index < ·.index)) ∧
    ∀ places, (collectAll ⟨5, 3, by decide, by decide⟩ [1] [2] 0
        (.ofMemory mixedTokens.reverse (.immediate 2))).outcome = .ok places ↔
      (collectAll ⟨5, 3, by decide, by decide⟩ [1] [2] 0
        (.ofMemory mixedTokens (.immediate 2))).outcome = .ok places := by
  obtain ⟨hok, hplaces, -, hperm⟩ := collectAll_ofMemory ⟨5, 3, by decide, by decide⟩ [1] [2]
    (.immediate 2) 0 mixedTokens (by decide)
  have hreadable : readable (RetryPolicy.immediate 2).retries [1] [2] mixedTokens
      = [⟨4, [7]⟩, ⟨1, [3]⟩] := by decide
  rw [hreadable] at hok hplaces
  obtain ⟨places, hrun⟩ := hok.2 ⟨by decide, by decide⟩
  obtain ⟨-, -, hpresent, hincreasing⟩ := hplaces places hrun
  exact ⟨⟨places, hrun, hpresent, hincreasing⟩, hperm _ (List.reverse_perm _)⟩

end ThresholdKeys
