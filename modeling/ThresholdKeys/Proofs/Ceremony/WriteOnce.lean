import ThresholdKeys.Ceremony.SigningKey
import ThresholdKeys.Proofs.Ceremony.Dealing
import ThresholdKeys.Proofs.Rsa.Moduli
import ThresholdKeys.Proofs.Token.Retrying

/-!
# A generation writes once

Tokens in memory, whatever they keep and however they fail, take part in the generation of an
election key or of a signing key. Nothing that a token keeps is changed. If the generation returns
a key, then each slot of a party gained one record; if a token fails it, then the slots before that
token did and no later token was called; and if it ends in any other way, no token was called at
all (`generate_writes_once`).

Stores come last: entropy is drawn and every computation that can be refused is over before the
first of them, and the forms of the shares and the public key cannot be refused
(`storeShares_ofMemory`, `ElectionKey.shareForm_shares`).
-/

namespace ThresholdKeys

/-! ## What a token gained -/

/-- A record was put under an identifier that was free, and nothing else was changed. -/
structure Gained (r : Record) (before after : Records) : Prop where
  free : before.lookup? r.identifier = none
  lookup : ∀ identifier, after.lookup? identifier
    = if r.identifier = identifier then some r else before.lookup? identifier
  count : after.length = before.length + 1

theorem Gained.insert {r : Record} {rs : Records} (h : rs.lookup? r.identifier = none) :
    Gained r rs (Records.insert r rs) :=
  ⟨h, Records.lookup?_insert r rs, Records.length_insert h⟩

/-- What was kept is still there. -/
theorem Gained.keeps {r s : Record} {before after : Records} (h : Gained r before after)
    {identifier : Bytes} (hs : before.lookup? identifier = some s) :
    after.lookup? identifier = some s := by
  have hne : r.identifier ≠ identifier := by
    rintro rfl
    rw [h.free] at hs
    cases hs
  rw [h.lookup, if_neg hne, hs]

section Slots

variable (tag identifier : Bytes) (retries k : Nat) (tokens tokens' : List MemoryToken)

/-- The token in a slot gained the record of the party. -/
def GainedAt (slot : Nat) : Prop :=
  ∃ (m m' : MemoryToken) (blob : Bytes), tokens[slot]? = some m ∧ tokens'[slot]? = some m' ∧
    Gained ⟨identifier, tag, slot + 1, blob⟩ m.records m'.records

/-- The token in a slot failed to store the record of the party, and its records are as they
were. -/
def RefusedAt (slot : Nat) (e : TokenError) : Prop :=
  ∃ (m m' : MemoryToken) (blob : Bytes), tokens[slot]? = some m ∧ tokens'[slot]? = some m' ∧
    m'.records = m.records ∧ (Call.store ⟨identifier, tag, slot + 1, blob⟩).repeated retries k m
      = (.error e, m')

/-- The slots from `first` on and before `stop` gained the records of their parties, and no token
was called in any other slot, except perhaps in the slot `stop`. -/
structure FilledUpTo (first stop : Nat) : Prop where
  gained : ∀ j, first ≤ j → j < stop → GainedAt tag identifier tokens tokens' j
  others : ∀ j, j < first ∨ stop < j → tokens'[j]? = tokens[j]?

/-- What a generation leaves on the tokens, depending on how it ended. -/
structure WrittenOnce (t : Threshold) (outcome : Outcome ProtocolError Bytes) : Prop where
  /-- Whatever was on a token is still there. -/
  kept : ∀ (slot : Nat) (m : MemoryToken), tokens[slot]? = some m →
    ∃ m' : MemoryToken, tokens'[slot]? = some m' ∧
      ∀ other r, m.records.lookup? other = some r → m'.records.lookup? other = some r
  /-- With a key every party has its record. -/
  returned : ∀ der, outcome = .ok der → FilledUpTo tag identifier tokens tokens' 0 t.parties ∧
    tokens'[t.parties]? = tokens[t.parties]?
  /-- When a token failed, the parties before it have theirs. -/
  refused : ∀ e, outcome = .error (.token e) → ∃ stop < t.parties,
    FilledUpTo tag identifier tokens tokens' 0 stop ∧
      RefusedAt tag identifier retries k tokens tokens' stop e
  /-- Otherwise no token was called: not when entropy ran out, nor for a refused computation. -/
  otherwise : (∀ der, outcome ≠ .ok der) → (∀ e, outcome ≠ .error (.token e)) → tokens' = tokens

end Slots

/-! ## Storing -/

theorem Cards.store_ofMemory {tokens : List MemoryToken} {slot : Nat} {m : MemoryToken}
    (hm : tokens[slot]? = some m) (retry : RetryPolicy) (r : Record) (k : Nat) :
    ∃ m' log, (store slot r k (.ofMemory tokens retry)
          = ⟨.ok (), .ofMemory (tokens.set slot m') retry, log⟩ ∧
        Gained r m.records m'.records) ∨
      ∃ e, store slot r k (.ofMemory tokens retry)
          = ⟨.error e, .ofMemory (tokens.set slot m') retry, log⟩ ∧
        m'.records = m.records ∧ (Call.store r).repeated retry.retries k m = (.error e, m') := by
  have hslot : (ofMemory tokens retry).tokens[slot]? = some (.memory m) := by
    rw [ofMemory, List.getElem?_map, hm]
    rfl
  obtain ⟨o, log, hstore, hanswer⟩ := store_repeated hslot r k
  have hcome : (Call.store r).repeated retry.retries k m
      = ((fun _ => Answer.stored) <$> (m.repeated retry.retries o
          ((Call.store r).effect m.records).2).1,
        (m.repeated retry.retries o ((Call.store r).effect m.records).2).2) := by
    rw [Call.repeated_eq, ← hanswer, MemoryToken.repeated_map]
  have hstore' : store slot r k (.ofMemory tokens retry)
      = ⟨(m.repeated retry.retries o ((Call.store r).effect m.records).2).1,
        .ofMemory (tokens.set slot
          (m.repeated retry.retries o ((Call.store r).effect m.records).2).2) retry, log⟩ := by
    rw [hstore, set_ofMemory]
    rfl
  clear hstore
  rcases MemoryToken.repeated_cases retry.retries o ((Call.store r).effect m.records).2 m with
    ⟨m', hrepeated, hrecords⟩ | hrepeated
  · rw [hrepeated] at hcome hstore'
    exact ⟨m', log, .inr ⟨_, hstore', hrecords, hcome⟩⟩
  · rw [hrepeated] at hcome hstore'
    cases hr : m.records.lookup? r.identifier with
    | none =>
      rw [Call.effect, hr] at hanswer hstore'
      obtain ⟨_, rfl, -⟩ := Outcome.map_eq_ok.1 hanswer
      exact ⟨_, log, .inl ⟨hstore', .insert hr⟩⟩
    | some kept =>
      rw [Call.effect, hr] at hanswer hcome hstore'
      obtain rfl := Outcome.map_eq_error.1 hanswer
      exact ⟨_, log, .inr ⟨_, hstore', rfl, hcome⟩⟩

section Filling

variable {tag identifier : Bytes} {retries k slot stop : Nat} {tokens tokens' : List MemoryToken}
  {m m' : MemoryToken}

/-- The token in the first slot gained a record, and so did those in the others. -/
theorem FilledUpTo.cons {blob : Bytes} (hm : tokens[slot]? = some m) (hstop : slot < stop)
    (hgained : Gained ⟨identifier, tag, slot + 1, blob⟩ m.records m'.records)
    (h : FilledUpTo tag identifier (tokens.set slot m') tokens' (slot + 1) stop) :
    FilledUpTo tag identifier tokens tokens' slot stop := by
  have hlt : slot < tokens.length := (List.getElem?_eq_some_iff.1 hm).1
  refine ⟨?_, ?_⟩
  · intro j hj hlast
    rcases Nat.eq_or_lt_of_le hj with rfl | hj
    · have hm' : tokens'[slot]? = some m' := by
        rw [h.others slot (.inl (Nat.lt_succ_self slot)), List.getElem?_set_self hlt]
      exact ⟨m, m', blob, hm, hm', hgained⟩
    · obtain ⟨n, n', other, hn, hrest⟩ := h.gained j hj hlast
      rw [List.getElem?_set_ne (Nat.ne_of_lt hj)] at hn
      exact ⟨n, n', other, hn, hrest⟩
  · intro j hj
    have hne : slot ≠ j := by omega
    rw [h.others j (by omega), List.getElem?_set_ne hne]

theorem RefusedAt.cons {e : TokenError} (hstop : slot < stop)
    (h : RefusedAt tag identifier retries k (tokens.set slot m') tokens' stop e) :
    RefusedAt tag identifier retries k tokens tokens' stop e := by
  obtain ⟨n, n', blob, hn, hrest⟩ := h
  rw [List.getElem?_set_ne (Nat.ne_of_lt hstop)] at hn
  exact ⟨n, n', blob, hn, hrest⟩

/-- **The failures of stores are prefixes.** The induction is on the shares that are left. -/
theorem storeShares_ofMemory {form : Share → Outcome ProtocolError Bytes} (retry : RetryPolicy)
    (l : List Share) (hform : ∀ s ∈ l, ∃ blob, form s = .ok blob)
    (hindex : ∀ (i : Nat) (h : i < l.length), l[i].index = slot + i + 1)
    (hlen : slot + l.length ≤ tokens.length) :
    ∃ tokens' stop log,
      (storeShares form tag identifier slot l k (.ofMemory tokens retry)
          = ⟨.ok (), .ofMemory tokens' retry, log⟩ ∧ stop = slot + l.length ∧
        FilledUpTo tag identifier tokens tokens' slot stop ∧
        tokens'[stop]? = tokens[stop]?) ∨
      ∃ e, storeShares form tag identifier slot l k (.ofMemory tokens retry)
          = ⟨.error (.token e), .ofMemory tokens' retry, log⟩ ∧ slot ≤ stop ∧
        stop < slot + l.length ∧ FilledUpTo tag identifier tokens tokens' slot stop ∧
        RefusedAt tag identifier retry.retries k tokens tokens' stop e := by
  induction l generalizing slot tokens with
  | nil =>
    exact ⟨tokens, slot, [], .inl ⟨rfl, rfl, ⟨fun j hj hlt => absurd hj (Nat.not_le_of_lt hlt),
      fun _ _ => rfl⟩, rfl⟩⟩
  | cons share rest ih =>
    rw [List.length_cons] at hlen
    obtain ⟨blob, hblob⟩ := hform share List.mem_cons_self
    have hshare : share.index = slot + 1 := hindex 0 (Nat.zero_lt_succ _)
    obtain ⟨m, hm⟩ : ∃ m, tokens[slot]? = some m :=
      ⟨_, List.getElem?_eq_getElem (by omega : slot < tokens.length)⟩
    have hlt : slot < tokens.length := by omega
    obtain ⟨m', log, ⟨hstore, hgained⟩ | ⟨e, hstore, hrecords, hcome⟩⟩ :=
      Cards.store_ofMemory hm retry ⟨identifier, tag, slot + 1, blob⟩ k
    · -- stored: the other shares go to the slots behind
      have hrest : ∀ (i : Nat) (h : i < rest.length), rest[i].index = slot + 1 + i + 1 := by
        intro i hi
        have h := hindex (i + 1) (Nat.succ_lt_succ hi)
        rw [List.getElem_cons_succ] at h
        omega
      have hleft : slot + 1 + rest.length ≤ (tokens.set slot m').length := by
        rw [List.length_set]
        omega
      obtain ⟨tokens', stop, log', htail⟩ :=
        ih (fun s hs => hform s (List.mem_cons_of_mem share hs)) hrest hleft
      have hrun : storeShares form tag identifier slot (share :: rest) k (.ofMemory tokens retry)
          = ⟨(storeShares form tag identifier (slot + 1) rest k
              (.ofMemory (tokens.set slot m') retry)).outcome,
            (storeShares form tag identifier (slot + 1) rest k
              (.ofMemory (tokens.set slot m') retry)).state,
            log ++ (storeShares form tag identifier (slot + 1) rest k
              (.ofMemory (tokens.set slot m') retry)).log⟩ := by
        rw [storeShares, hblob, Proc.liftM_ok_bind, hshare,
          Proc.bind_apply_ok (Proc.mapError_apply hstore ProtocolError.token)]
      rcases htail with ⟨htail, hstop, hfilled, hlast⟩ |
        ⟨e, htail, hfirst, hstop, hfilled, hrefused⟩
      · rw [htail] at hrun
        refine ⟨tokens', stop, _, .inl ⟨hrun, ?_, hfilled.cons hm (by omega) hgained, ?_⟩⟩
        · rw [List.length_cons]
          omega
        · rw [hlast, List.getElem?_set_ne (by omega)]
      · rw [htail] at hrun
        refine ⟨tokens', stop, _, .inr ⟨e, hrun, by omega, ?_, hfilled.cons hm hfirst hgained,
          hrefused.cons hfirst⟩⟩
        rw [List.length_cons]
        omega
    · -- refused: no slot behind is called
      have hrun : storeShares form tag identifier slot (share :: rest) k (.ofMemory tokens retry)
          = ⟨.error (.token e), .ofMemory (tokens.set slot m') retry, log⟩ := by
        rw [storeShares, hblob, Proc.liftM_ok_bind, hshare,
          Proc.bind_apply_error (Proc.mapError_apply hstore ProtocolError.token)]
      refine ⟨tokens.set slot m', slot, log, .inr ⟨e, hrun, Nat.le_refl _, ?_, ⟨?_, ?_⟩, ?_⟩⟩
      · rw [List.length_cons]
        omega
      · exact fun j hj hlt => absurd hj (Nat.not_le_of_lt hlt)
      · intro j hj
        rw [List.getElem?_set_ne (by omega)]
      · exact ⟨m, m', blob, hm, List.getElem?_set_self hlt, hrecords, hcome⟩

/-- Where no token was called, everything is as it was. -/
theorem WrittenOnce.untouched {t : Threshold} {outcome : Outcome ProtocolError Bytes}
    (hok : ∀ der, outcome ≠ .ok der) (htoken : ∀ e, outcome ≠ .error (.token e)) :
    WrittenOnce tag identifier retries k tokens tokens t outcome :=
  ⟨fun _ m hm => ⟨m, hm, fun _ _ h => h⟩, fun der h => absurd h (hok der),
    fun e h => absurd h (htoken e), fun _ _ => rfl⟩

theorem RefusedAt.records {e : TokenError}
    (h : RefusedAt tag identifier retries k tokens tokens' stop e) {n : MemoryToken}
    (hn : tokens[stop]? = some n) :
    ∃ n' : MemoryToken, tokens'[stop]? = some n' ∧ n'.records = n.records := by
  obtain ⟨m, m', blob, hm, hm', hrecords, -⟩ := h
  cases hn.symm.trans hm
  exact ⟨m', hm', hrecords⟩

theorem FilledUpTo.kept (h : FilledUpTo tag identifier tokens tokens' 0 stop)
    (hstop : ∀ n, tokens[stop]? = some n →
      ∃ n' : MemoryToken, tokens'[stop]? = some n' ∧ n'.records = n.records)
    {j : Nat} {n : MemoryToken} (hn : tokens[j]? = some n) :
    ∃ n' : MemoryToken, tokens'[j]? = some n' ∧
      ∀ other r, n.records.lookup? other = some r → n'.records.lookup? other = some r := by
  rcases Nat.lt_trichotomy j stop with hj | rfl | hj
  · obtain ⟨m, m', blob, hm, hm', hgained⟩ := h.gained j (Nat.zero_le j) hj
    cases hn.symm.trans hm
    exact ⟨m', hm', fun _ _ hr => hgained.keeps hr⟩
  · obtain ⟨n', hn', hrecords⟩ := hstop n hn
    exact ⟨n', hn', fun _ _ hr => by rw [hrecords, hr]⟩
  · exact ⟨n, (h.others j (.inr hj)).trans hn, fun _ _ hr => hr⟩

/-- Dealing stores the shares of a polynomial; what comes afterwards cannot fail. -/
theorem deal_writtenOnce {form : Share → Outcome ProtocolError Bytes} {t : Threshold}
    {rest : Proc Cards ProtocolError Bytes} (retry : RetryPolicy) (f : Polynomial)
    (hform : ∀ s ∈ f.shares t.parties, ∃ blob, form s = .ok blob)
    (hrest : ∀ cards, ∃ der log, rest k cards = ⟨.ok der, cards, log⟩)
    (hlen : t.parties ≤ tokens.length) :
    ∃ outcome tokens' log, (do
        storeShares form tag identifier 0 (f.shares t.parties)
        rest) k (.ofMemory tokens retry) = ⟨outcome, .ofMemory tokens' retry, log⟩ ∧
      WrittenOnce tag identifier retry.retries k tokens tokens' t outcome := by
  have hindex : ∀ (i : Nat) (h : i < (f.shares t.parties).length),
      (f.shares t.parties)[i].index = 0 + i + 1 := by
    intro i _
    simp [Polynomial.shares]
  have hcount : 0 + (f.shares t.parties).length ≤ tokens.length := by
    rw [Polynomial.length_shares]
    omega
  obtain ⟨tokens', stop, log, hstored⟩ := storeShares_ofMemory retry _ hform hindex hcount
  rw [Polynomial.length_shares, Nat.zero_add] at hstored
  rcases hstored with ⟨hrun, rfl, hfilled, hlast⟩ | ⟨e, hrun, -, hstop, hfilled, hrefused⟩
  · obtain ⟨der, log', hder⟩ := hrest (.ofMemory tokens' retry)
    refine ⟨.ok der, tokens', log ++ log', by rw [Proc.bind_apply_ok hrun, hder], ?_⟩
    refine ⟨?_, fun _ _ => ⟨hfilled, hlast⟩, ?_, fun hok _ => absurd rfl (hok der)⟩
    · exact fun j n hn => hfilled.kept (fun m hm => ⟨m, hlast.trans hm, rfl⟩) hn
    · rintro e ⟨⟩
  · refine ⟨.error (.token e), tokens', log, Proc.bind_apply_error hrun _, ?_⟩
    refine ⟨?_, ?_, ?_, fun _ htoken => absurd rfl (htoken e)⟩
    · exact fun j n hn => hfilled.kept (fun m hm => hrefused.records hm) hn
    · rintro der ⟨⟩
    · rintro e' ⟨⟩
      exact ⟨stop, hstop, hfilled, hrefused⟩

end Filling

/-! ## Generations -/

/-- Stores come last, so what else can fail fails before them. -/
theorem generation_writtenOnce {α : Type} {t : Threshold} {draw : Proc Source ProtocolError α}
    {deal : α → Proc Cards ProtocolError Bytes} {Q : α → Prop} {tag identifier : Bytes} {k : Nat}
    {tokens : List MemoryToken} {retry : RetryPolicy}
    (hdraw : draw.Ends Q ProtocolError.IsArithmetic)
    (hdeal : ∀ a, Q a → t.parties ≤ tokens.length →
      ∃ outcome tokens' log, deal a k (.ofMemory tokens retry)
          = ⟨outcome, .ofMemory tokens' retry, log⟩ ∧
        WrittenOnce tag identifier retry.retries k tokens tokens' t outcome) (source : Source) :
    ∃ outcome source' tokens' log, generation t draw deal k ⟨source, .ofMemory tokens retry⟩
        = ⟨outcome, ⟨source', .ofMemory tokens' retry⟩, log⟩ ∧
      WrittenOnce tag identifier retry.retries k tokens tokens' t outcome := by
  have hcards := requireTokens_apply t k (.ofMemory tokens retry)
  rw [show (Cards.ofMemory tokens retry).tokens.length = tokens.length from List.length_map _]
    at hcards
  by_cases hlen : tokens.length < t.parties
  · rw [if_pos hlen] at hcards
    have hrequire := Session.onCards_apply (s := ⟨source, .ofMemory tokens retry⟩) hcards
    refine ⟨_, _, tokens, _, Proc.bind_apply_error hrequire _, .untouched ?_ ?_⟩
    · rintro der ⟨⟩
    · rintro e ⟨⟩
  · rw [if_neg hlen] at hcards
    have hrequire := Session.onCards_apply (s := ⟨source, .ofMemory tokens retry⟩) hcards
    have hends := hdraw k source
    obtain ⟨o, source', log, hrun⟩ : ∃ o source' log, draw k source = ⟨o, source', log⟩ :=
      ⟨_, _, _, rfl⟩
    have hsource := Session.onSource_apply (s := ⟨source, .ofMemory tokens retry⟩) hrun
    rw [hrun] at hends
    rw [generation, Proc.bind_apply_ok hrequire]
    cases o with
    | ok a =>
      obtain ⟨outcome, tokens', log', hdealt, hwritten⟩ := hdeal a hends (Nat.le_of_not_lt hlen)
      have hlast := Session.onCards_apply (s := ⟨source', .ofMemory tokens retry⟩) hdealt
      rw [Proc.bind_apply_ok hsource, hlast]
      exact ⟨outcome, source', tokens', _, rfl, hwritten⟩
    | error e =>
      rw [Proc.bind_apply_error hsource]
      refine ⟨_, source', tokens, _, rfl, .untouched ?_ ?_⟩
      · rintro der ⟨⟩
      · intro cause he
        exact hends.ne_token cause (Outcome.error.inj he)
    | fault => exact hends.elim
    | stalled =>
      rw [Proc.bind_apply_stalled hsource]
      refine ⟨_, source', tokens, _, rfl, .untouched ?_ ?_⟩
      · rintro der ⟨⟩
      · rintro e ⟨⟩

/-! ## The two keys -/

section Keys

variable {t : Threshold} {tag identifier : Bytes} {k : Nat} {tokens : List MemoryToken}

theorem ElectionKey.deal_writtenOnce {ps : ElGamal.Parameters} {f : Polynomial}
    (retry : RetryPolicy) (hf : f.modulus = ps.group.order) (hlen : t.parties ≤ tokens.length) :
    ∃ outcome tokens' log, deal ps t tag identifier f k (.ofMemory tokens retry)
        = ⟨outcome, .ofMemory tokens' retry, log⟩ ∧
      WrittenOnce tag identifier retry.retries k tokens tokens' t outcome := by
  have hpk : ElGamal.PublicKey.of ps (ps.group.pow ps.generator f.constant)
      = .ok (publicKey ps f) := dif_pos (publicKey ps f).isResidue
  refine ThresholdKeys.deal_writtenOnce retry f (fun s hs => ⟨_, shareForm_shares hf hs⟩) ?_ hlen
  intro cards
  dsimp only
  rw [hpk]
  exact ⟨_, _, rfl⟩

namespace SigningKey

theorem deal_writtenOnce (pk : Rsa.PublicKey) (f : Polynomial) (retry : RetryPolicy)
    (hlen : t.parties ≤ tokens.length) :
    ∃ outcome tokens' log, deal pk t tag identifier f k (.ofMemory tokens retry)
        = ⟨outcome, .ofMemory tokens' retry, log⟩ ∧
      WrittenOnce tag identifier retry.retries k tokens tokens' t outcome :=
  ThresholdKeys.deal_writtenOnce retry f (fun _ _ => ⟨_, rfl⟩) (fun _ => ⟨_, _, rfl⟩) hlen

/-- A signing key is refused by a computation or for want of entropy, never by a token. -/
theorem draw_ends (modulusBits : Nat) (t : Threshold) :
    (draw modulusBits t).Ends (fun _ => True) ProtocolError.IsArithmetic :=
  (draw_endsDrawn modulusBits t).mono (fun _ _ => trivial) fun _ he => he.1

end SigningKey

end Keys

/-- **A generation writes once, and its failures are prefixes**, for an election key over any group
as well as for a signing key of any size. -/
theorem generate_writes_once (t : Threshold) (tag identifier : Bytes) (k : Nat) (source : Source)
    (tokens : List MemoryToken) (retry : RetryPolicy) :
    (∀ ps, ∃ outcome source' tokens' log,
      ElectionKey.generate ps t tag identifier k ⟨source, .ofMemory tokens retry⟩
          = ⟨outcome, ⟨source', .ofMemory tokens' retry⟩, log⟩ ∧
        WrittenOnce tag identifier retry.retries k tokens tokens' t outcome) ∧
      ∀ modulusBits, ∃ outcome source' tokens' log,
        SigningKey.generate t modulusBits tag identifier k ⟨source, .ofMemory tokens retry⟩
            = ⟨outcome, ⟨source', .ofMemory tokens' retry⟩, log⟩ ∧
          WrittenOnce tag identifier retry.retries k tokens tokens' t outcome := by
  constructor
  · intro ps
    exact generation_writtenOnce (ElectionKey.drawPolynomial_ends ps t)
      (fun f hf hlen => ElectionKey.deal_writtenOnce retry hf.1 hlen) source
  · intro modulusBits
    by_cases hsmall : modulusBits < Rsa.minModulusBits
    · refine ⟨.error (.badParameters .smallModulus), source, tokens, [], ?_, .untouched ?_ ?_⟩
      · rw [SigningKey.generate, if_pos hsmall]
        rfl
      · rintro der ⟨⟩
      · rintro e ⟨⟩
    · obtain ⟨outcome, source', tokens', log, hrun, hwritten⟩ :=
        generation_writtenOnce (SigningKey.draw_ends modulusBits t)
          (fun key _ hlen => SigningKey.deal_writtenOnce key.1 key.2 retry hlen) source
      refine ⟨outcome, source', tokens', log, ?_, hwritten⟩
      rw [SigningKey.generate, if_neg hsmall]
      exact hrun

/-- Parameters of a group of twenty-three residues. -/
def twentyThreeResidues : ElGamal.Parameters where
  group := ⟨47, by decide, by decide⟩
  generator := 4
  electionId := "board"
  generates := by decide +kernel

/-- Tokens for five parties; the second one fails twice, and on the third one the identifier is
taken. -/
def takenTokens : List MemoryToken :=
  [.empty "a" 0, .empty "b" 2, ⟨"c", [⟨[2], [9], 4, [8]⟩], 0, false, 6⟩, .empty "d" 0,
    .outOfReach "e"]

theorem generate_writes_once_taken :
    ∃ source tokens log,
      ElectionKey.generate twentyThreeResidues ⟨5, 3, by decide, by decide⟩ [1] [2] 10
          ⟨.ofBytes [7, 3, 5], .ofMemory takenTokens (.immediate 3)⟩
        = ⟨.error (.token .alreadyExists), ⟨source, .ofMemory tokens (.immediate 3)⟩, log⟩ ∧
      ∃ stop < 5, FilledUpTo [1] [2] takenTokens tokens 0 stop ∧
        RefusedAt [1] [2] 3 10 takenTokens tokens stop .alreadyExists := by
  obtain ⟨outcome, source, tokens, log, hrun, hwritten⟩ :=
    (generate_writes_once ⟨5, 3, by decide, by decide⟩ [1] [2] 10 (.ofBytes [7, 3, 5]) takenTokens
      (.immediate 3)).1 twentyThreeResidues
  have houtcome : outcome = .error (.token .alreadyExists) := by
    have hcomputed : (ElectionKey.generate twentyThreeResidues ⟨5, 3, by decide, by decide⟩ [1] [2]
        10 ⟨.ofBytes [7, 3, 5], .ofMemory takenTokens (.immediate 3)⟩).outcome
        = .error (.token .alreadyExists) := by decide +kernel
    rw [hrun] at hcomputed
    exact hcomputed
  subst houtcome
  exact ⟨source, tokens, log, hrun, hwritten.refused _ rfl⟩

end ThresholdKeys
