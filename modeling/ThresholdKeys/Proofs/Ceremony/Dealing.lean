import ThresholdKeys.Ceremony.ElectionKey
import ThresholdKeys.Proofs.Ceremony.Collecting
import ThresholdKeys.Proofs.Entropy.Draws
import ThresholdKeys.Proofs.Sharing.Lagrange

/-!
# Dealing the shares of an election key

Where every token is available and keeps nothing under the identifier, all shares are stored: slot
`j` then has the share of party `j + 1`, in the form of a private key (`deal_fresh`). A generation
that returned a key has drawn a polynomial and dealt it (`generate_eq_ok`), so that this is what it
left behind (`generate_finds`).
-/

namespace ThresholdKeys

variable {cards : Cards} {tag identifier : Bytes} {slot : Nat}

/-! ## Storing -/

/-- The token in a slot is available, and keeps nothing under the identifier. -/
def Cards.Fresh (cards : Cards) (identifier : Bytes) (slot : Nat) : Prop :=
  ∃ m, cards.tokens[slot]? = some (.memory m) ∧ Available cards.retry.retries identifier none m

theorem Cards.store_fresh (h : cards.Fresh identifier slot) (b : IndexedBlob) (k : Nat) :
    ∃ token log, store slot ⟨identifier, tag, b.index, b.blob⟩ k cards
        = ⟨.ok (), cards.put slot token, log⟩ ∧
      (cards.put slot token).Finds tag identifier slot (some b) := by
  obtain ⟨m, hslot, hm⟩ := h
  obtain ⟨m', log, hm', hcall⟩ := call_store (r := ⟨identifier, tag, b.index, b.blob⟩) (k := k)
    hslot hm
  obtain ⟨log', hrun⟩ := store_of_call hcall
  exact ⟨.memory m', log', hrun, m', getElem?_put_self hslot _, hm'⟩

/-- The induction is on the shares that are left; a store leaves the other slots as they are. -/
theorem storeShares_fresh {form : Share → Outcome ProtocolError Bytes} {blob : Share → Bytes}
    (tag : Bytes) (k : Nat) (l : List Share) (hform : ∀ s ∈ l, form s = .ok (blob s)) {slot : Nat}
    {cards : Cards} (hfresh : ∀ j, slot ≤ j → j < slot + l.length → cards.Fresh identifier j) :
    ∃ cards' log, storeShares form tag identifier slot l k cards = ⟨.ok (), cards', log⟩ ∧
      cards'.tokens.length = cards.tokens.length ∧
      (∀ j < slot, ∀ found, cards.Finds tag identifier j found →
        cards'.Finds tag identifier j found) ∧
      ∀ j (h : j < l.length),
        cards'.Finds tag identifier (slot + j) (some ⟨l[j].index, blob l[j]⟩) := by
  induction l generalizing slot cards with
  | nil =>
    exact ⟨cards, [], rfl, rfl, fun _ _ _ h => h, fun j h => absurd h (Nat.not_lt_zero j)⟩
  | cons share rest ih =>
    have hblob := hform share List.mem_cons_self
    have hhead : cards.Fresh identifier slot := hfresh slot (Nat.le_refl _) (by simp)
    obtain ⟨token, log, hstore, hfinds⟩ : ∃ token log, Cards.store slot
        ⟨identifier, tag, share.index, blob share⟩ k cards = ⟨.ok (), cards.put slot token, log⟩ ∧
        (cards.put slot token).Finds tag identifier slot (some ⟨share.index, blob share⟩) :=
      Cards.store_fresh hhead ⟨share.index, blob share⟩ k
    have hrest : ∀ j, slot + 1 ≤ j → j < slot + 1 + rest.length →
        (cards.put slot token).Fresh identifier j := by
      intro j hj hlt
      rw [Cards.Fresh, Cards.getElem?_put_ne (by omega), Cards.put_retry]
      exact hfresh j (by omega) (by rw [List.length_cons]; omega)
    obtain ⟨cards', log', hrun, hlen, hbefore, hafter⟩ :=
      ih (fun s hs => hform s (List.mem_cons_of_mem _ hs)) hrest
    refine ⟨cards', log ++ log', ?_, ?_, ?_, ?_⟩
    · rw [storeShares, hblob, Proc.liftM_ok_bind,
        Proc.bind_apply_ok (Proc.mapError_apply hstore ProtocolError.token), hrun]
    · rw [hlen, Cards.length_put]
    · intro j hj found hfound
      exact hbefore j (by omega) found ((Cards.finds_put_ne (by omega) token).2 hfound)
    · intro j hj
      cases j with
      | zero => exact hbefore slot (Nat.lt_succ_self _) _ hfinds
      | succ j =>
        rw [List.getElem_cons_succ, show slot + (j + 1) = slot + 1 + j by omega]
        exact hafter j (by simpa using hj)

/-- Shares that were all stored are yielded, by tokens of any kind. The induction is on the shares
that are left. -/
theorem storeShares_yields {form : Share → Outcome ProtocolError Bytes} {blob : Share → Bytes}
    {k : Nat} {l : List Share} (hform : ∀ s ∈ l, form s = .ok (blob s)) {slot : Nat}
    {cards cards' : Cards} {log : List LogRecord}
    (h : storeShares form tag identifier slot l k cards = ⟨.ok (), cards', log⟩) :
    cards'.tokens.length = cards.tokens.length ∧ cards'.retry = cards.retry ∧
      (∀ j < slot, ∀ found, cards.Yields tag identifier j found →
        cards'.Yields tag identifier j found) ∧
      ∀ j (hj : j < l.length),
        cards'.Yields tag identifier (slot + j) (some ⟨l[j].index, blob l[j]⟩) := by
  induction l generalizing slot cards log with
  | nil =>
    cases h
    exact ⟨rfl, rfl, fun _ _ _ h => h, fun j hj => absurd hj (Nat.not_lt_zero j)⟩
  | cons share rest ih =>
    rw [storeShares, hform share List.mem_cons_self, Proc.liftM_ok_bind] at h
    obtain ⟨_, cards₁, log₁, log₂, hstore, hrest⟩ := Proc.bind_eq_ok h
    have hstored := Proc.mapError_eq_ok hstore
    obtain ⟨token, rfl, hyields⟩ := Cards.yields_of_store hstored
    obtain ⟨hlen, hretry, hbefore, hafter⟩ :=
      ih (fun s hs => hform s (List.mem_cons_of_mem _ hs)) hrest
    refine ⟨hlen.trans (Cards.length_put _ _ _), hretry, ?_, ?_⟩
    · intro j hj found hfound
      exact hbefore j (by omega) found ((Cards.yields_put_ne (by omega) token).2 hfound)
    · intro j hj
      cases j with
      | zero => exact hbefore slot (Nat.lt_succ_self _) _ hyields
      | succ j =>
        rw [List.getElem_cons_succ, show slot + (j + 1) = slot + 1 + j by omega]
        exact hafter j (by simpa using hj)

/-- Dealing yields the shares of a polynomial; what comes afterwards cannot fail. -/
theorem deal_yields {form : Share → Outcome ProtocolError Bytes} (blob : Share → Bytes)
    {rest : Proc Cards ProtocolError Bytes} {f : Polynomial} {count k : Nat} {der value : Bytes}
    {cards' : Cards} {log : List LogRecord}
    (hform : ∀ s ∈ f.shares count, form s = .ok (blob s))
    (hrest : ∀ cards, ∃ log, rest k cards = ⟨.ok value, cards, log⟩)
    (h : (do
        storeShares form tag identifier 0 (f.shares count)
        rest) k cards = ⟨.ok der, cards', log⟩) :
    der = value ∧ cards'.tokens.length = cards.tokens.length ∧ cards'.retry = cards.retry ∧
      ∀ j < count, cards'.Yields tag identifier j
        (some ⟨j + 1, blob ⟨j + 1, f.evaluate (j + 1), Nat.succ_pos j⟩⟩) := by
  obtain ⟨_, cards₁, log₁, log₂, hstored, hlast⟩ := Proc.bind_eq_ok h
  obtain ⟨log₃, hvalue⟩ := hrest cards₁
  obtain ⟨hlen, hretry, -, hyields⟩ := storeShares_yields hform hstored
  cases hvalue.symm.trans hlast
  refine ⟨rfl, hlen, hretry, fun j hj => ?_⟩
  have hslot := hyields j (by simpa using hj)
  simpa [Polynomial.shares] using hslot

/-! ## Steps of a session -/

theorem Session.onCards_eq {ε α : Type} {p : Proc Cards ε α} {k : Nat} {s s' : Session}
    {o : Outcome ε α} {log : List LogRecord} (h : onCards p k s = ⟨o, s', log⟩) :
    p k s.cards = ⟨o, s'.cards, log⟩ ∧ s'.source = s.source := by
  obtain ⟨rfl, rfl, rfl⟩ := Run.mk.inj h
  exact ⟨rfl, rfl⟩

theorem Session.onSource_eq {ε α : Type} {p : Proc Source ε α} {k : Nat} {s s' : Session}
    {o : Outcome ε α} {log : List LogRecord} (h : onSource p k s = ⟨o, s', log⟩) :
    p k s.source = ⟨o, s'.source, log⟩ ∧ s'.cards = s.cards := by
  obtain ⟨rfl, rfl, rfl⟩ := Run.mk.inj h
  exact ⟨rfl, rfl⟩

theorem Session.onCards_apply {ε α : Type} {p : Proc Cards ε α} {k : Nat} {s : Session}
    {cards : Cards} {o : Outcome ε α} {log : List LogRecord}
    (h : p k s.cards = ⟨o, cards, log⟩) : onCards p k s = ⟨o, ⟨s.source, cards⟩, log⟩ := by
  rw [onCards, Proc.within, h]

theorem Session.onSource_apply {ε α : Type} {p : Proc Source ε α} {k : Nat} {s : Session}
    {source : Source} {o : Outcome ε α} {log : List LogRecord}
    (h : p k s.source = ⟨o, source, log⟩) : onSource p k s = ⟨o, ⟨source, s.cards⟩, log⟩ := by
  rw [onSource, Proc.within, h]

/-- The tokens are counted, and left as they are. -/
theorem requireTokens_apply (t : Threshold) (k : Nat) (cards : Cards) :
    requireTokens t k cards = ⟨if cards.tokens.length < t.parties
      then .error (.tooFewTokens cards.tokens.length t.parties) else .ok (), cards, []⟩ := by
  rw [requireTokens, Proc.get_bind_apply]
  split <;> rfl

/-- What a generation drew, and dealt. -/
theorem generation_eq_ok {α : Type} {t : Threshold} {draw : Proc Source ProtocolError α}
    {deal : α → Proc Cards ProtocolError Bytes} {s s' : Session} {der : Bytes} {k : Nat}
    {log : List LogRecord} (h : generation t draw deal k s = ⟨.ok der, s', log⟩) :
    ∃ a, (draw k s.source).outcome = .ok a ∧
      ∃ log', deal a k s.cards = ⟨.ok der, s'.cards, log'⟩ := by
  obtain ⟨_, s₁, log₁, log₂, hrequire, hrest⟩ := Proc.bind_eq_ok h
  obtain ⟨a, s₂, log₃, log₄, hdraw, hdeal⟩ := Proc.bind_eq_ok hrest
  obtain ⟨hcards, hsource⟩ := Session.onCards_eq hrequire
  obtain ⟨hdrawn, hcards'⟩ := Session.onSource_eq hdraw
  obtain ⟨hshares, -⟩ := Session.onCards_eq hdeal
  have hstate : s₁.cards = s.cards := by
    rw [requireTokens_apply] at hcards
    exact (congrArg Run.state hcards).symm
  rw [hsource] at hdrawn
  rw [hcards', hstate] at hshares
  exact ⟨a, by rw [hdrawn], _, hshares⟩

/-! ## Dealing -/

namespace ElectionKey

/-- The share of the party `i`, as a private key. -/
def keyShare (ps : ElGamal.Parameters) (f : Polynomial) (hf : f.modulus = ps.group.order)
    (i : Nat) : ElGamal.PrivateKey := ⟨ps, f.evaluate i, hf ▸ evaluate_lt f i⟩

/-- The blob on the token of the party `i`. -/
def shareBlob (ps : ElGamal.Parameters) (f : Polynomial) (hf : f.modulus = ps.group.order)
    (i : Nat) : IndexedBlob := ⟨i, (keyShare ps f hf i).toDer⟩

/-- The public key that belongs to the constant term. -/
def publicKey (ps : ElGamal.Parameters) (f : Polynomial) : ElGamal.PublicKey where
  parameters := ps
  key := ps.group.pow ps.generator f.constant
  isResidue := by
    have h := ps.generates
    rw [Group.isGenerator, Bool.and_eq_true] at h
    exact Group.isResidue_pow h.2 _

variable {ps : ElGamal.Parameters} {t : Threshold} {f : Polynomial}

/-- The polynomial that is drawn has an exponent for its constant term. -/
theorem drawPolynomial_ends (ps : ElGamal.Parameters) (t : Threshold) :
    (drawPolynomial ps t).Ends (fun f => f.modulus = ps.group.order ∧
      f.degree = t.threshold - 1 ∧ f.constant < ps.group.order) ProtocolError.IsArithmetic :=
  (Polynomial.random_ends ps.group.order_pos _).mapError fun cause _ => ⟨cause, rfl⟩

/-- The values of a polynomial over the order of the group are private keys. -/
theorem shareForm_shares (hf : f.modulus = ps.group.order) {count : Nat} {s : Share}
    (hs : s ∈ f.shares count) : shareForm ps s = .ok (keyShare ps f hf s.index).toDer := by
  obtain ⟨i, -, rfl⟩ := List.mem_map.1 hs
  have hlt : f.evaluate (i + 1) < ps.group.order := hf ▸ evaluate_lt f (i + 1)
  rw [shareForm, ElGamal.PrivateKey.of, dif_pos hlt]
  rfl

/-- **All shares are dealt**: slot `j` has that of party `j + 1`. -/
theorem deal_fresh (hf : f.modulus = ps.group.order)
    (hfresh : ∀ j < t.parties, cards.Fresh identifier j) (tag : Bytes) (k : Nat) :
    ∃ cards' log, deal ps t tag identifier f k cards = ⟨.ok (publicKey ps f).toDer, cards', log⟩ ∧
      cards'.tokens.length = cards.tokens.length ∧
      ∀ j < t.parties, cards'.Finds tag identifier j (some (shareBlob ps f hf (j + 1))) := by
  have hform : ∀ s ∈ f.shares t.parties, shareForm ps s = .ok (keyShare ps f hf s.index).toDer :=
    fun s hs => shareForm_shares hf hs
  have hfresh' : ∀ j, 0 ≤ j → j < 0 + (f.shares t.parties).length → cards.Fresh identifier j :=
    fun j _ hj => hfresh j (by simpa using hj)
  obtain ⟨cards', log, hrun, hlen, -, hfinds⟩ :=
    storeShares_fresh tag k (f.shares t.parties) hform hfresh'
  have hpk : ElGamal.PublicKey.of ps (ps.group.pow ps.generator f.constant)
      = .ok (publicKey ps f) := dif_pos (publicKey ps f).isResidue
  refine ⟨cards', ?_⟩
  rw [deal, Proc.bind_apply_ok hrun]
  dsimp only
  rw [hpk]
  refine ⟨_, rfl, hlen, ?_⟩
  intro j hj
  have h := hfinds j (by simpa using hj)
  simpa [Polynomial.shares, shareBlob] using h

theorem generate_eq_ok {s s' : Session} {der : Bytes} {k : Nat} {log : List LogRecord}
    (h : generate ps t tag identifier k s = ⟨.ok der, s', log⟩) :
    ∃ f, (drawPolynomial ps t k s.source).outcome = .ok f ∧
      ∃ log', deal ps t tag identifier f k s.cards = ⟨.ok der, s'.cards, log'⟩ :=
  generation_eq_ok h

/-- **A generation leaves the shares of the polynomial that it drew**, and returns its key. -/
theorem generate_finds {s s' : Session} {der : Bytes} {k : Nat} {log : List LogRecord}
    (hcount : s.cards.tokens.length = t.parties)
    (hfresh : ∀ token ∈ s.cards.tokens, ∃ m, token = .memory m ∧
      Available s.cards.retry.retries identifier none m)
    (h : generate ps t tag identifier k s = ⟨.ok der, s', log⟩) :
    ∃ f, (drawPolynomial ps t k s.source).outcome = .ok f ∧ f.degree = t.threshold - 1 ∧
      f.constant < ps.group.order ∧ der = (publicKey ps f).toDer ∧
      s'.cards.tokens.length = t.parties ∧ ∃ hf : f.modulus = ps.group.order, ∀ j < t.parties,
        s'.cards.Finds tag identifier j (some (shareBlob ps f hf (j + 1))) := by
  obtain ⟨f, hdraw, log₁, hdeal⟩ := generate_eq_ok h
  obtain ⟨hf, hdegree, hconstant⟩ : f.modulus = ps.group.order ∧ f.degree = t.threshold - 1 ∧
      f.constant < ps.group.order := by
    have hends := drawPolynomial_ends ps t k s.source
    rwa [hdraw] at hends
  have hslots : ∀ j < t.parties, s.cards.Fresh identifier j := by
    intro j hj
    obtain ⟨m, hm, havailable⟩ := hfresh _ (List.getElem_mem (by omega : j < s.cards.tokens.length))
    exact ⟨m, by rw [← hm, List.getElem?_eq_getElem], havailable⟩
  obtain ⟨dealt, log₂, hrun, hlen, hfinds⟩ := deal_fresh hf hslots tag k
  obtain ⟨hkey, rfl, -⟩ := Run.mk.inj (hdeal.symm.trans hrun)
  cases hkey
  exact ⟨f, hdraw, hdegree, hconstant, rfl, hlen.trans hcount, hf, hfinds⟩

/-- What is dealt is yielded, by tokens of any kind. -/
theorem deal_yields (hf : f.modulus = ps.group.order) {k : Nat} {cards' : Cards} {der : Bytes}
    {log : List LogRecord} (h : deal ps t tag identifier f k cards = ⟨.ok der, cards', log⟩) :
    der = (publicKey ps f).toDer ∧ cards'.tokens.length = cards.tokens.length ∧
      cards'.retry = cards.retry ∧
      ∀ j < t.parties, cards'.Yields tag identifier j (some (shareBlob ps f hf (j + 1))) := by
  have hpk : ElGamal.PublicKey.of ps (ps.group.pow ps.generator f.constant)
      = .ok (publicKey ps f) := dif_pos (publicKey ps f).isResidue
  refine ThresholdKeys.deal_yields (fun s => (keyShare ps f hf s.index).toDer)
    (fun s hs => shareForm_shares hf hs) ?_ h
  intro cards
  dsimp only
  rw [hpk]
  exact ⟨_, rfl⟩

/-- **After a generation every slot yields its share** of the polynomial that was drawn. -/
theorem generate_yields {s s' : Session} {der : Bytes} {k : Nat} {log : List LogRecord}
    (h : generate ps t tag identifier k s = ⟨.ok der, s', log⟩) :
    ∃ f, (drawPolynomial ps t k s.source).outcome = .ok f ∧ f.degree = t.threshold - 1 ∧
      f.constant < ps.group.order ∧ der = (publicKey ps f).toDer ∧
      s'.cards.tokens.length = s.cards.tokens.length ∧ s'.cards.retry = s.cards.retry ∧
      ∃ hf : f.modulus = ps.group.order, ∀ j < t.parties,
        s'.cards.Yields tag identifier j (some (shareBlob ps f hf (j + 1))) := by
  obtain ⟨f, hdraw, log₁, hdeal⟩ := generate_eq_ok h
  obtain ⟨hf, hdegree, hconstant⟩ : f.modulus = ps.group.order ∧ f.degree = t.threshold - 1 ∧
      f.constant < ps.group.order := by
    have hends := drawPolynomial_ends ps t k s.source
    rwa [hdraw] at hends
  obtain ⟨hder, hlen, hretry, hyields⟩ := deal_yields hf hdeal
  exact ⟨f, hdraw, hdegree, hconstant, hder, hlen, hretry, hf, hyields⟩

end ElectionKey

end ThresholdKeys
