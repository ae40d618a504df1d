import Mathlib.NumberTheory.LucasPrimality
import ThresholdKeys.Proofs.Ceremony.Recovery
import ThresholdKeys.Proofs.Ceremony.Trials
import ThresholdKeys.Proofs.Sharing.Quorums

/-!
# A rehearsal after one share was damaged

One share of a generated key is replaced by another exponent, and all else is as it was dealt; the
tokens may stand in an order of their own (`OneDamaged`). Every Lagrange coefficient is a unit
modulo the prime order, so a quorum that has the share puts another private key together, which has
another public key; a quorum that does not have it puts the key of the generation together
(`quorumDecrypts_damaged`). Hence the first quorum that has the damaged share is the one that the
rehearsal reports (`rehearse_outcome`).

Whether there is such a quorum depends on the place of the share. The three quorums that are tried
reach the first parties and the last ones, as many as the threshold, which is everybody if the
threshold is at least half of the parties. A damaged share between them is not noticed
(`rehearse_one_damaged`), such as the third of five where two are needed
(`rehearse_third_of_five_damaged`).
-/

namespace ThresholdKeys

open ElGamal

variable {ps : Parameters} {t : Threshold} {tag identifier : Bytes} {dealt cards : Cards}
  {seat : Equiv.Perm (Fin t.parties)} {slot : Fin t.parties} {i : Nat}

/-! ## The quorums of a rehearsal -/

/-- What the slots hold when the token of party `j + 1` stands in the slot `seat j`. -/
def seated (blob : Nat → IndexedBlob) (seat : Equiv.Perm (Fin t.parties)) (slot : Nat) :
    Option IndexedBlob :=
  if h : slot < t.parties then some (blob (seat.symm ⟨slot, h⟩ + 1)) else none

theorem seated_apply (blob : Nat → IndexedBlob) (j : Fin t.parties) :
    seated blob seat (seat j) = some (blob (j + 1)) := by
  simp [seated]

theorem exists_of_seated {blob : Nat → IndexedBlob} {b : IndexedBlob} {slot : Nat}
    (h : seated blob seat slot = some b) :
    ∃ j : Fin t.parties, slot = seat j ∧ b = blob (j + 1) := by
  unfold seated at h
  split at h
  · next hlt =>
    cases h
    exact ⟨seat.symm ⟨slot, hlt⟩, by rw [Equiv.apply_symm_apply], rfl⟩
  · cases h

theorem apart_seated {blob : Nat → IndexedBlob} (hindex : ∀ i, (blob i).index = i) :
    Apart t (seated blob seat) where
  isIndex := by
    intro m b _ hb
    obtain ⟨j, -, rfl⟩ := exists_of_seated hb
    rw [hindex]
    exact isIndex_iff.2 ⟨by omega, by omega⟩
  injective := by
    intro m m' b b' hb hb' heq
    obtain ⟨j, rfl, rfl⟩ := exists_of_seated hb
    obtain ⟨j', rfl, rfl⟩ := exists_of_seated hb'
    rw [hindex, hindex] at heq
    rw [Fin.ext (Nat.add_right_cancel heq)]

/-- Wherever the tokens stand, the blobs come in the order of the parties. -/
theorem placed_seated {blob : Nat → IndexedBlob} (hindex : ∀ i, (blob i).index = i) :
    Placed t (seated blob seat) t.parties (t.indices.map fun i => some (blob i)) where
  length := by rw [List.length_map, t.length_indices]
  iff := by
    intro i hi b
    have hget : t.indices[i]? = some (i + 1) := by
      rw [Threshold.indices, List.getElem?_range' hi, Nat.one_mul, Nat.add_comm]
    rw [List.getElem?_map, hget, Option.map_some, Option.some_inj]
    constructor
    · intro hb
      cases hb
      exact ⟨seat ⟨i, hi⟩, (seat ⟨i, hi⟩).isLt, seated_apply blob ⟨i, hi⟩, hindex (i + 1)⟩
    · intro hb
      obtain ⟨m, -, hheld, heq⟩ := hb
      obtain ⟨j, -, rfl⟩ := exists_of_seated hheld
      rw [← heq, hindex]

/-- What is collected where the slots yield the blobs of the parties, in any order. -/
theorem rehearsalQuorums_yields {blob : Nat → IndexedBlob} (hindex : ∀ i, (blob i).index = i)
    (hlen : cards.tokens.length = t.parties)
    (hyields : ∀ j : Fin t.parties,
      cards.Yields tag identifier (seat j) (some (blob (j + 1))))
    {quorums : List (List Nat)} (hquorums : selectQuorums t.indices t.threshold = .ok quorums)
    (k : Nat) : ∃ cards' log, rehearsalQuorums t tag identifier k cards
      = ⟨.ok (quorums.map (List.map blob)), cards', log⟩ := by
  have hpos := t.threshold_pos
  have hmajority := t.majority
  have hheld : ∀ m < t.parties, cards.Yields tag identifier m (seated blob seat m) := by
    intro m hm
    have h := hyields (seat.symm ⟨m, hm⟩)
    rwa [← seated_apply blob, Equiv.apply_symm_apply] at h
  obtain ⟨cards', log, hcollect⟩ :=
    collectPresent_yields (apart_seated hindex) (placed_seated hindex) hlen hheld k
  have hblobs : (t.indices.map fun i => some (blob i)).filterMap id = t.indices.map blob := by
    rw [List.filterMap_map, Function.id_comp]
    rw [List.filterMap_eq_map']
  have henough : t.threshold ≤ (t.indices.map blob).length := by
    rw [List.length_map, t.length_indices]
    omega
  refine ⟨cards', log ++ [], ?_⟩
  rw [rehearsalQuorums, Proc.bind_apply_ok hcollect, hblobs,
    requireThreshold_eq_ok_iff.2 henough, Proc.liftM_ok_bind, selectQuorums_map, hquorums]
  rfl

/-- What is tried are quorums. -/
theorem isQuorum_of_selectQuorums {quorums : List (List Nat)}
    (hquorums : selectQuorums t.indices t.threshold = .ok quorums) {quorum : List Nat}
    (h : quorum ∈ quorums) : IsQuorum t quorum := by
  obtain ⟨hsub, hlen⟩ := sublist_of_selectQuorums hquorums h
  exact ⟨hsub.nodup List.nodup_range', fun i hi => mem_indices_iff.1 (hsub.subset hi),
    Nat.le_of_eq hlen.symm⟩

/-- Whether some quorum has a party. -/
theorem exists_quorum_iff {quorums : List (List Nat)}
    (hquorums : selectQuorums t.indices t.threshold = .ok quorums) (hi : t.isIndex i = true) :
    (∃ quorum ∈ quorums, i ∈ quorum) ↔ i ≤ t.threshold ∨ t.parties < i + t.threshold := by
  obtain ⟨hpos, hle⟩ := isIndex_iff.1 hi
  have hj : i - 1 < t.indices.length := by
    rw [t.length_indices]
    omega
  have hget : t.indices[i - 1] = i := by
    simp only [Threshold.indices, List.getElem_range']
    omega
  have h := exists_mem_selectQuorums_iff hquorums List.nodup_range' hj
  rw [hget, t.length_indices] at h
  rw [h]
  omega

/-! ## One damaged share -/

/-- The token that stood in a slot when the shares were dealt holds, instead of its share, a private
key for the same party, with the same parameters and another exponent. The other tokens hold what
was dealt. The token of slot `j` now stands in the slot `seat j`. -/
structure OneDamaged (t : Threshold) (tag identifier : Bytes) (dealt cards : Cards)
    (seat : Equiv.Perm (Fin t.parties)) (slot : Fin t.parties) (i : Nat) : Prop where
  count : cards.tokens.length = t.parties
  others : ∀ j, j ≠ slot → ∀ b, dealt.Yields tag identifier j (some b) →
    cards.Yields tag identifier (seat j) (some b)
  damaged : ∃ old new share wrong,
    dealt.Yields tag identifier slot (some ⟨i, old⟩) ∧ PrivateKey.ofDer old = .ok share ∧
    cards.Yields tag identifier (seat slot) (some ⟨i, new⟩) ∧ PrivateKey.ofDer new = .ok wrong ∧
    wrong.parameters = share.parameters ∧ wrong.secret ≠ share.secret

/-- Another token in a slot, with another exponent for its party, damages the share. -/
theorem oneDamaged_put {f : Polynomial} {hf : f.modulus = ps.group.order}
    (hcount : dealt.tokens.length = t.parties) (hsize : ps.toDer.length < Der.addressLimit)
    (hdealt : ∀ j < t.parties,
      dealt.Yields tag identifier j (some (ElectionKey.shareBlob ps f hf (j + 1))))
    {token : Token} {wrong : PrivateKey} (hparameters : wrong.parameters = ps)
    (hsecret : wrong.secret ≠ f.evaluate (slot + 1))
    (htoken : token.Yields dealt.retry tag identifier (some ⟨slot + 1, wrong.toDer⟩)) :
    OneDamaged t tag identifier dealt (dealt.put slot token) (Equiv.refl _) slot (slot + 1) where
  count := (Cards.length_put _ _ _).trans hcount
  others := fun _ hj _ hb => (Cards.yields_put_ne (fun h => hj (Fin.ext h.symm)) token).2 hb
  damaged := by
    have hread : ∀ sk : PrivateKey, sk.parameters = ps → PrivateKey.ofDer sk.toDer = .ok sk :=
      fun sk hsk => PrivateKey.ofDer_toDer (PrivateKey.length_toDer_lt (by rwa [hsk]))
    have hslot : slot < dealt.tokens.length := by
      rw [hcount]
      exact slot.isLt
    exact ⟨_, wrong.toDer, ElectionKey.keyShare ps f hf (slot + 1), wrong, hdealt slot slot.isLt,
      hread _ rfl, Cards.yields_put_self hslot htoken, hread wrong hparameters, hparameters,
      hsecret⟩

/-- Where the shares of a polynomial were dealt, all tokens hold exponents, and one of these is not
the value of the polynomial. -/
theorem OneDamaged.carries {f : Polynomial} {hf : f.modulus = ps.group.order}
    (hdamaged : OneDamaged t tag identifier dealt cards seat slot i)
    (hsize : ps.toDer.length < Der.addressLimit)
    (hdealt : ∀ j < t.parties,
      dealt.Yields tag identifier j (some (ElectionKey.shareBlob ps f hf (j + 1)))) :
    t.isIndex i = true ∧ ∃ (blob : Nat → IndexedBlob) (exponent : Nat → Nat),
      (∀ j : Fin t.parties, cards.Yields tag identifier (seat j) (some (blob (j + 1)))) ∧
      (∀ j, RecoveredKey.Carries ps (blob j) j (exponent j)) ∧
      (∀ j, j ≠ i → exponent j = f.evaluate j) ∧
      exponent i < ps.group.order ∧ exponent i ≠ f.evaluate i := by
  have hslot := slot.isLt
  obtain ⟨old, new, share, wrong, hold, hshare, hnew, hwrong, hparameters, hsecret⟩ :=
    hdamaged.damaged
  -- a slot yields one blob, so the share that was replaced is the value of the polynomial
  have hsame : (⟨i, old⟩ : IndexedBlob) = ElectionKey.shareBlob ps f hf (slot + 1) :=
    hold.unique (hdealt slot hslot)
  obtain ⟨rfl, rfl⟩ := IndexedBlob.mk.inj hsame
  have hread : PrivateKey.ofDer (ElectionKey.keyShare ps f hf (slot + 1)).toDer
      = .ok (ElectionKey.keyShare ps f hf (slot + 1)) :=
    PrivateKey.ofDer_toDer (PrivateKey.length_toDer_lt hsize)
  cases hread.symm.trans hshare
  have hps : wrong.parameters = ps := hparameters
  refine ⟨isIndex_iff.2 ⟨by omega, by omega⟩,
    Function.update (ElectionKey.shareBlob ps f hf) (slot + 1) ⟨slot + 1, new⟩,
    Function.update f.evaluate (slot + 1) wrong.secret, ?_, ?_, ?_, ?_, ?_⟩
  · intro j
    by_cases h : j = slot
    · rw [h, Function.update_self]
      exact hnew
    · rw [Function.update_of_ne (fun heq => h (Fin.ext (Nat.add_right_cancel heq)))]
      exact hdamaged.others j h _ (hdealt j j.isLt)
  · intro j
    by_cases h : j = slot + 1
    · rw [h, Function.update_self, Function.update_self]
      exact ⟨rfl, wrong, hwrong, hps, rfl⟩
    · rw [Function.update_of_ne h, Function.update_of_ne h]
      exact RecoveredKey.carries_shareBlob hsize hf j
  · intro j hj
    exact Function.update_of_ne hj _ _
  · rw [Function.update_self, ← hps]
    exact wrong.secret_lt
  · rw [Function.update_self]
    exact hsecret

/-- Blobs that name their parties name those of the quorum. -/
theorem quorumIndices_map {blob : Nat → IndexedBlob} (hindex : ∀ i, (blob i).index = i)
    (quorum : List Nat) : quorumIndices (quorum.map blob) = quorum := by
  rw [quorumIndices, List.map_map]
  exact (List.map_congr_left fun j _ => hindex j).trans (List.map_id _)

/-- **A quorum fails its trial exactly if it has the damaged share.** -/
theorem quorumDecrypts_damaged (hp : ps.group.modulus.Prime) (hq : ps.group.order.Prime)
    (ht : t.parties < ps.group.order) (hlen : 14 ≤ ps.group.messageLength)
    (hsize : ps.toDer.length < Der.addressLimit) {f : Polynomial}
    (hf : f.modulus = ps.group.order) (hdegree : f.degree = t.threshold - 1)
    (hconstant : f.constant < ps.group.order) {blob : Nat → IndexedBlob} {exponent : Nat → Nat}
    (hblob : ∀ j, RecoveredKey.Carries ps (blob j) j (exponent j))
    (hothers : ∀ j, j ≠ i → exponent j = f.evaluate j) (hlt : exponent i < ps.group.order)
    (hwrong : exponent i ≠ f.evaluate i) {quorum : List Nat} (hquorum : IsQuorum t quorum)
    (withProof : Bool) {n : Nat} (hn : n < 10) :
    TrialEnds ps.group withProof
      (quorumDecrypts (ElectionKey.publicKey ps f) t withProof n (quorum.map blob))
      (!decide (i ∈ quorum)) := by
  have hpublic : ElectionKey.publicKey ps f = (PrivateKey.mk ps f.constant hconstant).publicKey :=
    rfl
  rw [hpublic]
  by_cases hi : i ∈ quorum
  · obtain ⟨key, hrecover, hparameters, hsecret⟩ := RecoveredKey.recover_damaged hq ht hf hdegree
      hquorum (fun j _ => hblob j) hi (fun j _ hj => hothers j hj) hlt hwrong
    have hother : key.publicKey ≠ (PrivateKey.mk ps f.constant hconstant).publicKey := by
      intro h
      exact hsecret (PrivateKey.secret_eq_of_publicKey (by rwa [hparameters]) h)
    rw [decide_eq_true hi]
    exact quorumDecrypts_of_other hrecover hother hp hlen hn
  · -- without the damaged share all exponents are values of the polynomial
    have hvalue : ∀ j ∈ quorum, RecoveredKey.Carries ps (blob j) j (f.evaluate j) := by
      intro j hj
      rw [← hothers j fun h => hi (h ▸ hj)]
      exact hblob j
    have hrecover := RecoveredKey.recover_quorum hq ht hf hdegree hconstant hquorum hvalue
    rw [decide_eq_false hi]
    exact quorumDecrypts_of_key hrecover hp hsize hlen hn

/-- Once the quorums are collected, the rehearsal ends as their trials do. -/
theorem rehearseDecryption_outcome {c : Config} {pk : PublicKey} {der : Bytes}
    (hder : PublicKey.ofDer der = .ok pk) {quorums : List (List IndexedBlob)} {cards' : Cards}
    {k : Nat} {log : List LogRecord}
    (hcollect : rehearsalQuorums t c.shareTag c.decryptionIdentifier k cards
      = ⟨.ok quorums, cards', log⟩) (source : Source) :
    (rehearseDecryption t c der k ⟨source, cards⟩).outcome
      = (fun _ => quorums.length) <$> (tryQuorums "Decryption"
        (quorumDecrypts pk t c.decryptWithProof) 0 quorums k source).outcome := by
  rw [rehearseDecryption, hder, Outcome.mapError_ok, Proc.liftM_ok_bind,
    Proc.bind_apply_ok (Session.onCards_apply hcollect)]
  exact Proc.outcome_bind_value fun _ _ => rfl

/-- **How the rehearsal ends**: the first quorum that has the damaged share is reported, and if none
has it the quorums are counted. -/
theorem rehearse_outcome (hp : ps.group.modulus.Prime) (hq : ps.group.order.Prime)
    (ht : t.parties < ps.group.order) (hlen : 14 ≤ ps.group.messageLength)
    (hsize : ps.toDer.length < Der.addressLimit) {c : Config} {s s' : Session} {k : Nat}
    {der : Bytes} {log : List LogRecord}
    (hgen : ElectionKey.generate ps t c.shareTag c.decryptionIdentifier k s = ⟨.ok der, s', log⟩)
    (hdamaged : OneDamaged t c.shareTag c.decryptionIdentifier s'.cards cards seat slot i)
    {k' : Nat} {source : Source}
    (hdraws : (rehearsalDraws ps.group c.decryptWithProof 3 k' source).outcome = .ok ()) :
    t.isIndex i = true ∧ ∃ quorums, selectQuorums t.indices t.threshold = .ok quorums ∧
      (rehearseDecryption t c der k' ⟨source, cards⟩).outcome
        = match quorums.find? (i ∈ ·) with
          | none => .ok quorums.length
          | some quorum => .error (.quorumRejected quorum) := by
  have hpos := t.threshold_pos
  have hmajority := t.majority
  obtain ⟨f, -, hdegree, hconstant, rfl, -, -, hf, hdealt⟩ := ElectionKey.generate_yields hgen
  obtain ⟨hi, blob, exponent, hyields, hblob, hothers, hlt, hwrong⟩ :=
    hdamaged.carries hsize hdealt
  have hcount := t.length_indices
  obtain ⟨quorums, hquorums, hthree⟩ : ∃ quorums,
      selectQuorums t.indices t.threshold = .ok quorums ∧ quorums.length ≤ 3 :=
    exists_selectQuorums hpos (by omega)
  have hindices : ∀ quorum, quorumIndices (quorum.map blob) = quorum :=
    quorumIndices_map fun j => (hblob j).1
  refine ⟨hi, quorums, hquorums, ?_⟩
  have hpublic : PublicKey.ofDer (ElectionKey.publicKey ps f).toDer
      = .ok (ElectionKey.publicKey ps f) :=
    PublicKey.ofDer_toDer (PublicKey.length_toDer_lt hsize)
  obtain ⟨cards', log₁, hcollect⟩ := rehearsalQuorums_yields (fun j => (hblob j).1)
    hdamaged.count hyields hquorums k'
  have htrials : ∀ n < 10, ∀ quorum ∈ quorums.map (List.map blob),
      TrialEnds ps.group c.decryptWithProof
        (quorumDecrypts (ElectionKey.publicKey ps f) t c.decryptWithProof n quorum)
        (!decide (i ∈ quorumIndices quorum)) := by
    intro n hn quorum hquorum
    obtain ⟨indices, hmem, rfl⟩ := List.mem_map.1 hquorum
    rw [hindices]
    exact quorumDecrypts_damaged hp hq ht hlen hsize hf hdegree hconstant hblob hothers hlt hwrong
      (isQuorum_of_selectQuorums hquorums hmem) _ hn
  have hverdict : (fun quorum => decide (i ∈ quorumIndices quorum)) ∘ List.map blob
      = fun quorum => decide (i ∈ quorum) := by
    funext quorum
    rw [Function.comp, hindices]
  rw [rehearseDecryption_outcome hpublic hcollect, tryQuorums_outcome htrials
    (by rw [List.length_map]; omega) (by rw [List.length_map]; exact hthree) hdraws,
    List.find?_map, hverdict]
  cases quorums.find? (i ∈ ·) with
  | none => exact congrArg Outcome.ok (List.length_map _)
  | some quorum =>
    dsimp only [Option.map_some]
    rw [hindices]
    rfl

/-- **A rehearsal finds a damaged share among the first and the last ones**, as many as the
threshold, and reports a quorum that has it. Between them nobody is tried, and the damage goes
unnoticed. -/
theorem rehearse_one_damaged (hp : ps.group.modulus.Prime) (hq : ps.group.order.Prime)
    (ht : t.parties < ps.group.order) (hlen : 14 ≤ ps.group.messageLength)
    (hsize : ps.toDer.length < Der.addressLimit) {c : Config} {s s' : Session} {k : Nat}
    {der : Bytes} {log : List LogRecord}
    (hgen : ElectionKey.generate ps t c.shareTag c.decryptionIdentifier k s = ⟨.ok der, s', log⟩)
    (hdamaged : OneDamaged t c.shareTag c.decryptionIdentifier s'.cards cards seat slot i)
    {k' : Nat} {source : Source}
    (hdraws : (rehearsalDraws ps.group c.decryptWithProof 3 k' source).outcome = .ok ()) :
    (i ≤ t.threshold ∨ t.parties < i + t.threshold →
      ∃ quorum, (rehearseDecryption t c der k' ⟨source, cards⟩).outcome
        = .error (.quorumRejected quorum) ∧ i ∈ quorum) ∧
    (t.threshold < i → i + t.threshold ≤ t.parties →
      (rehearseDecryption t c der k' ⟨source, cards⟩).outcome = .ok 3) := by
  obtain ⟨hi, quorums, hquorums, hend⟩ :=
    rehearse_outcome hp hq ht hlen hsize hgen hdamaged hdraws
  have hcover := exists_quorum_iff hquorums hi
  cases hfind : quorums.find? (i ∈ ·) with
  | none =>
    rw [hfind] at hend
    have hnone : ¬ ∃ quorum ∈ quorums, i ∈ quorum := by
      simpa [List.find?_eq_none] using hfind
    constructor
    · intro h
      exact absurd (hcover.2 h) hnone
    · intro hafter hbefore
      have hless : t.threshold < t.indices.length := by
        rw [t.length_indices]
        omega
      rw [hend, length_of_selectQuorums hquorums hless]
  | some quorum =>
    rw [hfind] at hend
    have hmem : i ∈ quorum := by simpa using List.find?_some hfind
    constructor
    · intro _
      exact ⟨quorum, hend, hmem⟩
    · intro hafter hbefore
      have hends := hcover.1 ⟨quorum, List.mem_of_find?_eq_some hfind, hmem⟩
      omega

/-! ## A rehearsal with large numbers -/

/-- Lucas's test, with powers that are computed. -/
theorem prime_of_powMod {n a : Nat} (hn : 1 < n) (hfull : powMod a (n - 1) n = 1)
    (hpart : ∀ r, r.Prime → r ∣ n - 1 → powMod a ((n - 1) / r) n ≠ 1) : n.Prime := by
  have hone : ∀ e, (a : ZMod n) ^ e = 1 ↔ powMod a e n = 1 := by
    intro e
    rw [powMod_eq, ← Nat.cast_pow, ← Nat.cast_one, ZMod.natCast_eq_natCast_iff',
      Nat.mod_eq_of_lt hn]
  refine lucas_primality n (a : ZMod n) ((hone _).2 hfull) ?_
  intro r hr hdvd h
  exact hpart r hr hdvd ((hone _).1 h)

/-- Parameters whose blocks have fourteen octets. -/
def wideParameters : Parameters where
  group := ⟨2 ^ 23 * 10 ^ 27 + 3, by decide, by decide⟩
  generator := 4
  electionId := "council"
  generates := by decide +kernel

theorem wideParameters_order_prime : wideParameters.group.order.Prime := by
  show Nat.Prime (2 ^ 22 * 10 ^ 27 + 1)
  apply prime_of_powMod (a := 3) (by decide) (by decide +kernel)
  intro r hr hdvd
  have hten : r ∣ 10 ^ 49 := dvd_trans hdvd ⟨5 ^ 22, by decide⟩
  have htwo : r ∣ 2 * 5 := hr.dvd_of_dvd_pow hten
  obtain h | h := hr.dvd_mul.1 htwo
  · obtain rfl := (Nat.prime_dvd_prime_iff_eq hr Nat.prime_two).1 h
    decide +kernel
  · obtain rfl := (Nat.prime_dvd_prime_iff_eq hr Nat.prime_five).1 h
    decide +kernel

theorem wideParameters_modulus_prime : wideParameters.group.modulus.Prime := by
  show Nat.Prime (2 ^ 23 * 10 ^ 27 + 3)
  apply prime_of_powMod (a := 5) (by decide) (by decide +kernel)
  intro r hr hdvd
  have hsplit : r ∣ 2 * (2 ^ 22 * 10 ^ 27 + 1) := dvd_trans hdvd ⟨1, by decide⟩
  obtain h | h := hr.dvd_mul.1 hsplit
  · obtain rfl := (Nat.prime_dvd_prime_iff_eq hr Nat.prime_two).1 h
    decide +kernel
  · obtain rfl := (Nat.prime_dvd_prime_iff_eq hr wideParameters_order_prime).1 h
    decide +kernel

/-- Five parties, two of whom are needed. -/
def twoOfFive : Threshold := ⟨5, 2, by decide, by decide⟩

/-- A generation with the polynomial `7 + 3 * x`. -/
def wideRun : Run Session ProtocolError Bytes :=
  ElectionKey.generate wideParameters twoOfFive Config.standard.shareTag
    Config.standard.decryptionIdentifier 10
    ⟨.ofBytes (List.replicate 13 0 ++ [7] ++ List.replicate 13 0 ++ [3]), RecoveredKey.fiveTokens⟩

/-- The private key with the exponent one. -/
def foreignKey : PrivateKey := ⟨wideParameters, 1, by decide⟩

/-- A token on which the private key with the exponent one is the share with an index. -/
def foreignToken (i : Nat) : Token :=
  .memory ⟨"f", [⟨Config.standard.decryptionIdentifier, Config.standard.shareTag, i,
    foreignKey.toDer⟩], 0, false, 1⟩

theorem foreignToken_yields (i : Nat) : (foreignToken i).Yields RecoveredKey.fiveTokens.retry
    Config.standard.shareTag Config.standard.decryptionIdentifier (some ⟨i, foreignKey.toDer⟩) := by
  intro k
  rfl

/-- The tokens after the generation, with the foreign one in a slot. -/
def wideCards (slot : Fin twoOfFive.parties) : Cards :=
  wideRun.state.cards.put slot (foreignToken (slot + 1))

/-- The slot of the third party. -/
def thirdSlot : Fin twoOfFive.parties := ⟨2, by decide⟩

/-- The slot of the fifth party. -/
def lastSlot : Fin twoOfFive.parties := ⟨4, by decide⟩

/-- Octets for three trials. -/
def trialOctets : Source := .ofBytes (List.replicate 84 1)

theorem rehearsalDraws_trialOctets :
    (rehearsalDraws wideParameters.group true 3 10 trialOctets).outcome = .ok () := by
  decide +kernel

theorem wideRun_eq : ∃ der, wideRun = ⟨.ok der, wideRun.state, wideRun.log⟩ := by
  have h : wideRun.outcome = .ok (ElectionKey.publicKey wideParameters
      ⟨wideParameters.group.order, 7, [3], by decide⟩).toDer := by decide +kernel
  exact ⟨_, by rw [← h]⟩

/-- Whichever share is replaced, one is damaged. -/
theorem oneDamaged_wideCards (slot : Fin twoOfFive.parties) :
    OneDamaged twoOfFive Config.standard.shareTag Config.standard.decryptionIdentifier
      wideRun.state.cards (wideCards slot) (Equiv.refl _) slot (slot + 1) := by
  obtain ⟨der, hrun⟩ := wideRun_eq
  obtain ⟨f, hdraw, -, -, -, hlen, hretry, hf, hdealt⟩ := ElectionKey.generate_yields hrun
  have hseven : f = ⟨wideParameters.group.order, 7, [3], by decide⟩ := by
    have hdrawn : (ElectionKey.drawPolynomial wideParameters twoOfFive 10
        (.ofBytes (List.replicate 13 0 ++ [7] ++ List.replicate 13 0 ++ [3]))).outcome
          = .ok ⟨wideParameters.group.order, 7, [3], by decide⟩ := by decide +kernel
    cases hdrawn.symm.trans hdraw
    rfl
  have hvalue : ∀ slot < 5, foreignKey.secret ≠ f.evaluate (slot + 1) := by
    rw [hseven]
    decide +kernel
  have htoken := foreignToken_yields (slot + 1)
  rw [show RecoveredKey.fiveTokens.retry = wideRun.state.cards.retry from hretry.symm] at htoken
  exact oneDamaged_put hlen (by decide +kernel) hdealt rfl (hvalue slot slot.isLt) htoken

/-- The last share is damaged: the second quorum has it. -/
theorem rehearse_one_damaged_last : ∃ der quorum, wideRun.outcome = .ok der ∧
    OneDamaged twoOfFive Config.standard.shareTag Config.standard.decryptionIdentifier
      wideRun.state.cards (wideCards lastSlot) (Equiv.refl _) lastSlot 5 ∧
    (rehearseDecryption twoOfFive Config.standard der 10 ⟨trialOctets, wideCards lastSlot⟩).outcome
      = .error (.quorumRejected quorum) ∧ 5 ∈ quorum := by
  obtain ⟨der, hrun⟩ := wideRun_eq
  have hdamaged := oneDamaged_wideCards lastSlot
  obtain ⟨quorum, hend, hmem⟩ := (rehearse_one_damaged wideParameters_modulus_prime
    wideParameters_order_prime (by decide +kernel) (by decide +kernel) (by decide +kernel) hrun
    hdamaged rehearsalDraws_trialOctets).1 (by decide)
  exact ⟨der, quorum, congrArg Run.outcome hrun, hdamaged, hend, hmem⟩

/-- **Damage between the first and the last shares goes unnoticed**: two of five are needed, the
third share is damaged, and three quorums pass. -/
theorem rehearse_third_of_five_damaged : ∃ der,
    wideRun.outcome = .ok der ∧ wideParameters.group.modulus.Prime ∧
    wideParameters.group.order.Prime ∧ twoOfFive.parties < wideParameters.group.order ∧
    14 ≤ wideParameters.group.messageLength ∧
    OneDamaged twoOfFive Config.standard.shareTag Config.standard.decryptionIdentifier
      wideRun.state.cards (wideCards thirdSlot) (Equiv.refl _) thirdSlot 3 ∧
    (rehearsalDraws wideParameters.group true 3 10 trialOctets).outcome = .ok () ∧
    (rehearseDecryption twoOfFive Config.standard der 10
        ⟨trialOctets, wideCards thirdSlot⟩).outcome
      = .ok 3 := by
  obtain ⟨der, hrun⟩ := wideRun_eq
  have hdamaged := oneDamaged_wideCards thirdSlot
  obtain ⟨-, quorums, hquorums, hend⟩ := rehearse_outcome wideParameters_modulus_prime
    wideParameters_order_prime (by decide +kernel) (by decide +kernel) (by decide +kernel) hrun
    hdamaged rehearsalDraws_trialOctets
  cases hquorums
  exact ⟨der, congrArg Run.outcome hrun, wideParameters_modulus_prime, wideParameters_order_prime,
    by decide +kernel, by decide +kernel, hdamaged, rehearsalDraws_trialOctets, hend⟩

end ThresholdKeys
