import ThresholdKeys.Proofs.Ceremony.Dealing
import ThresholdKeys.Proofs.Ceremony.Losses
import ThresholdKeys.Proofs.Der.Sizes
import ThresholdKeys.Proofs.Sharing.Interpolation

/-!
# An election key is recovered after losses

The shares that a generation dealt lie on the polynomial that it drew. From the blobs of any quorum,
in any order, the key with the constant term for its exponent is put together (`recover_quorum`).
Hence a recovery after losses that leave enough shares gives the key of the generation, and after
more losses it counts what is left (`recover_after_losses`).

The order of the group has to be prime and larger than the number of parties, so that the
differences of their indices have inverses.
-/

namespace ThresholdKeys

open ElGamal

namespace RecoveredKey

variable {ps : Parameters} {t : Threshold} {f : Polynomial}

/-! ## Blobs of a quorum -/

/-- The blob is a private key with the parameters and the exponent, for the party `i`. -/
def Carries (ps : Parameters) (b : IndexedBlob) (i exponent : Nat) : Prop :=
  b.index = i ∧ ∃ sk, PrivateKey.ofDer b.blob = .ok sk ∧ sk.parameters = ps ∧ sk.secret = exponent

theorem carries_shareBlob (hsize : ps.toDer.length < Der.addressLimit)
    (hf : f.modulus = ps.group.order) (i : Nat) :
    Carries ps (ElectionKey.shareBlob ps f hf i) i (f.evaluate i) :=
  ⟨rfl, _, PrivateKey.ofDer_toDer (PrivateKey.length_toDer_lt hsize), rfl, rfl⟩

/-- The blob carries the share. -/
def CarriesShare (ps : Parameters) (b : IndexedBlob) (share : Share) : Prop :=
  Carries ps b share.index share.value

/-- One blob is read if its index is that of a party and if it carries a share of the parameters so
far. -/
theorem readShares_cons_eq_ok_iff {b : IndexedBlob} {rest : List IndexedBlob}
    {parameters common : Option Parameters} {shares : List Share} :
    readShares t (b :: rest) parameters = .ok (common, shares) ↔
      t.isIndex b.index = true ∧ ∃ ps share others, (∀ p ∈ parameters, p = ps) ∧
        CarriesShare ps b share ∧ shares = share :: others ∧
        readShares t rest (some ps) = .ok (common, others) := by
  constructor
  · intro h
    rw [readShares] at h
    split at h
    · cases h
    next hindex =>
    have hindex : t.isIndex b.index = true := by simpa using hindex
    have hpos : 0 < b.index := (isIndex_iff.1 hindex).1
    obtain ⟨sk, hder, h⟩ := Outcome.bind_eq_ok.1 h
    split at h
    · cases h
    next hother =>
    rw [Share.of, dif_pos hpos, Outcome.mapError_ok, Outcome.ok_bind] at h
    obtain ⟨⟨_, others⟩, hread, h⟩ := Outcome.bind_eq_ok.1 h
    cases h
    exact ⟨hindex, _, _, others, any_ne_eq_false_iff.1 (Bool.eq_false_of_not_eq_true hother),
      ⟨rfl, sk, Outcome.mapError_eq_ok.1 hder, rfl, rfl⟩, rfl, hread⟩
  · rintro ⟨hindex, ps, ⟨i, value, hpos⟩, others, hps, ⟨rfl, sk, hder, rfl, rfl⟩, rfl, hread⟩
    rw [readShares, hindex, hder, Outcome.mapError_ok, Outcome.ok_bind,
      any_ne_eq_false_iff.2 hps, Share.of, dif_pos hpos, Outcome.mapError_ok, Outcome.ok_bind,
      hread]
    rfl

/-- **What is read** are the shares on the blobs. The blobs have to be of parties, and to agree on
the parameters with each other and with what was read before. -/
theorem readShares_eq_ok_iff {blobs : List IndexedBlob} {parameters : Option Parameters}
    {shares : List Share} :
    readShares t blobs parameters = .ok (some ps, shares) ↔
      (∀ p ∈ parameters, p = ps) ∧ (blobs = [] → parameters = some ps) ∧
        (∀ b ∈ blobs, t.isIndex b.index = true) ∧
        List.Forall₂ (CarriesShare ps) blobs shares := by
  induction blobs generalizing parameters shares with
  | nil =>
    rw [readShares, List.forall₂_nil_left_iff]
    constructor
    · intro h
      cases h
      exact ⟨fun p hp => (Option.some.inj hp).symm, fun _ => rfl, by simp, rfl⟩
    · rintro ⟨-, hps, -, rfl⟩
      rw [hps rfl]
  | cons b rest ih =>
    rw [readShares_cons_eq_ok_iff, List.forall₂_cons_left_iff]
    constructor
    · rintro ⟨hindex, ps', share, others, hps, hb, rfl, h⟩
      obtain ⟨hsame, -, hrest, hread⟩ := ih.1 h
      obtain rfl : ps' = ps := hsame ps' rfl
      exact ⟨hps, by simp, List.forall_mem_cons.2 ⟨hindex, hrest⟩, share, others, hb, hread, rfl⟩
    · rintro ⟨hps, -, hindex, share, others, hb, hread, rfl⟩
      obtain ⟨hfirst, hrest⟩ := List.forall_mem_cons.1 hindex
      exact ⟨hfirst, ps, share, others, hps, hb, rfl,
        ih.2 ⟨by simp, fun _ => rfl, hrest, hread⟩⟩

/-- **Whose key is put together**: enough blobs of parties that carry shares with one set of
parameters, if the shares interpolate to the exponent. -/
theorem recover_eq_ok_iff {blobs : List IndexedBlob} {key : PrivateKey} :
    recover t blobs = .ok key ↔
      t.threshold ≤ blobs.length ∧ (∀ b ∈ blobs, t.isIndex b.index = true) ∧
        ∃ shares, List.Forall₂ (CarriesShare key.parameters) blobs shares ∧
          interpolateAtZero shares key.parameters.group.order = .ok key.secret := by
  have hpos := t.threshold_pos
  rw [recover, Outcome.bind_eq_ok]
  constructor
  · rintro ⟨_, henough, h⟩
    obtain ⟨⟨parameters, shares⟩, hread, h⟩ := Outcome.bind_eq_ok.1 h
    cases parameters with
    | none => cases h
    | some ps =>
      obtain ⟨-, -, hindex, hcarries⟩ := readShares_eq_ok_iff.1 hread
      obtain ⟨secret, hsecret, h⟩ := Outcome.bind_eq_ok.1 h
      have hkey := Outcome.mapError_eq_ok.1 h
      unfold PrivateKey.of at hkey
      split at hkey
      · cases hkey
        exact ⟨requireThreshold_eq_ok_iff.1 henough, hindex, shares, hcarries,
          Outcome.mapError_eq_ok.1 hsecret⟩
      · cases hkey
  · rintro ⟨henough, hindex, shares, hcarries, hsecret⟩
    have hne : blobs ≠ [] := List.ne_nil_of_length_pos (by omega)
    have hread : readShares t blobs none = .ok (some key.parameters, shares) :=
      readShares_eq_ok_iff.2 ⟨by simp, fun hnil => absurd hnil hne, hindex, hcarries⟩
    refine ⟨(), requireThreshold_eq_ok_iff.2 henough, ?_⟩
    rw [hread, Outcome.ok_bind]
    dsimp only
    rw [hsecret, Outcome.mapError_ok, Outcome.ok_bind, PrivateKey.of, dif_pos key.secret_lt]
    rfl

variable {blob : Nat → IndexedBlob} {exponent : Nat → Nat}

/-- What a quorum puts together is what its shares interpolate. -/
theorem recover_eq_interpolate {indices : List Nat} (hquorum : IsQuorum t indices)
    (hblob : ∀ i ∈ indices, Carries ps (blob i) i (exponent i)) :
    ∃ shares : List Share, shares.map Share.index = indices ∧
      (∀ s ∈ shares, s.value = exponent s.index) ∧
      recover t (indices.map blob) = (do
        let secret ← (interpolateAtZero shares ps.group.order).mapError .ofSharing
        (PrivateKey.of ps secret).mapError .ofArithmetic) := by
  have henough : t.threshold ≤ (indices.map blob).length := by simpa using hquorum.enough
  have hne : indices.map blob ≠ [] := List.map_eq_nil_iff.not.2 hquorum.ne_nil
  have hindex : ∀ i ∈ indices, 0 < i := fun i hi => (isIndex_iff.1 (hquorum.isIndex i hi)).1
  have hblobs : indices.map blob = indices.attach.map fun i => blob i.1 := by simp
  let shares : List Share := indices.attach.map fun i => ⟨i.1, exponent i.1, hindex i.1 i.2⟩
  have hmap : shares.map Share.index = indices := by simp [shares, Function.comp_def]
  have hval : ∀ s ∈ shares, s.value = exponent s.index := List.forall_mem_map.2 fun i _ => rfl
  have hparties : ∀ b ∈ indices.map blob, t.isIndex b.index = true :=
    List.forall_mem_map.2 fun i hi => by rw [(hblob i hi).1, hquorum.isIndex i hi]
  have hcarries : List.Forall₂ (CarriesShare ps) (indices.map blob) shares := by
    rw [hblobs, List.forall₂_map_left_iff, List.forall₂_map_right_iff, List.forall₂_same]
    exact fun i _ => hblob i.1 i.2
  have hread : readShares t (indices.map blob) none = .ok (some ps, shares) :=
    readShares_eq_ok_iff.2 ⟨by simp, fun hnil => absurd hnil hne, hparties, hcarries⟩
  refine ⟨shares, hmap, hval, ?_⟩
  rw [recover, requireThreshold_eq_ok_iff.2 henough, Outcome.ok_bind, hread, Outcome.ok_bind]

/-- A quorum puts together the key whose exponent its shares interpolate. -/
theorem recover_blobs {indices : List Nat} (hquorum : IsQuorum t indices)
    (hblob : ∀ i ∈ indices, Carries ps (blob i) i (exponent i)) :
    ∃ shares : List Share, shares.map Share.index = indices ∧
      (∀ s ∈ shares, s.value = exponent s.index) ∧
      ∀ {r : Nat} (hr : r < ps.group.order),
        interpolateAtZero shares ps.group.order = .ok r →
          recover t (indices.map blob) = .ok ⟨ps, r, hr⟩ := by
  obtain ⟨shares, hmap, hval, hrecover⟩ := recover_eq_interpolate hquorum hblob
  refine ⟨shares, hmap, hval, fun hr hinter => ?_⟩
  rw [hrecover, hinter, Outcome.mapError_ok, Outcome.ok_bind, PrivateKey.of, dif_pos hr]
  rfl

/-- A quorum whose indices differ by units recovers the key. -/
theorem recover_of_separated (hf : f.modulus = ps.group.order)
    (hdegree : f.degree = t.threshold - 1) (hconstant : f.constant < ps.group.order)
    {indices : List Nat} (hquorum : IsQuorum t indices) (hs : Separated indices ps.group.order)
    (hblob : ∀ i ∈ indices, Carries ps (blob i) i (f.evaluate i)) :
    recover t (indices.map blob) = .ok ⟨ps, f.constant, hconstant⟩ := by
  have hpos := t.threshold_pos
  have henough := hquorum.enough
  obtain ⟨shares, hmap, hval, hrecover⟩ := recover_blobs hquorum hblob
  have hlen : shares.length = indices.length := by rw [← hmap, List.length_map]
  refine hrecover hconstant ?_
  have h := interpolateAtZero_of_separated f shares hval (by rw [hmap]; exact hquorum.nodup)
    (by omega) (by rwa [hmap, hf])
  rwa [hf, Nat.mod_eq_of_lt hconstant] at h

/-- **A quorum recovers the key.** -/
theorem recover_quorum (hq : ps.group.order.Prime) (ht : t.parties < ps.group.order)
    (hf : f.modulus = ps.group.order) (hdegree : f.degree = t.threshold - 1)
    (hconstant : f.constant < ps.group.order) {indices : List Nat} (hquorum : IsQuorum t indices)
    (hblob : ∀ i ∈ indices, Carries ps (blob i) i (f.evaluate i)) :
    recover t (indices.map blob) = .ok ⟨ps, f.constant, hconstant⟩ :=
  recover_of_separated hf hdegree hconstant hquorum
    (separated_of_isIndex hq ht.le hquorum.isIndex) hblob

/-- **A quorum with one wrong share recovers another key.** -/
theorem recover_damaged (hq : ps.group.order.Prime) (ht : t.parties < ps.group.order)
    (hf : f.modulus = ps.group.order) (hdegree : f.degree = t.threshold - 1) {indices : List Nat}
    (hquorum : IsQuorum t indices) (hblob : ∀ i ∈ indices, Carries ps (blob i) i (exponent i))
    {i : Nat} (hi : i ∈ indices) (hothers : ∀ j ∈ indices, j ≠ i → exponent j = f.evaluate j)
    (hlt : exponent i < ps.group.order) (hwrong : exponent i ≠ f.evaluate i) :
    ∃ sk : PrivateKey, recover t (indices.map blob) = .ok sk ∧ sk.parameters = ps ∧
      sk.secret ≠ f.constant := by
  have hpos := t.threshold_pos
  have henough := hquorum.enough
  obtain ⟨shares, hmap, hval, hrecover⟩ := recover_blobs hquorum hblob
  have hlen : shares.length = indices.length := by rw [← hmap, List.length_map]
  have hunit := isUnit_basisNumerator hq ht hquorum.nodup hquorum.isIndex i
  have hne : (exponent i : ZMod f.modulus) ≠ f.evaluate i := fun h =>
    hwrong ((natCast_inj_of_lt (hf ▸ hlt) (evaluate_lt f i)).1 h)
  rw [← hf] at hunit
  obtain ⟨r, hr, hrlt, hrne⟩ := interpolateAtZero_ne f hval (by rw [hmap]; exact hquorum.nodup)
    (by omega) (by rw [hmap, hf]; exact separated_of_isIndex hq ht.le hquorum.isIndex)
    (i := i) (by rwa [hmap]) (by rwa [hmap]) (by rwa [hmap]) hne
  rw [hf] at hr hrlt
  exact ⟨_, hrecover hrlt hr, rfl, fun h => hrne (congrArg _ h)⟩

theorem recover_tooFew {blobs : List IndexedBlob} (h : blobs.length < t.threshold) :
    recover t blobs = .error (.tooFewShares blobs.length t.threshold) := by
  rw [recover, requireThreshold, if_pos h]
  rfl

/-! ## What is left after losses -/

/-- The indices of the parties whose slots are not in `lost`. -/
def remaining (parties : Nat) (lost : List Nat) : List Nat :=
  ((List.range parties).filter (· ∉ lost)).map (· + 1)

theorem filterMap_without (blob : Nat → IndexedBlob) (lost l : List Nat) :
    l.filterMap (without (fun j => some (blob (j + 1))) lost)
      = ((l.filter (· ∉ lost)).map (· + 1)).map blob := by
  induction l with
  | nil => rfl
  | cons j l ih =>
    by_cases hj : j ∈ lost
    · simpa [without, hj] using ih
    · simpa [without, hj] using ih

theorem nodup_remaining (parties : Nat) (lost : List Nat) : (remaining parties lost).Nodup :=
  (List.nodup_range.filter _).map (add_left_injective 1)

theorem isIndex_remaining {lost : List Nat} {i : Nat} (h : i ∈ remaining t.parties lost) :
    t.isIndex i = true := by
  obtain ⟨j, hj, rfl⟩ := List.mem_map.1 h
  have hlt := List.mem_range.1 (List.mem_filter.1 hj).1
  exact isIndex_iff.2 ⟨by omega, by omega⟩

theorem length_remaining {parties : Nat} {lost : List Nat} (hnodup : lost.Nodup)
    (hlost : ∀ j ∈ lost, j < parties) :
    (remaining parties lost).length = parties - lost.length := by
  have hset : ((List.range parties).filter (· ∉ lost)).toFinset
      = Finset.range parties \ lost.toFinset := by
    ext j
    simp
  have hsub : lost.toFinset ⊆ Finset.range parties := fun j hj =>
    Finset.mem_range.2 (hlost j (List.mem_toFinset.1 hj))
  rw [remaining, List.length_map, ← List.toFinset_card_of_nodup (List.nodup_range.filter _), hset,
    Finset.card_sdiff_of_subset hsub, Finset.card_range, List.toFinset_card_of_nodup hnodup]

/-! ## From the generation to the recovery -/

theorem ofCards_outcome {cards cards' : Cards} {tag identifier : Bytes} {k : Nat}
    {log : List LogRecord} {blobs : List IndexedBlob}
    (h : collectPresent t tag identifier k cards = ⟨.ok blobs, cards', log⟩) (withProof : Bool) :
    (ofCards t tag identifier withProof k cards).outcome
      = (recover t blobs).bind fun key => .ok ⟨key, withProof⟩ := by
  rw [ofCards, Proc.bind_apply_ok h, ofBlobs]
  cases recover t blobs <;> rfl

/-- What the slots of the parties have after a generation. -/
def dealtShares (ps : Parameters) (f : Polynomial) (hf : f.modulus = ps.group.order) (slot : Nat) :
    Option IndexedBlob := some (ElectionKey.shareBlob ps f hf (slot + 1))

section Left

variable {tag identifier : Bytes} {cards : Cards} {lost : List Nat}

/-- The blobs that are collected when the shares in `lost` are. -/
theorem collectPresent_without (hf : f.modulus = ps.group.order)
    (hlen : cards.tokens.length = t.parties)
    (hfinds : ∀ j < t.parties,
      cards.Finds tag identifier j (without (dealtShares ps f hf) lost j)) (k : Nat) :
    ∃ cards' log, collectPresent t tag identifier k cards
      = ⟨.ok ((remaining t.parties lost).map (ElectionKey.shareBlob ps f hf)), cards', log⟩ := by
  have hindex : ∀ j b, without (dealtShares ps f hf) lost j = some b → b.index = j + 1 := by
    intro j b hb
    by_cases hj : j ∈ lost
    · rw [without, if_pos hj] at hb
      cases hb
    · rw [without, if_neg hj] at hb
      cases hb
      rfl
  have h := collectPresent_yields (apart_of_order hindex) (placed_of_order hindex) hlen
    (fun j hj => (hfinds j hj).yields) k
  rwa [List.filterMap_map, Function.id_comp, show without (dealtShares ps f hf) lost
    = without (fun j => some (ElectionKey.shareBlob ps f hf (j + 1))) lost from rfl,
    filterMap_without] at h

/-- Enough slots are left: the key is recovered. -/
theorem ofCards_enough (hq : ps.group.order.Prime) (ht : t.parties < ps.group.order)
    (hsize : ps.toDer.length < Der.addressLimit) (hf : f.modulus = ps.group.order)
    (hdegree : f.degree = t.threshold - 1) (hconstant : f.constant < ps.group.order)
    (hlen : cards.tokens.length = t.parties)
    (hfinds : ∀ j < t.parties,
      cards.Finds tag identifier j (without (dealtShares ps f hf) lost j))
    (hnodup : lost.Nodup) (hlost : ∀ j ∈ lost, j < t.parties)
    (henough : t.threshold ≤ t.parties - lost.length) (k : Nat) (withProof : Bool) :
    (ofCards t tag identifier withProof k cards).outcome
      = .ok ⟨⟨ps, f.constant, hconstant⟩, withProof⟩ := by
  obtain ⟨cards', log, hcollect⟩ := collectPresent_without hf hlen hfinds k
  have hquorum : IsQuorum t (remaining t.parties lost) :=
    ⟨nodup_remaining _ _, fun i hi => isIndex_remaining hi, by rwa [length_remaining hnodup hlost]⟩
  rw [ofCards_outcome hcollect, recover_quorum hq ht hf hdegree hconstant hquorum
    fun i _ => carries_shareBlob hsize hf i]
  rfl

/-- Too few slots are left: they are counted. -/
theorem ofCards_tooFew (hf : f.modulus = ps.group.order) (hlen : cards.tokens.length = t.parties)
    (hfinds : ∀ j < t.parties,
      cards.Finds tag identifier j (without (dealtShares ps f hf) lost j))
    (hnodup : lost.Nodup) (hlost : ∀ j ∈ lost, j < t.parties)
    (hfew : t.parties - lost.length < t.threshold) (k : Nat) (withProof : Bool) :
    (ofCards t tag identifier withProof k cards).outcome
      = .error (.tooFewShares (t.parties - lost.length) t.threshold) := by
  obtain ⟨cards', log, hcollect⟩ := collectPresent_without hf hlen hfinds k
  have hleft : ((remaining t.parties lost).map (ElectionKey.shareBlob ps f hf)).length
      = t.parties - lost.length := by
    rw [List.length_map, length_remaining hnodup hlost]
  rw [ofCards_outcome hcollect, recover_tooFew (by rwa [hleft]), hleft]
  rfl

end Left

/-- **Generation and recovery agree.** After losses that leave a quorum the key of the generation is
put together; after more losses what is left is counted. -/
theorem recover_after_losses (hq : ps.group.order.Prime) (ht : t.parties < ps.group.order)
    (hsize : ps.toDer.length < Der.addressLimit) {tag identifier : Bytes} {s s' : Session}
    (hcount : s.cards.tokens.length = t.parties)
    (hfresh : ∀ token ∈ s.cards.tokens, ∃ m, token = .memory m ∧
      Available s.cards.retry.retries identifier none m)
    {k : Nat} {der : Bytes} {log : List LogRecord}
    (hgen : ElectionKey.generate ps t tag identifier k s = ⟨.ok der, s', log⟩)
    {losses : List (Nat × Loss)} (hslots : ∀ loss ∈ losses, loss.1 < t.parties)
    (hnodup : (losses.map Prod.fst).Nodup) (k₁ k₂ : Nat) (withProof : Bool) :
    ∃ f cards log', (ElectionKey.drawPolynomial ps t k s.source).outcome = .ok f ∧
      lose tag identifier losses k₁ s'.cards = ⟨.ok (), cards, log'⟩ ∧
      (losses.length ≤ t.parties - t.threshold →
        ∃ r, (ofCards t tag identifier withProof k₂ cards).outcome = .ok r ∧
          r.key.secret = f.constant ∧ PublicKey.ofDer der = .ok r.publicKey) ∧
      (t.parties - t.threshold < losses.length →
        (ofCards t tag identifier withProof k₂ cards).outcome
          = .error (.tooFewShares (t.parties - losses.length) t.threshold)) := by
  have hpos := t.threshold_pos
  have hmajority := t.majority
  obtain ⟨f, hdraw, hdegree, hconstant, rfl, hlen, hf, hfinds⟩ :=
    ElectionKey.generate_finds hcount hfresh hgen
  have hfinds' : ∀ j < t.parties, s'.cards.Finds tag identifier j
      (without (dealtShares ps f hf) [] j) := by simpa [without, dealtShares] using hfinds
  have hheld : ∀ loss ∈ losses, loss.1 < t.parties ∧ ∃ b, dealtShares ps f hf loss.1 = some b := by
    intro loss hloss
    exact ⟨hslots loss hloss, _, rfl⟩
  have hlost : ∀ j ∈ losses.map Prod.fst, j < t.parties := by
    intro j hj
    obtain ⟨loss, hloss, rfl⟩ := List.mem_map.1 hj
    exact hslots loss hloss
  obtain ⟨cards, log₁, hlose, hlen', hleft⟩ := lose_finds k₁ losses hnodup hheld hfinds'
  rw [List.nil_append] at hleft
  have hcount' : cards.tokens.length = t.parties := hlen'.trans hlen
  have hlength : (losses.map Prod.fst).length = losses.length := List.length_map _
  refine ⟨f, cards, log₁, hdraw, hlose, ?_, ?_⟩
  · intro h
    have hrecover := ofCards_enough hq ht hsize hf hdegree hconstant hcount' hleft hnodup hlost
      (by omega) k₂ withProof
    have hpublic : PublicKey.ofDer (ElectionKey.publicKey ps f).toDer
        = .ok (ElectionKey.publicKey ps f) :=
      PublicKey.ofDer_toDer (PublicKey.length_toDer_lt hsize)
    exact ⟨_, hrecover, rfl, hpublic⟩
  · intro h
    rw [← hlength]
    exact ofCards_tooFew hf hcount' hleft hnodup hlost (by omega) k₂ withProof

/-- Parameters of a group of eleven residues. -/
def elevenResidues : Parameters where
  group := ⟨23, by decide, by decide⟩
  generator := 4
  electionId := "council"
  generates := by decide +kernel

/-- Five tokens, two of which fail some calls before they answer. -/
def fiveTokens : Cards where
  tokens := [.memory (.empty "a" 0), .memory (.empty "b" 3), .memory (.empty "c" 0),
    .memory (.empty "d" 1), .memory (.empty "e" 0)]
  retry := .immediate 3

/-- A generation for five parties, three of whom are needed, with octets that an operator put in. -/
def fivePartyRun : Run Session ProtocolError Bytes :=
  ElectionKey.generate elevenResidues ⟨5, 3, by decide, by decide⟩ [1] [2] 10
    ⟨.ofBytes [7, 3, 5], fiveTokens⟩

/-- The fourth token is replaced and the second one loses its blob. -/
def twoLosses : List (Nat × Loss) := [(3, .replaced (.outOfReach "f") rfl), (1, .removed)]

theorem recover_after_two_losses :
    ∃ der cards log r, fivePartyRun.outcome = .ok der ∧
      lose [1] [2] twoLosses 10 fivePartyRun.state.cards = ⟨.ok (), cards, log⟩ ∧
      (ofCards ⟨5, 3, by decide, by decide⟩ [1] [2] true 10 cards).outcome = .ok r ∧
      r.key.secret = 7 ∧ PublicKey.ofDer der = .ok r.publicKey := by
  have hfresh : ∀ token ∈ fiveTokens.tokens, ∃ m, token = .memory m ∧
      Available fiveTokens.retry.retries [2] none m := by
    intro token h
    simp only [fiveTokens, List.mem_cons, List.not_mem_nil, or_false] at h
    rcases h with rfl | rfl | rfl | rfl | rfl
    all_goals exact ⟨_, rfl, rfl, by decide, rfl⟩
  have hdraw : (ElectionKey.drawPolynomial elevenResidues ⟨5, 3, by decide, by decide⟩ 10
      (.ofBytes [7, 3, 5])).outcome = .ok ⟨11, 7, [3, 5], by decide⟩ := by decide +kernel
  obtain ⟨der, hder⟩ : ∃ der, fivePartyRun.outcome = .ok der :=
    ⟨(ElectionKey.publicKey elevenResidues ⟨11, 7, [3, 5], by decide⟩).toDer, by decide +kernel⟩
  have hgen : fivePartyRun = ⟨.ok der, fivePartyRun.state, fivePartyRun.log⟩ := by rw [← hder]
  have hslots : ∀ loss ∈ twoLosses, loss.1 < 5 := by decide
  obtain ⟨f, cards, log, hf, hlose, henough, -⟩ := recover_after_losses (by decide +kernel)
    (by decide +kernel) (by decide +kernel) rfl hfresh hgen hslots (by decide) 10 10 true
  obtain ⟨r, hr, hsecret, hpublic⟩ := henough (by decide)
  have hseven : f = ⟨11, 7, [3, 5], by decide⟩ := by
    cases hdraw.symm.trans hf
    rfl
  exact ⟨_, cards, log, r, hder, hlose, hr, by rw [hsecret, hseven], hpublic⟩

end RecoveredKey

end ThresholdKeys
