import Mathlib.Data.List.Perm.Basic
import ThresholdKeys.Proofs.Ceremony.Recovery
import ThresholdKeys.Proofs.Rsa.Release
import ThresholdKeys.Proofs.Sharing.Exactness

/-!
# Which lists of blobs are accepted

Holders bring blobs to decrypt or to sign, in any order, with any octets on them. Both procedures
accept a list if it is one of a quorum and every blob on it is read as a share, all with the same
parameters or all with the same public key (`ShareList`), and they accept no other list. The checks
are made at different places: signers look for a second blob of a party before they read it, and a
key that is put together leaves that to the interpolation. Each of them has one condition more.

* The interpolation takes indices that differ by units modulo the order of the group. This is so
  where the order is a prime above the number of parties (`RecoveredKey.recover_accepts_iff`).
* The exponent of signers has no factor in common with the factorial of the number of parties
  (`Signers.ofBlobs_accepts_iff`).

The key that is put together does not depend on the order of the blobs. Of a list that is refused
only that is said: the cause that is named is the first that is met, and does depend on the order.
-/

namespace ThresholdKeys

open ElGamal Rsa

/-! ## Lists of shares -/

/-- The blobs of a quorum, each of them read as a share whose `part` is `common`. -/
structure ShareList {α β : Type} (t : Threshold) (read : Bytes → Outcome DerError α) (part : α → β)
    (common : β) (blobs : List IndexedBlob) : Prop where
  quorum : IsQuorum t (blobs.map IndexedBlob.index)
  agree : ∀ b ∈ blobs, ∃ share, read b.blob = .ok share ∧ part share = common

namespace ShareList

variable {α β : Type} {t : Threshold} {read : Bytes → Outcome DerError α} {part : α → β}
  {common common' : β} {blobs : List IndexedBlob}

theorem ne_nil (h : ShareList t read part common blobs) : blobs ≠ [] :=
  List.map_eq_nil_iff.not.1 h.quorum.ne_nil

/-- The shares of a list have one thing in common. -/
theorem common_unique (h : ShareList t read part common blobs)
    (h' : ShareList t read part common' blobs) : common = common' := by
  obtain ⟨b, hb⟩ := List.exists_mem_of_ne_nil blobs h.ne_nil
  obtain ⟨share, hshare, hcommon⟩ := h.agree b hb
  obtain ⟨share', hshare', hcommon'⟩ := h'.agree b hb
  rw [hshare] at hshare'
  cases hshare'
  exact hcommon.symm.trans hcommon'

end ShareList

/-- A list is related to another one if each of its members is related to something. -/
theorem exists_forall₂_iff {α β : Type} {R : α → β → Prop} {l : List α} :
    (∃ l', List.Forall₂ R l l') ↔ ∀ a ∈ l, ∃ b, R a b := by
  induction l with
  | nil => exact ⟨fun _ => by simp, fun _ => ⟨[], .nil⟩⟩
  | cons a l ih =>
    rw [List.forall_mem_cons, ← ih]
    constructor
    · rintro ⟨_, hall⟩
      cases hall with
      | cons ha hl => exact ⟨⟨_, ha⟩, _, hl⟩
    · rintro ⟨⟨b, ha⟩, l', hl⟩
      exact ⟨b :: l', .cons ha hl⟩

/-! ## The election key -/

namespace RecoveredKey

variable {t : Threshold} {ps : Parameters} {blobs blobs' : List IndexedBlob}

theorem index_of_carriesShare {shares : List Share}
    (h : List.Forall₂ (CarriesShare ps) blobs shares) :
    shares.map Share.index = blobs.map IndexedBlob.index := by
  symm
  rw [← List.forall₂_eq_eq_eq, List.forall₂_map_left_iff, List.forall₂_map_right_iff]
  exact h.imp fun _ _ hb => hb.1

/-- **A key is put together from the lists of shares whose indices differ by units**, and from no
others. -/
theorem recover_accepts_iff :
    (∃ key, recover t blobs = .ok key ∧ key.parameters = ps) ↔
      ShareList t PrivateKey.ofDer PrivateKey.parameters ps blobs ∧
        Separated (blobs.map IndexedBlob.index) ps.group.order := by
  have horder := ps.group.order_pos
  constructor
  · rintro ⟨key, hkey, rfl⟩
    obtain ⟨henough, hindex, shares, hcarries, hsecret⟩ := recover_eq_ok_iff.1 hkey
    obtain ⟨-, hn, hs⟩ := (interpolateAtZero_accepts_iff horder).1 ⟨_, key.secret_lt, hsecret⟩
    rw [index_of_carriesShare hcarries] at hn hs
    refine ⟨⟨⟨hn, List.forall_mem_map.2 hindex, by rwa [List.length_map]⟩, fun b hb => ?_⟩, hs⟩
    obtain ⟨share, -, sk, hsk, hps, -⟩ := exists_forall₂_iff.1 ⟨shares, hcarries⟩ b hb
    exact ⟨sk, hsk, hps⟩
  · rintro ⟨hlist, hs⟩
    have hindex : ∀ b ∈ blobs, t.isIndex b.index = true :=
      List.forall_mem_map.1 hlist.quorum.isIndex
    obtain ⟨shares, hcarries⟩ : ∃ shares, List.Forall₂ (CarriesShare ps) blobs shares := by
      refine exists_forall₂_iff.2 fun b hb => ?_
      obtain ⟨sk, hsk, hps⟩ := hlist.agree b hb
      exact ⟨⟨b.index, sk.secret, (isIndex_iff.1 (hindex b hb)).1⟩, rfl, sk, hsk, hps, rfl⟩
    have hmap := index_of_carriesShare hcarries
    have hne : shares ≠ [] := by
      rintro rfl
      exact hlist.ne_nil (List.forall₂_nil_right_iff.1 hcarries)
    obtain ⟨secret, hlt, hsecret⟩ := (interpolateAtZero_accepts_iff horder).2
      ⟨hne, by rw [hmap]; exact hlist.quorum.nodup, by rwa [hmap]⟩
    exact ⟨⟨ps, secret, hlt⟩, recover_eq_ok_iff.2 ⟨by simpa using hlist.quorum.enough, hindex,
      shares, hcarries, hsecret⟩, rfl⟩

/-- **The order of the blobs does not matter** for the key that is put together. -/
theorem recover_perm (h : blobs.Perm blobs') {key : PrivateKey}
    (hkey : recover t blobs = .ok key) : recover t blobs' = .ok key := by
  obtain ⟨henough, hindex, shares, hcarries, hsecret⟩ := recover_eq_ok_iff.1 hkey
  obtain ⟨shares', hcarries', hshares⟩ := List.perm_comp_forall₂ h.symm hcarries
  have hn := (nodup_of_interpolateAtZero hsecret).2
  have hsame := interpolateAtZero_perm key.parameters.group.order_pos hshares.symm hn
  exact recover_eq_ok_iff.2 ⟨h.length_eq ▸ henough, fun b hb => hindex b (h.mem_iff.2 hb),
    shares', hcarries', hsame ▸ hsecret⟩

/-- Putting a key together from blobs is recovering it, and noting that. -/
theorem ofBlobs_eq_ok_iff {σ : Type} {withProof : Bool} {k : Nat} {s : σ} {r : RecoveredKey} :
    (ofBlobs t withProof blobs k s).outcome = .ok r ↔
      recover t blobs = .ok r.key ∧ r.withProof = withProof := by
  rw [ofBlobs, Proc.outcome_liftM_bind_eq_ok]
  constructor
  · rintro ⟨key, hkey, h⟩
    cases h
    exact ⟨hkey, rfl⟩
  · rintro ⟨hkey, rfl⟩
    exact ⟨r.key, hkey, rfl⟩

end RecoveredKey

/-! ## Signers -/

namespace Signers

variable {t : Threshold} {pk : Rsa.PublicKey} {blobs : List IndexedBlob}

/-- **Signers are accepted with the lists of shares of a key whose exponent is prime to the
factorial**, and with no others. -/
theorem ofBlobs_accepts_iff :
    (∃ s, ofBlobs t blobs = .ok s ∧ s.publicKey = pk) ↔
      ShareList t KeyShare.ofDer KeyShare.publicKey pk blobs ∧
        Nat.Coprime pk.exponent t.parties.factorial := by
  simp only [ofBlobs_eq_ok_iff, factorial_eq]
  constructor
  · rintro ⟨s, ⟨hquorum, hcarries, hcoprime, -⟩, rfl⟩
    refine ⟨⟨hquorum, fun b hb => ?_⟩, hcoprime⟩
    obtain ⟨entry, -, hshare, hkey⟩ := exists_forall₂_iff.1 ⟨s.shares, hcarries⟩ b hb
    exact ⟨entry.2, hshare, hkey⟩
  · rintro ⟨hlist, hcoprime⟩
    obtain ⟨shares, hcarries⟩ : ∃ shares, List.Forall₂ (Carries pk) blobs shares := by
      refine exists_forall₂_iff.2 fun b hb => ?_
      obtain ⟨share, hshare, hkey⟩ := hlist.agree b hb
      exact ⟨(b.index, share), rfl, hshare, hkey⟩
    exact ⟨⟨pk, shares, t.parties⟩, ⟨hlist.quorum, hcarries, hcoprime, rfl⟩, rfl⟩

end Signers

/-! ## Both procedures -/

/-- **Both procedures accept exactly the lists of shares**, whatever the octets on the blobs are.
For the election key the order of the group has to be a prime above the number of parties, and the
key is the same for every order of the blobs; for signers the exponent has to be prime to the
factorial of that number. -/
theorem share_lists_accepted (t : Threshold) (blobs : List IndexedBlob) :
    ((∀ ps, ShareList t PrivateKey.ofDer PrivateKey.parameters ps blobs →
        ps.group.order.Prime ∧ t.parties < ps.group.order) →
      ∀ {σ : Type} (withProof : Bool) (k : Nat) (s : σ),
        (∃ r, (RecoveredKey.ofBlobs t withProof blobs k s).outcome = .ok r) ↔
          ∃ ps, ShareList t PrivateKey.ofDer PrivateKey.parameters ps blobs) ∧
    ((∃ s, Signers.ofBlobs t blobs = .ok s) ↔
      ∃ pk, ShareList t KeyShare.ofDer KeyShare.publicKey pk blobs ∧
        Nat.Coprime pk.exponent t.parties.factorial) ∧
    ∀ blobs', blobs.Perm blobs' → ∀ {σ : Type} (withProof : Bool) (k : Nat) (s : σ) r,
      (RecoveredKey.ofBlobs t withProof blobs k s).outcome = .ok r ↔
        (RecoveredKey.ofBlobs t withProof blobs' k s).outcome = .ok r := by
  refine ⟨fun horder σ withProof k s => ?_, ?_, fun blobs' h σ withProof k s r => ?_⟩
  · simp only [RecoveredKey.ofBlobs_eq_ok_iff]
    constructor
    · rintro ⟨r, hkey, -⟩
      exact ⟨_, (RecoveredKey.recover_accepts_iff.1 ⟨r.key, hkey, rfl⟩).1⟩
    · rintro ⟨ps, hlist⟩
      obtain ⟨hprime, hparties⟩ := horder ps hlist
      obtain ⟨key, hkey, -⟩ := RecoveredKey.recover_accepts_iff.2
        ⟨hlist, separated_of_isIndex hprime hparties.le hlist.quorum.isIndex⟩
      exact ⟨⟨key, withProof⟩, hkey, rfl⟩
  · constructor
    · rintro ⟨s, hs⟩
      exact ⟨_, Signers.ofBlobs_accepts_iff.1 ⟨s, hs, rfl⟩⟩
    · rintro ⟨pk, h⟩
      obtain ⟨s, hs, -⟩ := Signers.ofBlobs_accepts_iff.2 h
      exact ⟨s, hs⟩
  · simp only [RecoveredKey.ofBlobs_eq_ok_iff]
    exact and_congr_left fun _ => ⟨RecoveredKey.recover_perm h, RecoveredKey.recover_perm h.symm⟩

/-- The polynomial `7 + 3 * x` over the order of the group of eleven residues. -/
def sevenModEleven : Polynomial := ⟨11, 7, [3], by decide⟩

/-- The blobs of the third party and of the first one, with shares of an election key. -/
def twoHolders : List IndexedBlob :=
  [3, 1].map (ElectionKey.shareBlob RecoveredKey.elevenResidues sevenModEleven rfl)

theorem shareList_twoHolders :
    ShareList ⟨3, 2, by decide, by decide⟩ PrivateKey.ofDer PrivateKey.parameters
      RecoveredKey.elevenResidues twoHolders := by
  have hsize : RecoveredKey.elevenResidues.toDer.length < Der.addressLimit := by decide +kernel
  have horder : sevenModEleven.modulus = RecoveredKey.elevenResidues.group.order := rfl
  refine ⟨by decide, List.forall_mem_map.2 fun i _ => ?_⟩
  obtain ⟨-, sk, hsk, hps, -⟩ := RecoveredKey.carries_shareBlob hsize horder i
  exact ⟨sk, hsk, hps⟩

theorem share_lists_accepted_two :
    (∃ r, (RecoveredKey.ofBlobs ⟨3, 2, by decide, by decide⟩ true twoHolders 0 ()).outcome = .ok r ∧
      (RecoveredKey.ofBlobs ⟨3, 2, by decide, by decide⟩ true twoHolders.reverse 0 ()).outcome
        = .ok r) ∧
    (¬ ∃ r, (RecoveredKey.ofBlobs ⟨3, 2, by decide, by decide⟩ true (twoHolders ++ twoHolders) 0
      ()).outcome = .ok r) ∧
    ∃ s, Signers.ofBlobs ⟨3, 2, by decide, by decide⟩ Signers.alteredBlobs = .ok s := by
  have hlist := shareList_twoHolders
  have hprime : ∀ ps, ShareList ⟨3, 2, by decide, by decide⟩ PrivateKey.ofDer PrivateKey.parameters
      ps twoHolders → ps.group.order.Prime ∧ 3 < ps.group.order := by
    intro ps h
    rw [← hlist.common_unique h]
    decide +kernel
  have hrepeated : ∀ ps, ¬ ShareList ⟨3, 2, by decide, by decide⟩ PrivateKey.ofDer
      PrivateKey.parameters ps (twoHolders ++ twoHolders) :=
    fun ps h => absurd h.quorum.nodup (by decide)
  have hentries : ∀ x ∈ Signers.alteredShares,
      x.2.toDer.length < Der.lengthLimit ∧ x.2.publicKey = Signers.fourPrimesKey := by
    decide +kernel
  have hsigners : ∀ b ∈ Signers.alteredBlobs,
      ∃ share, KeyShare.ofDer b.blob = .ok share ∧ share.publicKey = Signers.fourPrimesKey := by
    refine List.forall_mem_map.2 fun x hx => ?_
    obtain ⟨hsize, hkey⟩ := hentries x hx
    exact ⟨x.2, KeyShare.ofDer_toDer hsize, hkey⟩
  obtain ⟨hkey, -, horder⟩ := share_lists_accepted ⟨3, 2, by decide, by decide⟩ twoHolders
  obtain ⟨r, hr⟩ := (hkey hprime true 0 ()).2 ⟨_, hlist⟩
  obtain ⟨htwice, -, -⟩ :=
    share_lists_accepted ⟨3, 2, by decide, by decide⟩ (twoHolders ++ twoHolders)
  obtain ⟨-, hsign, -⟩ := share_lists_accepted ⟨3, 2, by decide, by decide⟩ Signers.alteredBlobs
  refine ⟨⟨r, hr, (horder _ (List.reverse_perm _).symm true 0 () r).1 hr⟩, fun h => ?_,
    hsign.2 ⟨Signers.fourPrimesKey, ⟨by decide, hsigners⟩, by decide⟩⟩
  obtain ⟨ps, hps⟩ := (htwice (fun ps h => absurd h (hrepeated ps)) true 0 ()).1 h
  exact hrepeated ps hps

end ThresholdKeys
