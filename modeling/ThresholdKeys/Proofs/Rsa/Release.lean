import ThresholdKeys.Proofs.Rsa.Combination
import ThresholdKeys.Proofs.Rsa.Verification
import ThresholdKeys.Ceremony.SigningKey

/-!
# A released signature verifies

Tokens may hold anything: altered shares, shares of polynomials that have nothing to do with each
other, a modulus with any factors. What signers combine from them is raised to the public exponent
and compared with the encoded message before it is handed out (`combine_eq_ok_iff`), so a signature
that is handed out is the root of an encoding of the message (`signWith_eq_ok_iff`), and roots
verify (`PublicKey.verify_of_powMod`). The key that it verifies under is the one on every token:
blobs are those of signers exactly if they carry shares of one key, and some more
(`ofBlobs_eq_ok_iff`). Nothing is said of how often signers succeed; `Proofs.Rsa.ThresholdSigning`
does for the shares of one polynomial.
-/

namespace ThresholdKeys

open Rsa

namespace Rsa

variable {partials : List PartialSignature} {encoded parties y : Nat} {pk : PublicKey}

theorem combineUnchecked_lt (h : combineUnchecked partials encoded pk parties = .ok y) :
    y < pk.modulus := by
  rw [combineUnchecked, Outcome.bind_eq_ok] at h
  obtain ⟨⟨a, b⟩, -, h⟩ := h
  obtain ⟨w, -, h⟩ := Outcome.bind_eq_ok.1 (Outcome.mapError_eq_ok.1 h)
  obtain ⟨left, -, h⟩ := Outcome.bind_eq_ok.1 h
  obtain ⟨right, -, h⟩ := Outcome.bind_eq_ok.1 h
  cases h
  exact Nat.mod_lt _ pk.modulus_pos

/-- **The check before the release**: combining returns a number exactly if that is a root of the
encoded message. -/
theorem combine_eq_ok_iff {σ : Type} {k : Nat} {state : σ} :
    (combine partials encoded pk parties k state).outcome = .ok y ↔
      combineUnchecked partials encoded pk parties = .ok y ∧
        powMod y pk.exponent pk.modulus = encoded := by
  rw [combine, Proc.outcome_liftM_bind_eq_ok]
  constructor
  · rintro ⟨z, hz, h⟩
    split at h
    · next hroot =>
      cases h
      exact ⟨hz, hroot⟩
    · cases h
  · rintro ⟨hy, hroot⟩
    exact ⟨y, hy, by rw [if_pos hroot]; rfl⟩

end Rsa

namespace Signers

/-! ## The key on the tokens -/

/-- A blob carries a share with the public key `pk`, for the party that the blob names. -/
def Carries (pk : PublicKey) (b : IndexedBlob) (entry : Nat × KeyShare) : Prop :=
  b.index = entry.1 ∧ KeyShare.ofDer b.blob = .ok entry.2 ∧ entry.2.publicKey = pk

variable {t : Threshold} {blobs : List IndexedBlob} {pk : PublicKey}

/-- One blob is read if its index is that of a party that has brought none, and if it carries a
share of the public key so far. -/
theorem readShares_cons_eq_ok_iff {b : IndexedBlob} {rest : List IndexedBlob}
    {publicKey : Option PublicKey} {before : List (Nat × KeyShare)}
    {result : Option PublicKey × List (Nat × KeyShare)} :
    readShares t (b :: rest) publicKey before = .ok result ↔
      t.isIndex b.index = true ∧ b.index ∉ before.map Prod.fst ∧
        ∃ pk entry, (∀ key ∈ publicKey, key = pk) ∧ Carries pk b entry ∧
          readShares t rest (some pk) (before ++ [entry]) = .ok result := by
  have hfresh : before.any (fun entry => decide (entry.1 = b.index)) = false ↔
      b.index ∉ before.map Prod.fst := by
    rw [List.any_eq_false, List.mem_map, not_exists]
    simp
  constructor
  · intro h
    rw [readShares] at h
    split at h
    · cases h
    next hindex =>
    split at h
    · cases h
    next hany =>
    obtain ⟨share, hshare, h⟩ := Outcome.bind_eq_ok.1 h
    split at h
    · cases h
    next hother =>
    exact ⟨by simpa using hindex, hfresh.1 (Bool.eq_false_of_not_eq_true hany), _, (b.index, share),
      any_ne_eq_false_iff.1 (Bool.eq_false_of_not_eq_true hother),
      ⟨rfl, Outcome.mapError_eq_ok.1 hshare, rfl⟩, h⟩
  · rintro ⟨hindex, hnew, pk, ⟨i, share⟩, hkey, ⟨rfl, hshare, rfl⟩, h⟩
    rw [readShares, hindex, hfresh.2 hnew, hshare, Outcome.mapError_ok, Outcome.ok_bind,
      any_ne_eq_false_iff.2 hkey]
    exact h

/-- **What is read** are the shares on the blobs, after those read before. The blobs have to be of
different parties who have brought none, and to agree on the public key with each other and with
what was read before. -/
theorem readShares_eq_ok_iff {publicKey : Option PublicKey} {before shares : List (Nat × KeyShare)}
    (hbefore : (before.map Prod.fst).Nodup) :
    readShares t blobs publicKey before = .ok (some pk, shares) ↔
      (∀ key ∈ publicKey, key = pk) ∧ (blobs = [] → publicKey = some pk) ∧
        (∀ b ∈ blobs, t.isIndex b.index = true) ∧
        (before.map Prod.fst ++ blobs.map IndexedBlob.index).Nodup ∧
        ∃ read, shares = before ++ read ∧ List.Forall₂ (Carries pk) blobs read := by
  induction blobs generalizing publicKey before with
  | nil =>
    rw [readShares]
    constructor
    · intro h
      cases h
      exact ⟨fun key hkey => (Option.some.inj hkey).symm, fun _ => rfl, by simp,
        by simpa using hbefore, [], by simp, .nil⟩
    · rintro ⟨-, hkey, -, -, read, rfl, hread⟩
      cases hread
      rw [hkey rfl, List.append_nil]
  | cons b rest ih =>
    rw [readShares_cons_eq_ok_iff]
    -- the index of the blob stands at the end of the indices read, or in front of those to come
    have hmove : ∀ entry : Nat × KeyShare, b.index = entry.1 →
        (before ++ [entry]).map Prod.fst ++ rest.map IndexedBlob.index
          = before.map Prod.fst ++ (b :: rest).map IndexedBlob.index := by
      intro entry hentry
      simp [hentry]
    constructor
    · rintro ⟨hindex, hnew, pk', entry, hkey, hb, h⟩
      have hnodup : ((before ++ [entry]).map Prod.fst).Nodup := by
        rw [List.map_append, List.nodup_append_comm]
        exact List.nodup_cons.2 ⟨hb.1 ▸ hnew, hbefore⟩
      obtain ⟨hsame, -, hrest, hn, read, rfl, hread⟩ := (ih hnodup).1 h
      obtain rfl : pk' = pk := hsame pk' rfl
      refine ⟨hkey, by simp, List.forall_mem_cons.2 ⟨hindex, hrest⟩, hmove entry hb.1 ▸ hn,
        entry :: read, by simp, .cons hb hread⟩
    · rintro ⟨hkey, -, hindex, hn, read, rfl, hread⟩
      obtain ⟨hfirst, hrest⟩ := List.forall_mem_cons.1 hindex
      cases hread with
      | @cons _ entry _ read hb hread =>
        have hnew : b.index ∉ before.map Prod.fst := fun h =>
          List.disjoint_of_nodup_append hn h (by simp)
        rw [← hmove entry hb.1] at hn
        exact ⟨hfirst, hnew, pk, entry, hkey, hb,
          (ih hn.of_append_left).2 ⟨by simp, fun _ => rfl, hrest, hn, read, by simp, hread⟩⟩

/-- **Who may sign together**: holders of shares of one public key, each of a party of its own and
at least the threshold of them, if the exponent of the key has no factor in common with the
factorial of the number of parties. -/
theorem ofBlobs_eq_ok_iff {s : Signers} :
    ofBlobs t blobs = .ok s ↔
      IsQuorum t (blobs.map IndexedBlob.index) ∧ List.Forall₂ (Carries s.publicKey) blobs s.shares ∧
        Nat.Coprime s.publicKey.exponent (factorial t.parties) ∧ s.parties = t.parties := by
  rw [ofBlobs, Outcome.bind_eq_ok]
  constructor
  · rintro ⟨_, henough, h⟩
    obtain ⟨⟨publicKey, shares⟩, hread, h⟩ := Outcome.bind_eq_ok.1 h
    cases publicKey with
    | none => cases h
    | some pk =>
      obtain ⟨coefficients, hcoefficients, h⟩ := Outcome.bind_eq_ok.1 h
      cases h
      obtain ⟨-, -, hindex, hn, read, rfl, hcarries⟩ := (readShares_eq_ok_iff (by simp)).1 hread
      have hquorum : IsQuorum t (blobs.map IndexedBlob.index) :=
        ⟨hn, List.forall_mem_map.2 hindex, by simpa using requireThreshold_eq_ok_iff.1 henough⟩
      exact ⟨hquorum, hcarries, unitCoefficients_accepts_iff.1 ⟨_, hcoefficients⟩, rfl⟩
  · rintro ⟨hquorum, hcarries, hcoprime, hparties⟩
    have henough : t.threshold ≤ blobs.length := by simpa using hquorum.enough
    have hne : blobs ≠ [] := List.map_eq_nil_iff.not.1 hquorum.ne_nil
    have hread : readShares t blobs none [] = .ok (some s.publicKey, s.shares) :=
      (readShares_eq_ok_iff (by simp)).2 ⟨by simp, fun hnil => absurd hnil hne,
        List.forall_mem_map.1 hquorum.isIndex, hquorum.nodup, s.shares, by simp, hcarries⟩
    obtain ⟨coefficients, hcoefficients⟩ := unitCoefficients_accepts_iff.2 hcoprime
    refine ⟨(), requireThreshold_eq_ok_iff.2 henough, Outcome.bind_eq_ok.2 ⟨_, hread, ?_⟩⟩
    exact Outcome.bind_eq_ok.2 ⟨_, hcoefficients, by rw [← hparties]; rfl⟩

/-- The shares of accepted signers are those on the blobs, and all of them are of their public
key. -/
theorem ofBlobs_eq_ok {s : Signers} (h : ofBlobs t blobs = .ok s) :
    List.Forall₂ (Carries s.publicKey) blobs s.shares :=
  (ofBlobs_eq_ok_iff.1 h).2.1

/-! ## What is released -/

variable {s : Signers} {message salt signature : Bytes}

/-- Signers release exactly the roots they find of the message encoded with the salt, in the octets
of the modulus. -/
theorem signWith_eq_ok_iff {σ : Type} {k : Nat} {state : σ} :
    (s.signWith message salt k state).outcome = .ok signature ↔
      ∃ partials encoded y, partialSignatures message salt s.shares = .ok partials ∧
        s.publicKey.encodeMessage message salt = .ok encoded ∧
        combineUnchecked partials encoded s.publicKey s.parties = .ok y ∧
        powMod y s.publicKey.exponent s.publicKey.modulus = encoded ∧
        signature = Bytes.fixed s.publicKey.length y := by
  rw [signWith, Proc.outcome_liftM_bind_eq_ok]
  constructor
  · rintro ⟨partials, hpartials, h⟩
    obtain ⟨encoded, henc, h⟩ := Proc.outcome_liftM_bind_eq_ok.1 h
    obtain ⟨y, hcombine, h⟩ := Proc.outcome_bind_eq_ok.1 h
    obtain ⟨hy, hroot⟩ := combine_eq_ok_iff.1 hcombine
    rw [Bytes.fixed?_of_lt (PublicKey.lt_pow_length (combineUnchecked_lt hy))] at h
    cases h
    exact ⟨partials, encoded, y, hpartials, Outcome.mapError_eq_ok.1 henc, hy, hroot, rfl⟩
  · rintro ⟨partials, encoded, y, hpartials, henc, hy, hroot, rfl⟩
    refine ⟨partials, hpartials, Proc.outcome_liftM_bind_eq_ok.2
      ⟨encoded, Outcome.mapError_eq_ok.2 henc, Proc.outcome_bind_eq_ok.2
        ⟨y, combine_eq_ok_iff.2 ⟨hy, hroot⟩, ?_⟩⟩⟩
    rw [Bytes.fixed?_of_lt (PublicKey.lt_pow_length (combineUnchecked_lt hy))]
    rfl

/-- Signing is signing with the salt that is drawn. -/
theorem sign_eq_ok_iff {patience : Nat} {source : Source} :
    (s.sign message patience source).outcome = .ok signature ↔
      ∃ salt, (draw Pss.saltLength patience source).outcome = .ok salt ∧
        (s.signWith message salt patience (draw Pss.saltLength patience source).state).outcome
          = .ok signature := by
  rw [sign, Proc.outcome_bind_eq_ok]
  simp only [Proc.mapError, Outcome.mapError_eq_ok]

/-- **A released signature verifies**, whatever is on the tokens: it has the length of the modulus
and is below it, and the key of every token accepts it for the message. -/
theorem released_signature_verifies {ε : Type} (hs : ofBlobs t blobs = .ok s) {patience : Nat}
    {source : Source} (h : (s.sign message patience source).outcome = .ok signature) :
    List.Forall₂ (Carries s.publicKey) blobs s.shares ∧
      signature.length = s.publicKey.length ∧
      Bytes.toNat signature < s.publicKey.modulus ∧
      (s.publicKey.verify message signature : Outcome ε Bool) = .ok true := by
  obtain ⟨salt, -, h⟩ := sign_eq_ok_iff.1 h
  obtain ⟨partials, encoded, y, -, henc, hy, hroot, rfl⟩ := signWith_eq_ok_iff.1 h
  have hlt := combineUnchecked_lt hy
  have hvalue := Bytes.toNat_fixed_of_lt (PublicKey.lt_pow_length hlt)
  exact ⟨ofBlobs_eq_ok hs, Bytes.length_fixed _ _, hvalue.symm ▸ hlt,
    PublicKey.verify_of_powMod henc hlt hroot⟩

/-- A key of 529 binary digits with four prime factors. Its encoded messages are one octet shorter
than its modulus. -/
def fourPrimesKey : PublicKey where
  modulus := (2 ^ 521 - 1) * 3 * 5 * 17
  exponent := standardExponent
  one_lt := one_lt_standardExponent
  exponent_odd := standardExponent_odd
  exponent_lt := by decide +kernel
  modulus_odd := by decide +kernel

/-- The private exponent of that key, modulo the exponent `(2 ^ 521 - 2) * 8` of its units. -/
def fourPrimesExponent : Nat := (1 + 63497 * ((2 ^ 521 - 2) * 8)) / standardExponent

/-- Shares of that exponent for a threshold of two; the first one was altered. -/
def alteredShares : List (Nat × KeyShare) :=
  [(3, ⟨fourPrimesKey, fourPrimesExponent + 15 + (2 ^ 521 - 2) * 8⟩),
    (1, ⟨fourPrimesKey, fourPrimesExponent + 5⟩)]

/-- The blobs with those shares. -/
def alteredBlobs : List IndexedBlob := alteredShares.map fun x => ⟨x.1, x.2.toDer⟩

/-- The signature of a message of three octets that they release, with a salt of equal octets. -/
def fourPrimesSignature : Bytes := Bytes.fixed 67
  (0x414d946d1cdd28f6d2ae59c2d89d95764264fcdc4cdf70b92ed526b27e21706c4b75 * 2 ^ 256 +
    0x4a2cf75af8e241d00c81ab8a5914b659ed223ceda7d612aab9a221a41dceedf2)

theorem released_signature_verifies_four_primes :
    ∃ s signature, ofBlobs ⟨3, 2, by decide, by decide⟩ alteredBlobs = .ok s ∧
      (s.sign [0x79, 0x65, 0x73] 1 (.ofBytes (List.replicate 32 0x2a))).outcome = .ok signature ∧
      List.Forall₂ (Carries fourPrimesKey) alteredBlobs s.shares ∧
      signature.length = 67 ∧ Bytes.toNat signature < (2 ^ 521 - 1) * 3 * 5 * 17 ∧
      (fourPrimesKey.verify [0x79, 0x65, 0x73] signature : Outcome ProtocolError Bool)
        = .ok true := by
  have hs : ofBlobs ⟨3, 2, by decide, by decide⟩ alteredBlobs
      = .ok ⟨fourPrimesKey, alteredShares, 3⟩ := by
    decide +kernel
  have hsign : (sign ⟨fourPrimesKey, alteredShares, 3⟩ [0x79, 0x65, 0x73] 1
      (.ofBytes (List.replicate 32 0x2a))).outcome = .ok fourPrimesSignature := by
    decide +kernel
  obtain ⟨hcarries, hlength, hlt, hverify⟩ := released_signature_verifies hs hsign
  exact ⟨_, _, hs, hsign, hcarries, hlength.trans (by decide +kernel), hlt, hverify⟩

end Signers

end ThresholdKeys
