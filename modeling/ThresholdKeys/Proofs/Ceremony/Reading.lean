import ThresholdKeys.Proofs.Sharing.Interpolation
import ThresholdKeys.Proofs.Ceremony.Verdicts
import ThresholdKeys.Proofs.Der.Shortest
import ThresholdKeys.Proofs.Rsa.Release

/-!
# What is read never crashes

Blobs, ciphertexts, proofs and signatures come from outside, and partial signatures from anybody.
Whatever they are, the procedures that read them settle (`reading_settles`). Every operation with a
domain stays inside of it, either because of a type (a modulus is positive, a threshold is not
zero), or because of a check in front of it, or because the operands were made to fit (a product of
differences of different points is not zero).

One domain is bounded by the machine: the mask of an encoded message has at most `2 ^ 32` blocks.
A modulus comes out of a blob, so that the length of blobs bounds it; in a verification it is the
length of the signature that does.
-/

namespace ThresholdKeys

open Outcome

/-! ## Arithmetic -/

theorem inverse_settled (a m : Nat) : (inverse a m).Settled := by
  unfold inverse
  exact .ite (fun _ => .error _) fun _ => .ite (fun _ => .ok _) fun _ => .error _

theorem signedPower_settled (base : Nat) (exponent : Int) (m : Nat) :
    (signedPower base exponent m).Settled := by
  unfold signedPower
  refine .ite (fun _ => .error _) fun _ => .ite (fun _ => ?_) fun _ => .ok _
  exact (inverse_settled base m).bind fun _ _ => .ok _

theorem basisAtZero_settled (points : List Nat) (i : Nat) {m : Nat} (hm : m ≠ 0) :
    (basisAtZero points i m).Settled := by
  unfold basisAtZero
  refine .ite (fun _ => ?_) fun _ => .error _
  rw [Checked.emod_of_ne hm, Checked.emod_of_ne hm, ok_bind, ok_bind]
  refine (inverse_settled _ m).bind fun unit _ => ?_
  rw [Checked.mod_of_ne hm]
  exact .ok _

/-- A point is different from all other points, however often they are in the list. -/
theorem basisDenominator_ne_zero (points : List Nat) (i : Nat) : basisDenominator points i ≠ 0 := by
  rw [basisDenominator, productOf_eq]
  refine List.prod_ne_zero fun hzero => ?_
  obtain ⟨j, hj, hdiff⟩ := List.mem_map.1 hzero
  have hne : j ≠ i := of_decide_eq_true (List.mem_filter.1 hj).2
  omega

theorem integerBasisAtZero_settled (points : List Nat) (i delta : Nat) :
    (integerBasisAtZero points i delta).Settled := by
  unfold integerBasisAtZero
  refine .ite (fun _ => ?_) fun _ => .error _
  rw [Checked.divide_of_ne (basisDenominator_ne_zero points i), ok_bind]
  exact .ite (fun _ => .ok _) fun _ => .error _

theorem weightedSum_settled (points : List Nat) {m : Nat} (hm : m ≠ 0) (shares : List Share)
    (acc : Nat) : (weightedSum points m shares acc).Settled := by
  induction shares generalizing acc with
  | nil => exact .ok acc
  | cons share rest ih =>
    unfold weightedSum
    refine ((basisAtZero_settled points share.index hm).mapError _).bind fun weight _ => ?_
    rw [Checked.mod_of_ne hm, ok_bind]
    exact ih _

theorem interpolateAtZero_settled (shares : List Share) {m : Nat} (hm : m ≠ 0) :
    (interpolateAtZero shares m).Settled := by
  unfold interpolateAtZero
  refine .ite (fun _ => .error _) fun _ => ?_
  dsimp only
  split
  · exact .error _
  · exact weightedSum_settled _ hm shares 0

/-! ## Proofs of decryption -/

namespace ElGamal

theorem blindingFactor_settled (ps : Parameters) (ct : Ciphertext) (plaintext : Bytes) :
    (blindingFactor ps ct plaintext).Settled := by
  have horder := ps.group.two_mul_order
  unfold blindingFactor
  refine Settles.bind ?_ fun block _ => Settles.bind ?_ fun encoded _ => ?_
  · by_cases hfits : plaintext.length + 3 ≤ ps.group.messageLength
    · rw [Block.pad_eq_ok hfits]
      exact .ok _
    · rw [Block.pad_eq_error (by omega)]
      exact .error _
  · unfold Group.encode
    refine .ite (fun _ => .error _) fun hrange => .ite (fun _ => .ok _) fun _ => ?_
    rw [Checked.sub_of_le (by omega)]
    exact .ok _
  · exact (inverse_settled _ _).bind fun _ _ => .ok _

theorem Proof.verify_settled (proof : Proof) (pk : PublicKey) (ct : Ciphertext)
    (plaintext : Bytes) : (proof.verify pk ct plaintext).Settled := by
  rw [Proof.verify, Proof.verifyWith]
  refine .ite (fun _ => .ok _) fun _ => .ite (fun _ => .ok _) fun _ => ?_
  exact (blindingFactor_settled _ _ _).bind fun _ _ => .ok _

end ElGamal

/-! ## Putting the election key together -/

theorem Share.of_settled (index value : Nat) : (Share.of index value).Settled := by
  unfold Share.of
  exact .dite (fun _ => .ok _) fun _ => .error _

theorem requireThreshold_settled (available : Nat) (t : Threshold) :
    (requireThreshold available t).Settled :=
  .ite (fun _ => .error _) fun _ => .ok _

namespace RecoveredKey

open ElGamal

theorem readShares_settled (t : Threshold) (blobs : List IndexedBlob)
    (parameters : Option Parameters) : (readShares t blobs parameters).Settled := by
  induction blobs generalizing parameters with
  | nil => exact .ok _
  | cons b rest ih =>
    unfold readShares
    refine .ite (fun _ => .error _) fun _ => ?_
    refine ((PrivateKey.ofDer_settled b.blob).mapError _).bind fun sk _ => ?_
    refine .ite (fun _ => .error _) fun _ => ?_
    exact ((Share.of_settled b.index sk.secret).mapError _).bind fun share _ =>
      (ih _).bind fun _ _ => .ok _

theorem recover_settled (t : Threshold) (blobs : List IndexedBlob) :
    (recover t blobs).Settled := by
  unfold recover
  refine (requireThreshold_settled _ t).bind fun _ _ => ?_
  refine (readShares_settled t blobs none).bind fun read _ => ?_
  obtain ⟨parameters, shares⟩ := read
  cases parameters with
  | none => exact .error _
  | some parameters =>
    have horder := parameters.group.order_pos.ne'
    exact ((interpolateAtZero_settled shares horder).mapError _).bind fun secret _ =>
      (PrivateKey.of_settled parameters secret).mapError _

theorem ofBlobs_settles {σ : Type} (t : Threshold) (withProof : Bool) (blobs : List IndexedBlob) :
    (ofBlobs t withProof blobs : Proc σ ProtocolError RecoveredKey).Settles :=
  (Proc.Settles.liftM (recover_settled t blobs)).bind fun _ =>
    (Proc.Settles.note _ _).bind fun _ => .pure _

theorem EndsAs.settles {verdict : Correctness} {withProof : Bool}
    {draw : Outcome ArithmeticError Nat} {o : Outcome ProtocolError Decryption}
    (h : EndsAs verdict withProof draw o) : o.Settles (withProof = true ∧ draw = .stalled) := by
  cases verdict with
  | malformed =>
    obtain ⟨e, rfl⟩ := h
    exact .error _
  | outside =>
    cases h
    exact .error _
  | nonResidue =>
    cases h
    exact .error _
  | valid =>
    rcases h with ⟨D, rfl⟩ | rfl | ⟨-, e, rfl⟩ | ⟨hproof, rfl, hdraw⟩
    · exact .ok D
    · exact .error _
    · exact .error _
    · exact .stalled ⟨hproof, hdraw⟩

/-- A decryption can only wait for the nonce of its proof. -/
theorem decrypt_settles (r : RecoveredKey) (c : Bytes) (k : Nat) (s : Source) :
    (r.decrypt c k s).outcome.Settles (r.withProof = true ∧
      (randomBelow r.key.parameters.group.order k s).outcome = .stalled) :=
  (r.decrypt_endsAs c k s).settles

end RecoveredKey

/-! ## Partial signatures -/

namespace Rsa

theorem productOfPartials_settled (indices : List Nat) (delta n : Nat)
    (partials : List PartialSignature) (acc : Nat) :
    (productOfPartials indices delta n partials acc).Settled := by
  induction partials generalizing acc with
  | nil => exact .ok acc
  | cons p rest ih =>
    unfold productOfPartials
    refine (integerBasisAtZero_settled _ _ _).bind fun weight _ => ?_
    exact (signedPower_settled _ _ _).bind fun power _ => ih _

theorem unitCoefficients_settled (e delta : Nat) : (unitCoefficients e delta).Settled := by
  unfold unitCoefficients
  exact .ite (fun _ => .ok _) fun _ => .error _

theorem combineUnchecked_settled (partials : List PartialSignature) (encoded : Nat)
    (pk : PublicKey) (parties : Nat) : (combineUnchecked partials encoded pk parties).Settled := by
  refine (unitCoefficients_settled _ _).bind fun coefficients _ => Settles.mapError ?_ _
  refine (productOfPartials_settled _ _ _ _ _).bind fun w _ => ?_
  exact (signedPower_settled _ _ _).bind fun left _ => (signedPower_settled _ _ _).bind fun _ _ =>
    .ok _

theorem combine_settles {σ : Type} (partials : List PartialSignature) (encoded : Nat)
    (pk : PublicKey) (parties : Nat) :
    (combine partials encoded pk parties : Proc σ ProtocolError Nat).Settles := by
  refine (Proc.Settles.liftM (combineUnchecked_settled partials encoded pk parties)).bind ?_
  intro y
  split
  · exact .pure y
  · exact (Proc.Settles.note _ _).bind fun _ => .throw _

end Rsa

/-! ## Encoded messages -/

namespace Pss

theorem encode_settled (message salt : Bytes) {emBits : Nat} (h : (emBits + 7) / 8 ≤ 2 ^ 37) :
    (encode message emBits salt).Settled := by
  rw [encode_eq]
  refine .ite (fun _ => .error _) fun _ => .ite (fun _ => .error _) fun _ => ?_
  -- the counter of the mask does not run over
  rw [if_neg (by omega)]
  exact .ok _

theorem verify_settled {ε : Type} (message em : Bytes) {emBits : Nat}
    (h : (emBits + 7) / 8 ≤ 2 ^ 37) : (verify message em emBits : Outcome ε Bool).Settled := by
  by_cases hlen : em.length = (emBits + 7) / 8 ∧ 66 ≤ (emBits + 7) / 8
  · obtain ⟨masked, digest, last, rfl, hmasked, hd⟩ := exists_parts hlen.1 hlen.2
    obtain ⟨accepted, hrun, -⟩ := verify_parts (ε := ε) message last hmasked hd hlen.2 (by omega)
    rw [hrun]
    exact .ok accepted
  · rw [verify_of_length message hlen]
    exact .ok false

end Pss

namespace Rsa

variable {pk : PublicKey}

theorem PublicKey.encodeMessage_settled (message salt : Bytes) (h : pk.bits ≤ 2 ^ 40) :
    (pk.encodeMessage message salt).Settled := by
  have hbits := pk.bits_pos
  rw [encodeMessage, emBits_eq, ok_bind]
  exact (Pss.encode_settled message salt (by omega)).bind fun _ _ => .ok _

/-- The length of a signature that is looked at bounds the modulus. -/
theorem PublicKey.verify_settled {ε : Type} (pk : PublicKey) (message : Bytes) {signature : Bytes}
    (h : signature.length < 2 ^ 37) : (pk.verify message signature : Outcome ε Bool).Settled := by
  have hbits := pk.bits_pos
  unfold PublicKey.verify
  dsimp only
  refine .ite (fun _ => .ok _) fun hlen => .ite (fun _ => .ok _) fun _ => ?_
  have hlength : signature.length = (pk.bits + 7) / 8 := not_not.1 hlen
  rw [emBits_eq, ok_bind]
  split
  · exact Pss.verify_settled _ _ (by omega)
  · exact .ok _

/-- A modulus takes up fewer octets than the share that it is part of. -/
theorem KeyShare.bits_le_toDer (share : KeyShare) :
    share.publicKey.bits ≤ 8 * share.toDer.length := by
  have hnumber := Der.le_length_element Der.integerTag (Der.integerContent share.publicKey.modulus)
  have hall := Der.le_length_element Der.sequenceTag (Der.encodeAll
    [.integer 0, .integer share.publicKey.modulus, .integer share.publicKey.exponent,
      .integer share.exponent])
  have hbits : share.publicKey.bits = bitLength share.publicKey.modulus := rfl
  rw [Der.length_integerContent, ← hbits] at hnumber
  simp only [Der.encodeAll, Der.Item.encode, List.length_append] at hall
  rw [toDer, item, Der.Item.encode]
  simp only [Der.encodeAll, Der.Item.encode]
  omega

/-- The length of a blob bounds the modulus on it. -/
theorem KeyShare.bits_le_of_ofDer {der : Bytes} {share : KeyShare}
    (h : KeyShare.ofDer der = .ok share) : share.publicKey.bits ≤ 8 * der.length :=
  Nat.le_trans share.bits_le_toDer
    (Nat.mul_le_mul_left 8 (KeyShare.expands_of_ofDer h).length_le)

end Rsa

/-! ## Signers -/

namespace Signers

open Rsa

variable {t : Threshold} {blobs : List IndexedBlob} {s : Signers}

theorem readShares_settled (t : Threshold) (blobs : List IndexedBlob)
    (publicKey : Option PublicKey) (before : List (Nat × KeyShare)) :
    (readShares t blobs publicKey before).Settled := by
  induction blobs generalizing publicKey before with
  | nil => exact .ok _
  | cons b rest ih =>
    unfold readShares
    refine .ite (fun _ => .error _) fun _ => .ite (fun _ => .error _) fun _ => ?_
    refine ((KeyShare.ofDer_settled b.blob).mapError _).bind fun share _ => ?_
    exact .ite (fun _ => .error _) fun _ => ih _ _

theorem ofBlobs_settled (t : Threshold) (blobs : List IndexedBlob) :
    (ofBlobs t blobs).Settled := by
  unfold ofBlobs
  refine (requireThreshold_settled _ t).bind fun _ _ => ?_
  refine (readShares_settled t blobs none []).bind fun read _ => ?_
  obtain ⟨publicKey, shares⟩ := read
  cases publicKey with
  | none => exact .error _
  | some publicKey => exact (unitCoefficients_settled _ _).bind fun _ _ => .ok _

/-- Short blobs carry short keys. -/
theorem bits_le_of_carries {pk : PublicKey} {shares : List (Nat × KeyShare)}
    (h : List.Forall₂ (Carries pk) blobs shares) (hblobs : ∀ b ∈ blobs, b.blob.length < 2 ^ 37) :
    ∀ x ∈ shares, x.2.publicKey = pk ∧ pk.bits ≤ 2 ^ 40 := by
  induction h with
  | nil => simp
  | @cons b x rest shares hb _ ih =>
    obtain ⟨hblob, hrest⟩ := List.forall_mem_cons.1 hblobs
    obtain ⟨-, hshare, hkey⟩ := hb
    have hbits := KeyShare.bits_le_of_ofDer hshare
    rw [hkey] at hbits
    exact List.forall_mem_cons.2 ⟨⟨hkey, by omega⟩, ih hrest⟩

/-- There are as many signers as it takes. -/
theorem shares_ne_nil (h : ofBlobs t blobs = .ok s) : s.shares ≠ [] := by
  obtain ⟨hquorum, hcarries, -⟩ := ofBlobs_eq_ok_iff.1 h
  intro hnil
  rw [hnil, List.forall₂_nil_right_iff] at hcarries
  exact hquorum.ne_nil (List.map_eq_nil_iff.2 hcarries)

/-- Signers whose blobs are short sign for a short key. -/
theorem bits_le_of_ofBlobs (h : ofBlobs t blobs = .ok s)
    (hblobs : ∀ b ∈ blobs, b.blob.length < 2 ^ 37) :
    s.publicKey.bits ≤ 2 ^ 40 ∧ ∀ x ∈ s.shares, x.2.publicKey = s.publicKey := by
  have hshares := bits_le_of_carries (ofBlobs_eq_ok h) hblobs
  obtain ⟨x, hx⟩ := List.exists_mem_of_ne_nil _ (shares_ne_nil h)
  exact ⟨(hshares x hx).2, fun y hy => (hshares y hy).1⟩

theorem partialSignatures_settled (message salt : Bytes) {pk : PublicKey}
    (hkey : pk.bits ≤ 2 ^ 40) {shares : List (Nat × KeyShare)}
    (h : ∀ x ∈ shares, x.2.publicKey = pk) : (partialSignatures message salt shares).Settled := by
  induction shares with
  | nil => exact .ok _
  | cons x rest ih =>
    obtain ⟨rfl, hrest⟩ := List.forall_mem_cons.1 h
    unfold partialSignatures
    refine Settles.bind (Settles.mapError ?_ _) fun value _ => (ih hrest).bind fun _ _ => .ok _
    exact (PublicKey.encodeMessage_settled message salt hkey).bind fun _ _ => .ok _

theorem signWith_settles {σ : Type} (message salt : Bytes) (hkey : s.publicKey.bits ≤ 2 ^ 40)
    (h : ∀ x ∈ s.shares, x.2.publicKey = s.publicKey) :
    (s.signWith message salt : Proc σ ProtocolError Bytes).Settles := by
  refine (Proc.Settles.liftM (partialSignatures_settled message salt hkey h)).bind fun ps => ?_
  refine (Proc.Settles.liftM
    ((PublicKey.encodeMessage_settled message salt hkey).mapError _)).bind fun encoded => ?_
  refine (combine_settles ps encoded s.publicKey s.parties).bind fun y => ?_
  exact (Proc.Settles.liftM (settled_ofOption _ _)).bind fun _ =>
    (Proc.Settles.note _ _).bind fun _ => .pure _

/-- Signers can only wait for their salt. -/
theorem sign_settles (h : ofBlobs t blobs = .ok s)
    (hblobs : ∀ b ∈ blobs, b.blob.length < 2 ^ 37) (message : Bytes) (k : Nat) (source : Source) :
    (s.sign message k source).outcome.Settles
      ((draw Pss.saltLength k source).outcome = .stalled) := by
  obtain ⟨hkey, hshares⟩ := bits_le_of_ofBlobs h hblobs
  refine Proc.settles_bind_run ?_ fun salt _ => ?_
  · exact (Settles.of_ends (draw_ends Pss.saltLength k source)).mapError _
  · exact .of_settled (signWith_settles message salt hkey hshares k _)

end Signers

/-! ## All of them -/

/-- **What is read never crashes.** Whatever the blobs, the ciphertexts, the proofs, the partial
signatures and the signatures are, reading them ends with a value or with a refusal, as long as
blobs and signatures have less than `2 ^ 37` octets. The only stalls are those of a source that has
no nonce or no salt to give. -/
theorem reading_settles (t : Threshold) (blobs : List IndexedBlob)
    (hblobs : ∀ b ∈ blobs, b.blob.length < 2 ^ 37) :
    (∀ withProof k (s : Source), (RecoveredKey.ofBlobs t withProof blobs k s).outcome.Settled) ∧
      (∀ (r : RecoveredKey) ciphertext k s, (r.decrypt ciphertext k s).outcome.Settles
        (r.withProof = true ∧
          (randomBelow r.key.parameters.group.order k s).outcome = .stalled)) ∧
      (∀ (proof : ElGamal.Proof) pk ct plaintext, (proof.verify pk ct plaintext).Settled) ∧
      (Signers.ofBlobs t blobs).Settled ∧
      (∀ signers, Signers.ofBlobs t blobs = .ok signers → ∀ message k s,
        (signers.sign message k s).outcome.Settles
          ((draw Pss.saltLength k s).outcome = .stalled)) ∧
      (∀ partials encoded pk parties k (s : Source),
        (Rsa.combine partials encoded pk parties k s).outcome.Settled) ∧
      (∀ (pk : Rsa.PublicKey) message signature, signature.length < 2 ^ 37 →
        (pk.verify message signature : Outcome ProtocolError Bool).Settled) := by
  refine ⟨?_, ?_, ?_, ?_, ?_, ?_, ?_⟩
  · intro withProof
    exact RecoveredKey.ofBlobs_settles t withProof blobs
  · intro r
    exact r.decrypt_settles
  · intro proof
    exact proof.verify_settled
  · exact Signers.ofBlobs_settled t blobs
  · intro signers hsigners
    exact Signers.sign_settles hsigners hblobs
  · intro partials encoded pk parties
    exact Rsa.combine_settles partials encoded pk parties
  · intro pk message signature
    exact pk.verify_settled message

/-- Two shares, one of them altered, with the octets of a salt; and a string of the length of a
signature for their key, below its modulus. Neither ends before the arithmetic. -/
theorem reading_settles_altered :
    (∀ b ∈ Signers.alteredBlobs, b.blob.length < 2 ^ 37) ∧
      Signers.ofBlobs ⟨3, 2, by decide, by decide⟩ Signers.alteredBlobs
        = .ok ⟨Signers.fourPrimesKey, Signers.alteredShares, 3⟩ ∧
      (draw Pss.saltLength 1 (.ofBytes (List.replicate 32 0x2a))).outcome
        = .ok (List.replicate 32 0x2a) ∧
      (Signers.sign ⟨Signers.fourPrimesKey, Signers.alteredShares, 3⟩ [0x79, 0x65, 0x73] 1
        (.ofBytes (List.replicate 32 0x2a))).outcome.Settled ∧
      Signers.fourPrimesSignature.length = Signers.fourPrimesKey.length ∧
      Bytes.toNat Signers.fourPrimesSignature < Signers.fourPrimesKey.modulus ∧
      (Signers.fourPrimesKey.verify [0x79, 0x65, 0x73] Signers.fourPrimesSignature :
        Outcome ProtocolError Bool).Settled := by
  have hblobs : ∀ b ∈ Signers.alteredBlobs, b.blob.length < 2 ^ 37 := by decide +kernel
  have hsigners : Signers.ofBlobs ⟨3, 2, by decide, by decide⟩ Signers.alteredBlobs
      = .ok ⟨Signers.fourPrimesKey, Signers.alteredShares, 3⟩ := by
    decide +kernel
  obtain ⟨-, -, -, -, hsign, -, hverify⟩ :=
    reading_settles ⟨3, 2, by decide, by decide⟩ Signers.alteredBlobs hblobs
  have hsalt : (draw Pss.saltLength 1 (.ofBytes (List.replicate 32 0x2a))).outcome
      = .ok (List.replicate 32 0x2a) := by
    decide +kernel
  have hlength : Signers.fourPrimesSignature.length = Signers.fourPrimesKey.length := by
    decide +kernel
  refine ⟨hblobs, hsigners, hsalt, ?_, hlength, by decide +kernel, ?_⟩
  · refine (hsign _ hsigners [0x79, 0x65, 0x73] 1 (.ofBytes (List.replicate 32 0x2a))).mono ?_
    rw [hsalt]
    exact nofun
  · exact hverify Signers.fourPrimesKey _ _ (by decide +kernel)

end ThresholdKeys
