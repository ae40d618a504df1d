import ThresholdKeys.Ceremony.ElectionKey
import ThresholdKeys.Proofs.Der.Boundaries
import ThresholdKeys.Proofs.ElGamal.Completeness

/-!
# The check of a ciphertext and its decryption agree

The verdict on a string of octets as a ciphertext says how its decryption ends, and the end of a
decryption says what the verdict is (`decrypt_verdict`). A verdict other than `valid` is a refusal
of its own. After the verdict `valid` both components are residues: then the division goes through,
its quotient is a residue and is decoded, and the number that it stands for is at most the order and
fits a block. All that can still go wrong is that the block is no padded message, and, where a proof
is asked for, that there is no nonce for it.

None of this takes the modulus to be prime.
-/

namespace ThresholdKeys

/-! ## Valid ciphertexts -/

namespace ElGamal

variable {sk : PrivateKey} {ct : Ciphertext}

/-- A valid ciphertext is decrypted, or the block that it hides is no padded message. -/
theorem decrypt_of_valid (h : ct.correctness sk.parameters.group = .valid) :
    (∃ plaintext, sk.decrypt ct = .ok plaintext) ∨ sk.decrypt ct = .error .badPadding := by
  obtain ⟨hblind, hblinded⟩ := Ciphertext.correctness_eq_valid_iff.1 h
  have hfactor := Group.isResidue_pow hblind sk.secret
  obtain ⟨u, hdiv, -⟩ := Group.exists_div hfactor ct.blinded
  obtain ⟨decoded, hle, hdecode⟩ :=
    Group.exists_decode (Group.isResidue_of_div hblinded hfactor hdiv)
  have hfits : decoded < 256 ^ sk.parameters.group.messageLength :=
    Nat.lt_of_le_of_lt hle (lt_pow_byteLength _)
  have hunpad : sk.decrypt ct
      = Block.unpad (Bytes.fixed sk.parameters.group.messageLength decoded) := by
    simp only [PrivateKey.decrypt, h, hdiv, Outcome.ok_bind, hdecode, Bytes.fixed?_of_lt hfits,
      Outcome.ofOption]
  rw [hunpad]
  exact Block.unpad_cases _

/-! ## Verdicts on octets -/

theorem Ciphertext.correctness_ne_malformed (ct : Ciphertext) (G : Group) :
    ct.correctness G ≠ .malformed := by
  unfold correctness
  split <;> simp

/-- Octets are malformed, or they are a ciphertext and have its verdict. -/
theorem checkCiphertext_cases (pk : PublicKey) (der : Bytes) :
    ((∃ e, Ciphertext.ofDer der = .error e) ∧ pk.checkCiphertext der = .malformed) ∨
      ∃ ct, Ciphertext.ofDer der = .ok ct ∧
        pk.checkCiphertext der = ct.correctness pk.parameters.group := by
  have hsettled := Ciphertext.ofDer_settled der
  unfold PublicKey.checkCiphertext
  cases hread : Ciphertext.ofDer der with
  | ok ct => exact .inr ⟨ct, rfl, rfl⟩
  | error e => exact .inl ⟨⟨e, rfl⟩, rfl⟩
  | fault =>
    rw [hread] at hsettled
    cases hsettled
  | stalled =>
    rw [hread] at hsettled
    cases hsettled with
    | stalled hfalse => exact hfalse.elim

end ElGamal

/-! ## The end of a decryption -/

namespace RecoveredKey

open ElGamal

/-- What a plaintext is handed out with: nothing, or a proof for the nonce that is drawn. -/
def reply (r : RecoveredKey) (ct : Ciphertext) (plaintext : Bytes)
    (nonce : Outcome ArithmeticError Nat) : Outcome ProtocolError Decryption :=
  if r.withProof then
    ((fun nonce => ⟨plaintext, some (r.key.answer ct nonce (r.key.challengeOf ct plaintext nonce))⟩)
      <$> nonce).mapError .ofArithmetic
  else .ok ⟨plaintext, none⟩

/-- Reading, decrypting and answering, one after the other. -/
theorem outcome_decrypt (r : RecoveredKey) (c : Bytes) (k : Nat) (s : Source) :
    (r.decrypt c k s).outcome = (do
      let ct ← (Ciphertext.ofDer c).mapError ProtocolError.malformedInput
      let plaintext ← (r.key.decrypt ct).mapError ProtocolError.ofArithmetic
      r.reply ct plaintext (randomBelow r.key.parameters.group.order k s).outcome) := by
  rw [decrypt]
  cases Ciphertext.ofDer c with
  | error e => rfl
  | fault => rfl
  | stalled => rfl
  | ok ct =>
    simp only [Outcome.mapError_ok, Proc.liftM_ok_bind, Outcome.ok_bind, reply]
    split
    · rw [Proc.mapError, PrivateKey.provableDecrypt]
      cases r.key.decrypt ct with
      | ok plaintext =>
        rw [Proc.liftM_ok_bind, Proc.bind_pure_apply rfl]
        rfl
      | error e => rfl
      | fault => rfl
      | stalled => rfl
    · cases r.key.decrypt ct with
      | ok plaintext => rfl
      | error e => rfl
      | fault => rfl
      | stalled => rfl

/-- The reply to a plaintext, once the nonce is drawn or refused. -/
theorem reply_cases (r : RecoveredKey) (ct : Ciphertext) (plaintext : Bytes) (k : Nat)
    (s : Source) :
    let draw := (randomBelow r.key.parameters.group.order k s).outcome
    (∃ D, r.reply ct plaintext draw = .ok D) ∨
      (r.withProof = true ∧ ∃ e, r.reply ct plaintext draw = .error (.entropy e)) ∨
      (r.withProof = true ∧ r.reply ct plaintext draw = .stalled ∧ draw = .stalled) := by
  intro draw
  have hends : draw.Ends _ _ := randomBelow_ends r.key.parameters.group.order_pos k s
  unfold reply
  split
  · next hproof =>
    cases hdraw : draw with
    | ok nonce => exact .inl ⟨_, rfl⟩
    | error e =>
      rw [hdraw] at hends
      obtain ⟨cause, rfl⟩ := hends
      exact .inr (.inl ⟨hproof, cause, rfl⟩)
    | fault =>
      rw [hdraw] at hends
      exact hends.elim
    | stalled => exact .inr (.inr ⟨hproof, rfl, rfl⟩)
  · exact .inl ⟨_, rfl⟩

/-- How a decryption ends that the verdict on the octets goes with. -/
def EndsAs (verdict : Correctness) (withProof : Bool) (draw : Outcome ArithmeticError Nat)
    (o : Outcome ProtocolError Decryption) : Prop :=
  match verdict with
  | .malformed => ∃ e, o = .error (.malformedInput e)
  | .outside => o = .error (.arithmetic .notElement)
  | .nonResidue => o = .error (.arithmetic .notResidue)
  | .valid => (∃ D, o = .ok D) ∨ o = .error (.arithmetic .badPadding) ∨
      (withProof = true ∧ ∃ e, o = .error (.entropy e)) ∨
      (withProof = true ∧ o = .stalled ∧ draw = .stalled)

/-- Every decryption ends as its verdict says. -/
theorem decrypt_endsAs (r : RecoveredKey) (c : Bytes) (k : Nat) (s : Source) :
    EndsAs (r.checkCorrectness c) r.withProof
      (randomBelow r.key.parameters.group.order k s).outcome (r.decrypt c k s).outcome := by
  rw [outcome_decrypt]
  obtain ⟨⟨e, hread⟩, hverdict⟩ | ⟨ct, hread, hverdict⟩ := checkCiphertext_cases r.publicKey c
  · rw [checkCorrectness, hverdict, hread]
    exact ⟨e, rfl⟩
  · have hgroup : r.publicKey.parameters.group = r.key.parameters.group := rfl
    rw [checkCorrectness, hverdict, hread, hgroup, Outcome.mapError_ok, Outcome.ok_bind]
    cases hct : ct.correctness r.key.parameters.group with
    | malformed => exact absurd hct (ct.correctness_ne_malformed _)
    | outside =>
      rw [PrivateKey.decrypt, hct]
      rfl
    | nonResidue =>
      rw [PrivateKey.decrypt, hct]
      rfl
    | valid =>
      rcases decrypt_of_valid hct with ⟨plaintext, hplain⟩ | hplain
      · rw [hplain]
        rcases r.reply_cases ct plaintext k s with hreply | hreply | hreply
        · exact .inl hreply
        · exact .inr (.inr (.inl hreply))
        · exact .inr (.inr (.inr hreply))
      · rw [hplain]
        exact .inr (.inl rfl)

/-- **The check of a ciphertext and its decryption agree** on every string of octets. Each of the
three refusals of the check is a refusal of the decryption, and the other way round; what is valid
is decrypted, or its padding is refused, or there is no nonce for the proof that was asked for. -/
theorem decrypt_verdict (r : RecoveredKey) (c : Bytes) (k : Nat) (s : Source) :
    ((∃ e, (r.decrypt c k s).outcome = .error (.malformedInput e)) ↔
        r.checkCorrectness c = .malformed) ∧
      ((r.decrypt c k s).outcome = .error (.arithmetic .notElement) ↔
        r.checkCorrectness c = .outside) ∧
      ((r.decrypt c k s).outcome = .error (.arithmetic .notResidue) ↔
        r.checkCorrectness c = .nonResidue) ∧
      (r.checkCorrectness c = .valid →
        (∃ D, (r.decrypt c k s).outcome = .ok D) ∨
        (r.decrypt c k s).outcome = .error (.arithmetic .badPadding) ∨
        (r.withProof = true ∧ ∃ e, (r.decrypt c k s).outcome = .error (.entropy e)) ∨
        (r.withProof = true ∧ (r.decrypt c k s).outcome = .stalled ∧
          (randomBelow r.key.parameters.group.order k s).outcome = .stalled)) := by
  have hends := r.decrypt_endsAs c k s
  generalize (r.decrypt c k s).outcome = o at hends ⊢
  cases hverdict : r.checkCorrectness c with
  | malformed =>
    rw [hverdict] at hends
    obtain ⟨e, rfl⟩ := hends
    simp
  | outside =>
    rw [hverdict] at hends
    cases hends
    simp
  | nonResidue =>
    rw [hverdict] at hends
    cases hends
    simp
  | valid =>
    rw [hverdict] at hends
    refine ⟨?_, ?_, ?_, fun _ => hends⟩
    all_goals
      rcases hends with ⟨D, rfl⟩ | rfl | ⟨-, e, rfl⟩ | ⟨-, rfl, -⟩ <;> simp

end RecoveredKey

end ThresholdKeys
