import ThresholdKeys.Proofs.Der.Formats
import ThresholdKeys.Proofs.Settling

/-!
# Where an encoding ends

An element says how many octets it has. A format is one sequence, so nothing can be cut off an
accepted string or written behind it without notice (`Format.ofDer_prefix_free`).

* `Extends r`: in front of more octets the reader `r` does what it did, and leaves them unread. An
  element is read so, and a sequence is, whatever its content is read with, for that is read apart.
* `Format.ofDer_settled`: whatever the octets are, reading a format ends with a value or a refusal.

Hence what stands behind an accepted string is refused as trailing data. A string that is cut short
is refused because it would be accepted with something behind it otherwise. The causes of that
refusal are not told apart here: the cut may be in a length field or in a content.
-/

namespace ThresholdKeys

/-! ## Readers in front of more octets -/

namespace Der

/-- In front of more octets the reader returns what it returned and leaves them unread, too. -/
def Extends {α : Type} (r : Reader α) : Prop :=
  ∀ ⦃k der v rest log⦄, r k der = ⟨.ok v, rest, log⟩ →
    ∀ more, r k (der ++ more) = ⟨.ok v, rest ++ more, log⟩

namespace Extends

variable {α β : Type} {r : Reader α} {f : α → Reader β}

/-- A step that only computes. -/
theorem liftM (o : Outcome DerError α) : Extends (liftM o : Reader α) := by
  intro k der v rest log hrun more
  cases hrun
  rfl

theorem bind (h : Extends r) (hf : ∀ v, Extends (f v)) : Extends (r >>= f) := by
  intro k der w rest log hrun more
  obtain ⟨v, mid, log₁, log₂, hfirst, hsecond, rfl⟩ := Proc.bind_eq_ok_iff.1 hrun
  exact Proc.bind_eq_ok_iff.2
    ⟨v, mid ++ more, log₁, log₂, h hfirst more, hf v hsecond more, rfl⟩

theorem element (tag : UInt8) : Extends (Reader.element tag) := by
  intro k der content rest log hrun more
  obtain ⟨⟨octets, helement, rfl⟩, rfl⟩ := element_eq_ok_iff.1 hrun
  exact element_eq_ok_iff.2 ⟨⟨octets, helement, List.append_assoc octets rest more⟩, rfl⟩

/-- Octets that are read apart are not those that follow. -/
theorem apart (own : Bytes) (r : Reader α) : Extends (Proc.apart own r : Reader α) := by
  intro k der v rest log hrun more
  unfold Proc.apart at hrun ⊢
  rw [Run.mk.injEq] at hrun ⊢
  obtain ⟨hvalue, rfl, hlog⟩ := hrun
  exact ⟨hvalue, rfl, hlog⟩

/-- A sequence ends where its element does. -/
theorem inSequence (body : Reader α) : Extends (Reader.inSequence body) :=
  (element sequenceTag).bind fun content => apart content _

end Extends

/-- A string is decoded if a reader takes all of it. -/
theorem decode_eq_ok_iff {α : Type} {r : Reader α} {der : Bytes} {v : α} :
    decode r der = .ok v ↔ ∃ log, r 0 der = ⟨.ok v, [], log⟩ := by
  rw [decode, Proc.run, Proc.outcome_bind_eq_ok]
  constructor
  · rintro ⟨w, hread, hlast⟩
    obtain ⟨⟨⟩, hfinish, hreturn⟩ := Proc.outcome_bind_eq_ok.1 hlast
    cases hreturn
    refine ⟨(r 0 der).log, ?_⟩
    cases hrest : (r 0 der).state with
    | nil => rw [← hread, ← hrest]
    | cons x rest =>
      rw [hrest] at hfinish
      cases hfinish
  · rintro ⟨log, hrun⟩
    rw [hrun]
    exact ⟨v, rfl, rfl⟩

/-- What stands behind a string that is decoded is refused. -/
theorem decode_append {α : Type} {r : Reader α} (hr : Extends r) {der more : Bytes} {v : α}
    (h : decode r der = .ok v) (hmore : more ≠ []) :
    decode r (der ++ more) = .error .trailingData := by
  obtain ⟨log, hrun⟩ := decode_eq_ok_iff.1 h
  obtain ⟨x, rest, rfl⟩ := List.exists_cons_of_ne_nil hmore
  rw [decode, Proc.run, Proc.bind_apply_ok (hr hrun _)]
  rfl

/-- Checks that follow the decoding do not come to it. -/
theorem decode_bind_append {α β : Type} {r : Reader α} {f : α → Outcome DerError β}
    (hr : Extends r) {der more : Bytes} {w : β} (h : (decode r der >>= f) = .ok w)
    (hmore : more ≠ []) : (decode r (der ++ more) >>= f) = .error .trailingData := by
  obtain ⟨v, hv, -⟩ := Outcome.bind_eq_ok.1 h
  rw [decode_append hr hv hmore, Outcome.error_bind]

end Der

open Der

/-! ## Formats settle -/

theorem Group.ofTrusted_settled (p : Nat) : (Group.ofTrusted p).Settled := by
  unfold Group.ofTrusted
  exact .dite (fun _ => .ok _) fun _ => .error _

namespace ElGamal

theorem Parameters.of_settled (group : Group) (generator : Nat) (electionId : String) :
    (Parameters.of group generator electionId).Settled := by
  unfold Parameters.of
  exact .dite (fun _ => .ok _) fun _ => .error _

theorem Parameters.reader_settles : Parameters.reader.Settles := by
  refine (Reader.inSequence_settles ?_).bind fun numbers => ?_
  · refine (Reader.identifier_settles _).bind fun _ => Reader.inSequence_settles ?_
    exact Reader.integer_settles.bind fun _ => Reader.integer_settles.bind fun _ =>
      Reader.utf8String_settles.bind fun _ => .pure _
  · refine (Proc.Settles.liftM ?_).bind fun group => .liftM ?_
    · exact (Group.ofTrusted_settled numbers.1).mapError _
    · exact (Parameters.of_settled group numbers.2.1 numbers.2.2).mapError _

theorem PublicKey.of_settled (ps : Parameters) (key : Nat) : (PublicKey.of ps key).Settled := by
  unfold PublicKey.of
  exact .dite (fun _ => .ok _) fun _ => .error _

theorem PublicKey.ofDer_settled (der : Bytes) : (PublicKey.ofDer der).Settled := by
  refine (decode_settled (Reader.inSequence_settles ?_) der).bind fun key _ =>
    (PublicKey.of_settled _ _).mapError _
  exact Parameters.reader_settles.bind fun _ => Reader.integer_settles.bind fun _ => .pure _

theorem PrivateKey.of_settled (ps : Parameters) (secret : Nat) :
    (PrivateKey.of ps secret).Settled := by
  unfold PrivateKey.of
  exact .dite (fun _ => .ok _) fun _ => .error _

theorem PrivateKey.ofDer_settled (der : Bytes) : (PrivateKey.ofDer der).Settled := by
  refine (decode_settled (Reader.inSequence_settles ?_) der).bind fun key _ =>
    (PrivateKey.of_settled _ _).mapError _
  refine Reader.smallInteger_settles.bind fun version => .ite (.throw _) ?_
  exact Parameters.reader_settles.bind fun _ => Reader.integer_settles.bind fun _ => .pure _

theorem Ciphertext.ofDer_settled (der : Bytes) : (Ciphertext.ofDer der).Settled :=
  decode_settled (Reader.inSequence_settles <|
    (Reader.identifier_settles _).bind fun _ => Reader.integer_settles.bind fun _ =>
      Reader.integer_settles.bind fun _ => .pure _) der

theorem Proof.ofDer_settled (der : Bytes) : (Proof.ofDer der).Settled :=
  decode_settled (Reader.inSequence_settles <|
    Reader.integer_settles.bind fun _ => Reader.integer_settles.bind fun _ =>
      Reader.integer_settles.bind fun _ => .pure _) der

end ElGamal

namespace Rsa

theorem PublicKey.of_settled (modulus exponent : Nat) :
    (PublicKey.of modulus exponent).Settled := by
  unfold PublicKey.of
  exact .dite (fun _ => .ok _) fun _ => .error _

theorem PublicKey.ofDer_settled (der : Bytes) : (PublicKey.ofDer der).Settled := by
  refine (decode_settled (Reader.inSequence_settles ?_) der).bind fun inner _ => ?_
  · refine (Reader.inSequence_settles ?_).bind fun _ => Reader.readsElement_bitString.settles
    exact (Reader.identifier_settles _).bind fun _ => Reader.readsElement_null.settles
  · refine (decode_settled (Reader.inSequence_settles ?_) inner).bind fun numbers _ =>
      (PublicKey.of_settled _ _).mapError _
    exact Reader.integer_settles.bind fun _ => Reader.integer_settles.bind fun _ => .pure _

theorem KeyShare.ofDer_settled (der : Bytes) : (KeyShare.ofDer der).Settled := by
  refine (decode_settled (Reader.inSequence_settles ?_) der).bind fun numbers _ => ?_
  · refine Reader.smallInteger_settles.bind fun version => .ite (.throw _) ?_
    exact Reader.integer_settles.bind fun _ => Reader.integer_settles.bind fun _ =>
      Reader.integer_settles.bind fun _ => .pure _
  · exact ((PublicKey.of_settled numbers.1 numbers.2.1).mapError _).bind fun _ _ => .ok _

end Rsa

namespace Format

/-- Whatever the octets are, they are read or refused. -/
theorem ofDer_settled (F : Format) (der : Bytes) : (F.ofDer der).Settled := by
  cases F with
  | parameters => exact decode_settled ElGamal.Parameters.reader_settles der
  | electionKey => exact ElGamal.PublicKey.ofDer_settled der
  | privateKey => exact ElGamal.PrivateKey.ofDer_settled der
  | ciphertext => exact ElGamal.Ciphertext.ofDer_settled der
  | proof => exact ElGamal.Proof.ofDer_settled der
  | signingKey => exact Rsa.PublicKey.ofDer_settled der
  | signingShare => exact Rsa.KeyShare.ofDer_settled der

/-! ## Where an accepted string ends -/

theorem extends_parameters : Extends ElGamal.Parameters.reader :=
  (Extends.inSequence _).bind fun _ => (Extends.liftM _).bind fun _ => .liftM _

/-- What stands behind an accepted string is refused. -/
theorem ofDer_append (F : Format) {der more : Bytes} {v : F.Value} (h : F.ofDer der = .ok v)
    (hmore : more ≠ []) : F.ofDer (der ++ more) = .error .trailingData := by
  cases F with
  | parameters => exact decode_append extends_parameters h hmore
  | electionKey => exact decode_bind_append (.inSequence _) h hmore
  | privateKey => exact decode_bind_append (.inSequence _) h hmore
  | ciphertext => exact decode_append (.inSequence _) h hmore
  | proof => exact decode_append (.inSequence _) h hmore
  | signingKey => exact decode_bind_append (.inSequence _) h hmore
  | signingShare => exact decode_bind_append (.inSequence _) h hmore

/-- **No accepted string is the beginning of another one.** With anything behind it, it is refused
as a string with trailing data, and whatever is a part of it from its beginning is refused. -/
theorem ofDer_prefix_free (F : Format) {der : Bytes} {v : F.Value} (h : F.ofDer der = .ok v) :
    (∀ more, more ≠ [] → F.ofDer (der ++ more) = .error .trailingData) ∧
      ∀ front, front <+: der → front ≠ der → ∃ e, F.ofDer front = .error e := by
  refine ⟨fun more hmore => F.ofDer_append h hmore, ?_⟩
  rintro front ⟨cut, rfl⟩ hne
  have hcut : cut ≠ [] := fun hnil => hne (by rw [hnil, List.append_nil])
  have hsettled := F.ofDer_settled front
  generalize hfront : F.ofDer front = o at hsettled
  cases hsettled with
  | ok w =>
    -- if the front were accepted, the whole would have trailing data
    rw [F.ofDer_append hfront hcut] at h
    cases h
  | error e => exact ⟨e, rfl⟩
  | stalled hfalse => exact hfalse.elim

/-- A ciphertext whose content has 145 octets, which takes a length field of two. -/
def wideCiphertext : ElGamal.Ciphertext := ⟨Nat.pow 2 1016, 3⟩

/-- It is cut in the middle of that field and in the middle of its first number. -/
theorem ofDer_prefix_free_wide :
    ciphertext.ofDer wideCiphertext.toDer = .ok wideCiphertext ∧
    ciphertext.ofDer (wideCiphertext.toDer ++ [0x05, 0x00]) = .error .trailingData ∧
    (∃ e, ciphertext.ofDer (wideCiphertext.toDer.take 2) = .error e) ∧
    ∃ e, ciphertext.ofDer (wideCiphertext.toDer.take 80) = .error e := by
  have h : ciphertext.ofDer wideCiphertext.toDer = .ok wideCiphertext :=
    ElGamal.Ciphertext.ofDer_toDer (by decide +kernel)
  obtain ⟨hbehind, hcut⟩ := ciphertext.ofDer_prefix_free h
  exact ⟨h, hbehind _ (by decide), hcut _ (List.take_prefix _ _) (by decide +kernel),
    hcut _ (List.take_prefix _ _) (by decide +kernel)⟩

end Format

end ThresholdKeys
