import ThresholdKeys.Proofs.Der.Formats

/-!
# The shortest string that decodes to a value

A length field and an integer are read with zeros in front, so a value has more encodings than the
one that is written. What is written is the shortest of them, and no other one is as short
(`Format.toDer_shortest`): whatever is read element by element takes up at least the octets that
would be written, and takes up no more only if it is what would be written. That relation between
octets read and octets written is `Expands`; it passes from the elements to sequences (`Takes`).
-/

namespace ThresholdKeys.Der

/-! ## Octets read and octets written -/

/-- The octets are the ones written, or there are more of them. -/
def Expands (octets written : Bytes) : Prop := octets = written ∨ written.length < octets.length

namespace Expands

variable {a a' b b' c : Bytes}

theorem refl (a : Bytes) : Expands a a := Or.inl rfl

theorem length_le (h : Expands a b) : b.length ≤ a.length := by
  cases h with
  | inl h => rw [h]
  | inr h => exact Nat.le_of_lt h

theorem trans (h : Expands a b) (h' : Expands b c) : Expands a c := by
  cases h with
  | inl h => exact h ▸ h'
  | inr h => exact Or.inr (Nat.lt_of_le_of_lt h'.length_le h)

theorem append (h : Expands a b) (h' : Expands a' b') : Expands (a ++ a') (b ++ b') := by
  have hle := h'.length_le
  cases h with
  | inl h =>
    cases h' with
    | inl h' => exact Or.inl (by rw [h, h'])
    | inr h' =>
      refine Or.inr ?_
      rw [h, List.length_append, List.length_append]
      omega
  | inr h =>
    refine Or.inr ?_
    rw [List.length_append, List.length_append]
    omega

/-- As many octets as are written are the ones written. -/
theorem eq_of_length_le (h : Expands a b) (hle : a.length ≤ b.length) : a = b :=
  h.resolve_right (Nat.not_lt.2 hle)

end Expands

/-! ## Elements -/

/-- A longer content has no shorter length field. -/
theorem length_lengthField_mono {m n : Nat} (h : m ≤ n) :
    (lengthField m).length ≤ (lengthField n).length := by
  have hbytes : byteLength m ≤ byteLength n :=
    byteLength_le_iff.2 (Nat.lt_of_le_of_lt h (lt_pow_byteLength n))
  unfold lengthField
  by_cases hm : m < 0x80
  · rw [if_pos hm]
    exact length_lengthField_pos n
  · rw [if_neg hm, if_neg (by omega), List.length_cons, List.length_cons, Bytes.length_ofNat,
      Bytes.length_ofNat]
    omega

/-- What announces a length is the field that is written for it or a longer one. -/
theorem expands_lengthField {field : Bytes} {n : Nat} (h : LengthField field n) :
    Expands field (lengthField n) := by
  cases h with
  | short first h =>
    have hlt : first.toNat < 0x80 := UInt8.lt_iff_toNat_lt.1 h
    refine Or.inl ?_
    rw [lengthField, if_pos hlt, UInt8.ofNat_toNat]
  | long octets hpos hle hmin =>
    have hfits := byteLength_le_iff.2 (Bytes.toNat_lt octets)
    rw [lengthField, if_neg (by omega)]
    -- the same number of length octets is the same field, and a larger one is a longer field
    cases Nat.lt_or_eq_of_le hfits with
    | inl hlt =>
      refine Or.inr ?_
      rw [List.length_cons, List.length_cons, Bytes.length_ofNat]
      omega
    | inr heq =>
      refine Or.inl ?_
      rw [Bytes.ofNat, heq, Bytes.fixed_toNat rfl]

/-- An element is longer than the one written if its length field or its content is. -/
theorem expands_element {tag : UInt8} {field content written : Bytes}
    (hfield : Expands field (lengthField content.length)) (hcontent : Expands content written) :
    Expands (tag :: (field ++ content)) (element tag written) := by
  cases hcontent with
  | inl heq =>
    rw [← heq, element]
    exact (Expands.refl [tag]).append (hfield.append (Expands.refl content))
  | inr hlt =>
    have hmono := length_lengthField_mono (Nat.le_of_lt hlt)
    have hle := hfield.length_le
    refine Or.inr ?_
    rw [length_element, List.length_cons, List.length_append]
    omega

/-- Elements are as their contents are. -/
theorem Expands.element {content written : Bytes} (h : Expands content written) (tag : UInt8) :
    Expands (element tag content) (element tag written) :=
  expands_element (Expands.refl _) h

/-! ## Readers -/

/-- Behind the items `done`, the reader takes octets that are those of the items that are left of
the value it returns, or more octets than those. -/
def Takes {α : Type} (done : List Item) (r : Reader α) (items : α → List Item) : Prop :=
  ∀ ⦃k der v rest log⦄, r k der = ⟨.ok v, rest, log⟩ →
    ∃ b left, der = b ++ rest ∧ items v = done ++ left ∧ Expands b (encodeAll left)

theorem encodeAll_append (l l' : List Item) :
    encodeAll (l ++ l') = encodeAll l ++ encodeAll l' := by
  induction l with
  | nil => rfl
  | cons item rest ih => rw [List.cons_append, encodeAll, encodeAll, ih, List.append_assoc]

/-- A number is read from its content or from a longer one, as long as its sign is right. -/
theorem expands_integerContent {top : UInt8} {tail : Bytes} (htop : top < 0x80) :
    Expands (top :: tail) (integerContent (Bytes.toNat (top :: tail))) := by
  have hbits : bitLength (Bytes.toNat (top :: tail)) ≤ 8 * tail.length + 7 := by
    have htop' : top.toNat + 1 ≤ 2 ^ 7 := UInt8.lt_iff_toNat_lt.1 htop
    have htail := Bytes.toNat_lt tail
    rw [bitLength_le_iff, Bytes.toNat_cons]
    calc top.toNat * 256 ^ tail.length + Bytes.toNat tail
        < (top.toNat + 1) * 256 ^ tail.length := by rw [Nat.succ_mul]; omega
      _ ≤ 2 ^ 7 * 256 ^ tail.length := Nat.mul_le_mul_right _ htop'
      _ = 2 ^ (8 * tail.length + 7) := by rw [Nat.pow_add, Nat.pow_mul, Nat.mul_comm]
  have hlen := length_integerContent (Bytes.toNat (top :: tail))
  by_cases hsame : bitLength (Bytes.toNat (top :: tail)) / 8 = tail.length
  · refine Or.inl ?_
    rw [integerContent, hsame]
    exact (Bytes.fixed_toNat rfl).symm
  · refine Or.inr ?_
    rw [hlen, List.length_cons]
    omega

theorem ofText_of_text? {content : Bytes} {text : String} (h : Bytes.text? content = some text) :
    Bytes.ofText text = content := by
  unfold Bytes.text? String.fromUTF8? at h
  split at h
  · cases h
    rfl
  · cases h

namespace Takes

variable {α β : Type} {r : Reader α} {f : α → Reader β} {done : List Item} {items : α → List Item}
  {whole : β → List Item}

theorem pure {v : α} (h : items v = done) : Takes done (Pure.pure v : Reader α) items := by
  intro k der v' rest log hrun
  cases hrun
  exact ⟨[], [], rfl, by rw [h, List.append_nil], Expands.refl _⟩

theorem throw (e : DerError) : Takes done (throw e : Reader α) items := by
  intro k der v rest log hrun
  cases hrun

/-- A check that takes nothing. -/
theorem liftM {o : Outcome DerError α} (h : ∀ v, o = .ok v → items v = done) :
    Takes done (liftM o : Reader α) items := by
  intro k der v rest log hrun
  cases hrun
  exact ⟨[], [], rfl, by rw [h v rfl, List.append_nil], Expands.refl _⟩

theorem bind (h : Takes [] r items) (hf : ∀ v, Takes (done ++ items v) (f v) whole) :
    Takes done (r >>= f) whole := by
  intro k der w rest log hrun
  obtain ⟨v, mid, log₁, log₂, hfirst, hsecond⟩ := Proc.bind_eq_ok hrun
  obtain ⟨b, left, rfl, hitems, hb⟩ := h hfirst
  obtain ⟨b', left', rfl, hwhole, hb'⟩ := hf v hsecond
  refine ⟨b ++ b', left ++ left', (List.append_assoc _ _ _).symm, ?_, ?_⟩
  · rw [hwhole, hitems, List.nil_append, List.append_assoc]
  · rw [encodeAll_append]
    exact hb.append hb'

/-- A check between two readers. -/
theorem liftM_bind {o : Outcome DerError α} (h : ∀ v, o = .ok v → Takes done (f v) whole) :
    Takes done ((MonadLift.monadLift o : Reader α) >>= f) whole := by
  intro k der w rest log hrun
  obtain ⟨v, mid, log₁, log₂, hfirst, hsecond⟩ := Proc.bind_eq_ok hrun
  cases hfirst
  exact h v rfl hsecond

/-- The same reader at the end of others. -/
theorem last {all : α → List Item} (h : Takes [] r items) (hall : ∀ v, all v = done ++ items v) :
    Takes done r all := by
  intro k der v rest log hrun
  obtain ⟨b, left, hder, hitems, hb⟩ := h hrun
  exact ⟨b, left, hder, by rw [hall, hitems, List.nil_append], hb⟩

/-- A reader that checks the content of an element and takes nothing else. -/
theorem element_bind {tag : UInt8} {check : Bytes → Reader α} {item : α → Item}
    (h : ∀ ⦃content k der v rest log⦄, check content k der = ⟨.ok v, rest, log⟩ →
      rest = der ∧ ∃ written, (item v).encode = element tag written ∧ Expands content written) :
    Takes [] (Reader.element tag >>= check) fun v => [item v] := by
  intro k der v rest log hrun
  obtain ⟨content, mid, log₁, log₂, hfirst, hsecond⟩ := Proc.bind_eq_ok hrun
  obtain ⟨rfl, written, hitem, hcontent⟩ := h hsecond
  obtain ⟨⟨octets, ⟨field, hfield, rfl⟩, hder⟩, -⟩ := element_eq_ok_iff.1 hfirst
  refine ⟨_, _, hder, rfl, ?_⟩
  rw [encodeAll, encodeAll, List.append_nil, hitem]
  exact expands_element (expands_lengthField hfield) hcontent

theorem integer : Takes [] Reader.integer fun n => [.integer n] := by
  refine element_bind fun content k der n rest log hrun => ?_
  split at hrun
  · cases hrun
  · next top tail =>
    split at hrun
    · next htop =>
      cases hrun
      exact ⟨rfl, _, by rw [Item.encode], expands_integerContent htop⟩
    · cases hrun

theorem smallInteger : Takes [] Reader.smallInteger fun n => [.integer n] := by
  refine integer.bind fun n => ?_
  split
  · exact .pure rfl
  · exact .throw _

theorem bitString : Takes [] Reader.bitString fun content => [.bitString content] := by
  refine element_bind fun content k der v rest log hrun => ?_
  split at hrun
  · cases hrun
    exact ⟨rfl, _, by rw [Item.encode], Expands.refl _⟩
  · cases hrun

theorem utf8String : Takes [] Reader.utf8String fun text => [.utf8String text] := by
  refine element_bind fun content k der v rest log hrun => ?_
  cases htext : Bytes.text? content with
  | some text =>
    rw [htext] at hrun
    cases hrun
    exact ⟨rfl, _, by rw [Item.encode], Or.inl (ofText_of_text? htext).symm⟩
  | none =>
    rw [htext] at hrun
    cases hrun

theorem identifier (expected : Bytes) :
    Takes [] (Reader.identifier expected) fun _ => [.identifier expected] := by
  refine element_bind fun content k der v rest log hrun => ?_
  split at hrun
  · next heq =>
    cases hrun
    exact ⟨rfl, _, by rw [Item.encode], Or.inl heq⟩
  · cases hrun

theorem null : Takes [] Reader.null fun _ => [.null] := by
  refine element_bind fun content k der v rest log hrun => ?_
  cases content with
  | nil =>
    cases hrun
    exact ⟨rfl, _, by rw [Item.encode], Expands.refl _⟩
  | cons x content => cases hrun

/-- Nothing of a string is left over by a reader that has to read all of it. -/
theorem complete (h : Takes [] r items) {k : Nat} {der rest : Bytes} {v : α}
    {log : List LogRecord}
    (hrun : (do let value ← r; Reader.finish; return value : Reader α) k der = ⟨.ok v, rest, log⟩) :
    Expands der (encodeAll (items v)) := by
  obtain ⟨value, mid, log₁, log₂, hfirst, hlast⟩ := Proc.bind_eq_ok hrun
  obtain ⟨b, left, rfl, hitems, hb⟩ := h hfirst
  obtain ⟨⟨⟩, mid', log₃, log₄, hfinish, hreturn⟩ := Proc.bind_eq_ok hlast
  cases hreturn
  cases mid with
  | nil => rwa [List.append_nil, hitems, List.nil_append]
  | cons x mid => cases hfinish

theorem inSequence (h : Takes [] r items) :
    Takes [] (Reader.inSequence r) fun v => [.sequence (items v)] := by
  refine element_bind fun content k der v rest log hrun => ?_
  unfold Proc.apart at hrun
  rw [Run.mk.injEq] at hrun
  obtain ⟨hvalue, hrest, -⟩ := hrun
  refine ⟨hrest.symm, _, by rw [Item.encode], ?_⟩
  exact h.complete (congrArg (fun o => Run.mk o _ _) hvalue)

theorem decode (h : Takes [] r items) {der : Bytes} {v : α} (hdecode : Der.decode r der = .ok v) :
    Expands der (encodeAll (items v)) :=
  h.complete (congrArg (fun o => Run.mk o _ _) hdecode)

end Takes

end ThresholdKeys.Der

namespace ThresholdKeys

open Der

/-! ## Formats -/

/-- The one item of a sequence that is decoded. -/
theorem expands_item {octets : Bytes} {item : Item} (h : Expands octets (encodeAll [item])) :
    Expands octets item.encode := by
  rwa [encodeAll, encodeAll, List.append_nil] at h

theorem Group.modulus_of_ofTrusted {p : Nat} {G : Group} (h : Group.ofTrusted p = .ok G) :
    G.modulus = p := by
  unfold Group.ofTrusted at h
  split at h
  · cases h
    rfl
  · cases h

namespace ElGamal

theorem Parameters.of_eq_ok {group : Group} {generator : Nat} {electionId : String}
    {ps : Parameters} (h : Parameters.of group generator electionId = .ok ps) :
    ps.group = group ∧ ps.generator = generator ∧ ps.electionId = electionId := by
  unfold Parameters.of at h
  split at h
  · cases h
    exact ⟨rfl, rfl, rfl⟩
  · cases h

theorem PublicKey.of_eq_ok {ps : Parameters} {key : Nat} {pk : PublicKey}
    (h : PublicKey.of ps key = .ok pk) : pk.parameters = ps ∧ pk.key = key := by
  unfold PublicKey.of at h
  split at h
  · cases h
    exact ⟨rfl, rfl⟩
  · cases h

theorem PrivateKey.of_eq_ok {ps : Parameters} {secret : Nat} {sk : PrivateKey}
    (h : PrivateKey.of ps secret = .ok sk) : sk.parameters = ps ∧ sk.secret = secret := by
  unfold PrivateKey.of at h
  split at h
  · cases h
    exact ⟨rfl, rfl⟩
  · cases h

theorem Parameters.takes : Takes [] Parameters.reader fun ps => [ps.item] := by
  have hnumbers : Takes [] (do
      let p ← Reader.integer
      let generator ← Reader.integer
      let electionId ← Reader.utf8String
      return (p, generator, electionId)) fun read =>
        [.integer read.1, .integer read.2.1, .utf8String read.2.2] :=
    Takes.integer.bind fun p => Takes.integer.bind fun g => Takes.utf8String.bind fun name =>
      .pure rfl
  have hitems : Takes [] (do
      Reader.identifier elGamalIdentifier
      Reader.inSequence do
        let p ← Reader.integer
        let generator ← Reader.integer
        let electionId ← Reader.utf8String
        return (p, generator, electionId)) fun read =>
          [.identifier elGamalIdentifier,
            .sequence [.integer read.1, .integer read.2.1, .utf8String read.2.2]] :=
    (Takes.identifier _).bind fun _ => hnumbers.inSequence.last fun _ => rfl
  unfold Parameters.reader
  refine hitems.inSequence.bind fun read => ?_
  obtain ⟨p, generator, electionId⟩ := read
  refine .liftM_bind fun group hgroup => .liftM fun ps hps => ?_
  obtain ⟨rfl, rfl, rfl⟩ := Parameters.of_eq_ok (Outcome.mapError_eq_ok.1 hps)
  cases Group.modulus_of_ofTrusted (Outcome.mapError_eq_ok.1 hgroup)
  rfl

theorem Parameters.expands_of_ofDer {der : Bytes} {ps : Parameters}
    (h : Parameters.ofDer der = .ok ps) : Expands der ps.toDer :=
  expands_item (Parameters.takes.decode h)

theorem PublicKey.expands_of_ofDer {der : Bytes} {pk : PublicKey}
    (h : PublicKey.ofDer der = .ok pk) : Expands der pk.toDer := by
  obtain ⟨⟨ps, key⟩, hdecode, hof⟩ := Outcome.bind_eq_ok.1 h
  obtain ⟨rfl, rfl⟩ := PublicKey.of_eq_ok (Outcome.mapError_eq_ok.1 hof)
  have htakes : Takes [] (do
      let parameters ← Parameters.reader
      let key ← Reader.integer
      return (parameters, key)) fun read => [read.1.item, .integer read.2] :=
    Parameters.takes.bind fun ps => Takes.integer.bind fun key => .pure rfl
  have hwhole := expands_item (htakes.inSequence.decode hdecode)
  exact hwhole

theorem PrivateKey.expands_of_ofDer {der : Bytes} {sk : PrivateKey}
    (h : PrivateKey.ofDer der = .ok sk) : Expands der sk.toDer := by
  obtain ⟨⟨ps, secret⟩, hdecode, hof⟩ := Outcome.bind_eq_ok.1 h
  obtain ⟨rfl, rfl⟩ := PrivateKey.of_eq_ok (Outcome.mapError_eq_ok.1 hof)
  have htakes : Takes [] (do
      let version ← Reader.smallInteger
      if version ≠ 0 then throw .badValue
      else
        let parameters ← Parameters.reader
        let secret ← Reader.integer
        return (parameters, secret))
      fun read => [.integer 0, read.1.item, .integer read.2] := by
    refine Takes.smallInteger.bind fun version => ?_
    split
    · exact .throw _
    · next hversion =>
      cases not_not.1 hversion
      exact Parameters.takes.bind fun ps => Takes.integer.bind fun secret => .pure rfl
  have hwhole := expands_item (htakes.inSequence.decode hdecode)
  exact hwhole

theorem Ciphertext.expands_of_ofDer {der : Bytes} {ct : Ciphertext}
    (h : Ciphertext.ofDer der = .ok ct) : Expands der ct.toDer := by
  have htakes : Takes [] (do
      Reader.identifier elGamalIdentifier
      let blind ← Reader.integer
      let blinded ← Reader.integer
      return (⟨blind, blinded⟩ : Ciphertext)) fun ct =>
        [.identifier elGamalIdentifier, .integer ct.blind, .integer ct.blinded] :=
    (Takes.identifier _).bind fun _ => Takes.integer.bind fun c => Takes.integer.bind fun d =>
      .pure rfl
  exact expands_item (htakes.inSequence.decode h)

theorem Proof.expands_of_ofDer {der : Bytes} {proof : Proof} (h : Proof.ofDer der = .ok proof) :
    Expands der proof.toDer := by
  have htakes : Takes [] (do
      let messageCommitment ← Reader.integer
      let keyCommitment ← Reader.integer
      let response ← Reader.integer
      return (⟨messageCommitment, keyCommitment, response⟩ : Proof)) fun proof =>
        [.integer proof.messageCommitment, .integer proof.keyCommitment,
          .integer proof.response] :=
    Takes.integer.bind fun a => Takes.integer.bind fun b => Takes.integer.bind fun s => .pure rfl
  exact expands_item (htakes.inSequence.decode h)

end ElGamal

namespace Rsa

theorem PublicKey.of_eq_ok {modulus exponent : Nat} {pk : PublicKey}
    (h : PublicKey.of modulus exponent = .ok pk) :
    pk.modulus = modulus ∧ pk.exponent = exponent := by
  unfold PublicKey.of at h
  split at h
  · cases h
    exact ⟨rfl, rfl⟩
  · cases h

theorem PublicKey.expands_of_ofDer {der : Bytes} {pk : PublicKey}
    (h : PublicKey.ofDer der = .ok pk) : Expands der pk.toDer := by
  obtain ⟨inner, houter, h⟩ := Outcome.bind_eq_ok.1 h
  obtain ⟨⟨modulus, exponent⟩, hinner, hof⟩ := Outcome.bind_eq_ok.1 h
  obtain ⟨rfl, rfl⟩ := PublicKey.of_eq_ok (Outcome.mapError_eq_ok.1 hof)
  have hnumbers : Takes [] (do
      let modulus ← Reader.integer
      let exponent ← Reader.integer
      return (modulus, exponent)) fun read => [.integer read.1, .integer read.2] :=
    Takes.integer.bind fun modulus => Takes.integer.bind fun exponent => .pure rfl
  have halgorithm : Takes [] (do
      Reader.identifier rsaIdentifier
      Reader.null) fun _ => [.identifier rsaIdentifier, .null] :=
    (Takes.identifier _).bind fun _ => Takes.null.last fun _ => rfl
  have hkey : Takes [] (do
      Reader.inSequence do
        Reader.identifier rsaIdentifier
        Reader.null
      Reader.bitString) fun inner =>
        [.sequence [.identifier rsaIdentifier, .null], .bitString inner] :=
    halgorithm.inSequence.bind fun _ => Takes.bitString.last fun _ => rfl
  -- the numbers are in a string of their own, which can be longer than the one written too
  have hread := expands_item (hkey.inSequence.decode houter)
  have hwritten := expands_item (hnumbers.inSequence.decode hinner)
  refine hread.trans ?_
  rw [toDer, item, Item.encode, Item.encode]
  refine Expands.element ?_ sequenceTag
  simp only [encodeAll, List.append_nil, Item.encode] at hwritten ⊢
  exact (Expands.refl _).append (((Expands.refl [0]).append hwritten).element bitStringTag)

theorem KeyShare.expands_of_ofDer {der : Bytes} {share : KeyShare}
    (h : KeyShare.ofDer der = .ok share) : Expands der share.toDer := by
  obtain ⟨⟨modulus, exponent, value⟩, hdecode, h⟩ := Outcome.bind_eq_ok.1 h
  obtain ⟨pk, hof, hshare⟩ := Outcome.bind_eq_ok.1 h
  cases hshare
  obtain ⟨rfl, rfl⟩ := PublicKey.of_eq_ok (Outcome.mapError_eq_ok.1 hof)
  have htakes : Takes [] (do
      let version ← Reader.smallInteger
      if version ≠ 0 then throw .badValue
      else
        let modulus ← Reader.integer
        let exponent ← Reader.integer
        let value ← Reader.integer
        return (modulus, exponent, value)) fun read =>
          [.integer 0, .integer read.1, .integer read.2.1, .integer read.2.2] := by
    refine Takes.smallInteger.bind fun version => ?_
    split
    · exact .throw _
    · next hversion =>
      cases not_not.1 hversion
      exact Takes.integer.bind fun n => Takes.integer.bind fun e => Takes.integer.bind fun d =>
        .pure rfl
  have hwhole := expands_item (htakes.inSequence.decode hdecode)
  exact hwhole

end Rsa

/-- **The encoding of a value is the shortest string that decodes to it**, and the only one of its
length. -/
theorem Format.toDer_shortest (F : Format) {der : Bytes} {v : F.Value}
    (h : F.ofDer der = .ok v) :
    (F.toDer v).length ≤ der.length ∧ (der.length = (F.toDer v).length → der = F.toDer v) := by
  have hexpands : Expands der (F.toDer v) := by
    cases F with
    | parameters => exact ElGamal.Parameters.expands_of_ofDer h
    | electionKey => exact ElGamal.PublicKey.expands_of_ofDer h
    | privateKey => exact ElGamal.PrivateKey.expands_of_ofDer h
    | ciphertext => exact ElGamal.Ciphertext.expands_of_ofDer h
    | proof => exact ElGamal.Proof.expands_of_ofDer h
    | signingKey => exact Rsa.PublicKey.expands_of_ofDer h
    | signingShare => exact Rsa.KeyShare.expands_of_ofDer h
  exact ⟨hexpands.length_le, fun hlen => hexpands.eq_of_length_le (Nat.le_of_eq hlen)⟩

/-- The ciphertext of two ones, with a zero in front of the first of them. -/
def paddedInteger : Bytes :=
  element sequenceTag (element identifierTag elGamalIdentifier ++ [integerTag, 2, 0, 1] ++
    [integerTag, 1, 1])

/-- The same ciphertext without that zero, octet by octet. -/
def plainInteger : Bytes :=
  [0x30, 0x11, 0x06, 0x09, 0x2b, 0x06, 0x01, 0x04, 0x01, 0x97, 0x55, 0x02, 0x01,
    0x02, 0x01, 0x01, 0x02, 0x01, 0x01]

/-- The padded string is no shorter than the encoding, and the plain one is the encoding, because it
is as long. -/
theorem toDer_shortest_paddedInteger :
    Format.ciphertext.ofDer paddedInteger = .ok (⟨1, 1⟩ : ElGamal.Ciphertext) ∧
    (Format.ciphertext.toDer (⟨1, 1⟩ : ElGamal.Ciphertext)).length ≤ paddedInteger.length ∧
    Format.ciphertext.ofDer plainInteger = .ok (⟨1, 1⟩ : ElGamal.Ciphertext) ∧
    plainInteger.length = (Format.ciphertext.toDer (⟨1, 1⟩ : ElGamal.Ciphertext)).length ∧
    plainInteger = Format.ciphertext.toDer (⟨1, 1⟩ : ElGamal.Ciphertext) := by
  have hpadded : ElGamal.Ciphertext.ofDer paddedInteger = .ok ⟨1, 1⟩ := by decide +kernel
  have hplain : ElGamal.Ciphertext.ofDer plainInteger = .ok ⟨1, 1⟩ := by decide +kernel
  have hlength : plainInteger.length
      = (Format.ciphertext.toDer (⟨1, 1⟩ : ElGamal.Ciphertext)).length := by decide +kernel
  exact ⟨hpadded, (Format.toDer_shortest .ciphertext hpadded).1, hplain, hlength,
    (Format.toDer_shortest .ciphertext hplain).2 hlength⟩

/-- A ciphertext whose content has 136 octets, with a zero in front of that length. -/
def paddedLength : Bytes :=
  [sequenceTag, 0x82, 0x00, 0x88] ++
    encodeAll [.identifier elGamalIdentifier, .integer (Nat.pow 2 952), .integer 1]

/-- Strings that are not what is written for the value that they decode to. -/
theorem padded_ciphertexts_decode :
    ElGamal.Ciphertext.ofDer paddedInteger = .ok ⟨1, 1⟩ ∧
    paddedInteger ≠ (⟨1, 1⟩ : ElGamal.Ciphertext).toDer ∧
    ElGamal.Ciphertext.ofDer paddedLength = .ok ⟨Nat.pow 2 952, 1⟩ ∧
    paddedLength ≠ (⟨Nat.pow 2 952, 1⟩ : ElGamal.Ciphertext).toDer :=
  ⟨by decide +kernel, by decide +kernel, by decide +kernel, by decide +kernel⟩

end ThresholdKeys
