import ThresholdKeys.ElGamal.Proof
import ThresholdKeys.Proofs.Der.Reading
import ThresholdKeys.Rsa.Key

/-!
# Keys, shares and ciphertexts are read back

The encoding of a value decodes to that value, if the encoding is shorter than the limit of a length
field. The values are those of the types, so whatever a constructor let through is read back.
-/

namespace ThresholdKeys

open Der

/-! ## ElGamal -/

theorem Group.ofTrusted_modulus (G : Group) : Group.ofTrusted G.modulus = .ok G :=
  dif_pos ⟨G.seven_le, G.mod_four⟩

namespace ElGamal

theorem Parameters.of_self (ps : Parameters) :
    Parameters.of ps.group ps.generator ps.electionId = .ok ps := dif_pos ps.generates

theorem PublicKey.of_self (pk : PublicKey) : PublicKey.of pk.parameters pk.key = .ok pk :=
  dif_pos pk.isResidue

theorem PrivateKey.of_self (sk : PrivateKey) : PrivateKey.of sk.parameters sk.secret = .ok sk :=
  dif_pos sk.secret_lt

theorem Parameters.reads_item {ps : Parameters} (h : ps.toDer.length < lengthLimit) :
    Reads Parameters.reader ps.item.encode ps := by
  have hinner := h
  simp only [toDer, item, Item.encode, encodeAll, length_element, List.length_append] at hinner
  unfold Parameters.reader
  refine (reads_sequence (v := (ps.group.modulus, ps.generator, ps.electionId)) ?_ h).bind_nil ?_
  · simp only [encodeAll, List.append_nil]
    refine (reads_identifier (by decide)).bind (reads_sequence ?_ ?_)
    · simp only [encodeAll, List.append_nil]
      refine (reads_integer ?_).bind ((reads_integer ?_).bind ((reads_utf8String ?_).bind_nil
        (Reads.pure _)))
      all_goals omega
    · simp only [encodeAll, Item.encode, length_element, List.length_append]
      omega
  · dsimp only
    rw [Group.ofTrusted_modulus]
    refine (Reads.lift ps.group).bind_nil ?_
    rw [Parameters.of_self]
    exact Reads.lift ps

theorem Parameters.ofDer_toDer {ps : Parameters} (h : ps.toDer.length < lengthLimit) :
    Parameters.ofDer ps.toDer = .ok ps := decode_of_reads (Parameters.reads_item h)

theorem PublicKey.ofDer_toDer {pk : PublicKey} (h : pk.toDer.length < lengthLimit) :
    PublicKey.ofDer pk.toDer = .ok pk := by
  have hinner := h
  simp only [toDer, item, Item.encode, encodeAll, length_element, List.length_append] at hinner
  have hreads : Reads (Reader.inSequence do
      let parameters ← Parameters.reader
      let key ← Reader.integer
      return (parameters, key)) pk.toDer (pk.parameters, pk.key) := by
    refine reads_sequence ?_ h
    simp only [encodeAll, List.append_nil]
    refine (Parameters.reads_item ?_).bind ((reads_integer ?_).bind_nil (Reads.pure _))
    · rw [Parameters.toDer]
      omega
    · omega
  unfold PublicKey.ofDer
  rw [decode_of_reads hreads, Outcome.ok_bind]
  dsimp only
  rw [PublicKey.of_self]
  rfl

theorem PrivateKey.ofDer_toDer {sk : PrivateKey} (h : sk.toDer.length < lengthLimit) :
    PrivateKey.ofDer sk.toDer = .ok sk := by
  have hinner := h
  simp only [toDer, item, Item.encode, encodeAll, length_element, List.length_append] at hinner
  have hreads : Reads (Reader.inSequence do
      let version ← Reader.smallInteger
      if version ≠ 0 then throw .badValue
      else
        let parameters ← Parameters.reader
        let secret ← Reader.integer
        return (parameters, secret)) sk.toDer (sk.parameters, sk.secret) := by
    refine reads_sequence ?_ h
    simp only [encodeAll, List.append_nil]
    refine (reads_smallInteger (by decide)).bind ?_
    rw [if_neg (by simp)]
    refine (Parameters.reads_item ?_).bind ((reads_integer ?_).bind_nil (Reads.pure _))
    · rw [Parameters.toDer]
      omega
    · omega
  unfold PrivateKey.ofDer
  rw [decode_of_reads hreads, Outcome.ok_bind]
  dsimp only
  rw [PrivateKey.of_self]
  rfl

theorem Ciphertext.ofDer_toDer {ct : Ciphertext} (h : ct.toDer.length < lengthLimit) :
    Ciphertext.ofDer ct.toDer = .ok ct := by
  have hinner := h
  simp only [toDer, item, Item.encode, encodeAll, length_element, List.length_append] at hinner
  refine decode_of_reads (reads_sequence ?_ h)
  simp only [encodeAll, List.append_nil]
  refine (reads_identifier (by decide)).bind ((reads_integer ?_).bind ((reads_integer ?_).bind_nil
    (Reads.pure _)))
  all_goals omega

theorem Proof.ofDer_toDer {proof : Proof} (h : proof.toDer.length < lengthLimit) :
    Proof.ofDer proof.toDer = .ok proof := by
  have hinner := h
  simp only [toDer, item, Item.encode, encodeAll, length_element, List.length_append] at hinner
  refine decode_of_reads (reads_sequence ?_ h)
  simp only [encodeAll, List.append_nil]
  refine (reads_integer ?_).bind ((reads_integer ?_).bind ((reads_integer ?_).bind_nil
    (Reads.pure _)))
  all_goals omega

end ElGamal

/-! ## RSA -/

namespace Rsa

theorem PublicKey.of_self (pk : PublicKey) : PublicKey.of pk.modulus pk.exponent = .ok pk :=
  dif_pos ⟨pk.one_lt, pk.exponent_odd, pk.exponent_lt, pk.modulus_odd⟩

/-- The inner sequence is read from the content of the bit string, on its own. -/
theorem PublicKey.ofDer_toDer {pk : PublicKey} (h : pk.toDer.length < lengthLimit) :
    PublicKey.ofDer pk.toDer = .ok pk := by
  have hlen := h
  simp only [toDer, item, Item.encode, encodeAll, length_element, List.length_append,
    List.length_cons] at hlen
  have houter : Reads (Reader.inSequence do
      Reader.inSequence do
        Reader.identifier rsaIdentifier
        Reader.null
      Reader.bitString) pk.toDer
      (Item.sequence [.integer pk.modulus, .integer pk.exponent]).encode := by
    refine reads_sequence ?_ h
    simp only [encodeAll, List.append_nil]
    refine Reads.bind (v := ()) (reads_sequence ?_ ?_) (reads_bitString ?_)
    · simp only [encodeAll, List.append_nil]
      exact (reads_identifier (by decide)).bind reads_null
    · decide
    · simp only [Item.encode, encodeAll, length_element, List.length_append]
      omega
  have hinner : Reads (Reader.inSequence do
      let modulus ← Reader.integer
      let exponent ← Reader.integer
      return (modulus, exponent))
      (Item.sequence [.integer pk.modulus, .integer pk.exponent]).encode
      (pk.modulus, pk.exponent) := by
    refine reads_sequence ?_ ?_
    · simp only [encodeAll, List.append_nil]
      refine (reads_integer ?_).bind ((reads_integer ?_).bind_nil (Reads.pure _))
      all_goals omega
    · simp only [Item.encode, encodeAll, length_element, List.length_append]
      omega
  unfold PublicKey.ofDer
  rw [decode_of_reads houter, Outcome.ok_bind, decode_of_reads hinner, Outcome.ok_bind]
  dsimp only
  rw [PublicKey.of_self]
  rfl

theorem KeyShare.ofDer_toDer {share : KeyShare} (h : share.toDer.length < lengthLimit) :
    KeyShare.ofDer share.toDer = .ok share := by
  have hinner := h
  simp only [toDer, item, Item.encode, encodeAll, length_element, List.length_append] at hinner
  have hreads : Reads (Reader.inSequence do
      let version ← Reader.smallInteger
      if version ≠ 0 then throw .badValue
      else
        let modulus ← Reader.integer
        let exponent ← Reader.integer
        let value ← Reader.integer
        return (modulus, exponent, value)) share.toDer
      (share.publicKey.modulus, share.publicKey.exponent, share.exponent) := by
    refine reads_sequence ?_ h
    simp only [encodeAll, List.append_nil]
    refine (reads_smallInteger (by decide)).bind ?_
    rw [if_neg (by simp)]
    refine (reads_integer ?_).bind ((reads_integer ?_).bind ((reads_integer ?_).bind_nil
      (Reads.pure _)))
    all_goals omega
  unfold KeyShare.ofDer
  rw [decode_of_reads hreads, Outcome.ok_bind]
  dsimp only
  rw [PublicKey.of_self]
  rfl

end Rsa

end ThresholdKeys
