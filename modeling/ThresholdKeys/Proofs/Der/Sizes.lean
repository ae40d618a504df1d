import ThresholdKeys.Proofs.Der.Keys

/-!
# Sizes of encodings

Values are read back from encodings below `lengthLimit`. Here that bound is derived from bounds on
what goes in: a key share of RSA from the size of its modulus, everything of ElGamal from the
encoding of the parameters. A byte string of a 64-bit machine is shorter than `addressLimit`;
parameters whose encoding is one have keys and ciphertexts that are read back.
-/

namespace ThresholdKeys

open Der

namespace Der

/-- A byte string of a 64-bit machine has fewer octets than this. -/
def addressLimit : Nat := 2 ^ 63

theorem length_lengthField_pos (n : Nat) : 1 ≤ (lengthField n).length := by
  unfold lengthField
  split <;> simp

theorem length_lengthField_le {n : Nat} (h : n < lengthLimit) : (lengthField n).length ≤ 9 := by
  have h8 : byteLength n ≤ 8 := byteLength_le_iff.2 (by unfold lengthLimit at h; omega)
  unfold lengthField
  split
  · simp
  · rw [List.length_cons, Bytes.length_ofNat]
    omega

theorem length_element_le {content : Bytes} (h : content.length < lengthLimit) (tag : UInt8) :
    (element tag content).length ≤ 10 + content.length := by
  have := length_lengthField_le h
  rw [length_element]
  omega

theorem le_length_element (tag : UInt8) (content : Bytes) :
    2 + content.length ≤ (element tag content).length := by
  have := length_lengthField_pos content.length
  rw [length_element]
  omega

theorem length_integerContent (n : Nat) : (integerContent n).length = bitLength n / 8 + 1 :=
  Bytes.length_fixed _ _

/-- A smaller number does not take more octets. -/
theorem length_integerContent_mono {a b : Nat} (h : a ≤ b) :
    (integerContent a).length ≤ (integerContent b).length := by
  have hb := lt_two_pow_bitLength b
  have hbits : bitLength a ≤ bitLength b := bitLength_le_iff.2 (Nat.lt_of_le_of_lt h hb)
  rw [length_integerContent, length_integerContent]
  omega

/-- The encoding of a number is bounded by the content of a larger one. -/
theorem length_integer_le {a b : Nat} (h : a ≤ b) (hb : (integerContent b).length < lengthLimit) :
    (Item.integer a).encode.length ≤ 10 + (integerContent b).length := by
  have hab := length_integerContent_mono h
  have hle := length_element_le (Nat.lt_of_le_of_lt hab hb) integerTag
  rw [Item.encode]
  omega

/-- A sequence is short if its items together are. -/
theorem length_sequence_lt {items : List Item} (h : (encodeAll items).length + 10 < lengthLimit) :
    (Item.sequence items).encode.length < lengthLimit := by
  have hcontent : (encodeAll items).length < lengthLimit := by omega
  have hle := length_element_le hcontent sequenceTag
  rw [Item.encode]
  omega

end Der

/-! ## RSA -/

theorem Rsa.KeyShare.length_toDer_lt {share : KeyShare}
    (hn : bitLength share.publicKey.modulus < 2 ^ 60)
    (hx : share.exponent < share.publicKey.modulus) : share.toDer.length < lengthLimit := by
  have hlimit : lengthLimit = 2 ^ 64 := rfl
  have hmod := length_integerContent share.publicKey.modulus
  have hb : (integerContent share.publicKey.modulus).length < lengthLimit := by omega
  have h1 := length_integer_le (Nat.zero_le _) hb
  have h2 := length_integer_le (Nat.le_refl _) hb
  have h3 := length_integer_le (Nat.le_of_lt share.publicKey.exponent_lt) hb
  have h4 := length_integer_le (Nat.le_of_lt hx) hb
  apply length_sequence_lt
  simp only [encodeAll, List.length_append, List.length_nil]
  omega

/-! ## ElGamal -/

namespace ElGamal

/-- The parameters hold the modulus, and 22 octets around it. -/
theorem Parameters.le_length_toDer (ps : Parameters) :
    (integerContent ps.group.modulus).length + 22 ≤ ps.toDer.length := by
  have hid : elGamalIdentifier.length = 9 := rfl
  have h1 := le_length_element identifierTag elGamalIdentifier
  have h2 := le_length_element integerTag (integerContent ps.group.modulus)
  have h3 := le_length_element integerTag (integerContent ps.generator)
  have h4 := le_length_element utf8StringTag (Bytes.ofText ps.electionId)
  have hg := length_integerContent ps.generator
  have houter := le_length_element sequenceTag
  rw [toDer, item, Item.encode]
  refine Nat.le_trans ?_ (houter _)
  simp only [encodeAll, List.length_append, List.length_nil, Item.encode]
  have hinner := houter (element integerTag (integerContent ps.group.modulus) ++
    (element integerTag (integerContent ps.generator) ++
      (element utf8StringTag (Bytes.ofText ps.electionId) ++ [])))
  simp only [List.length_append, List.length_nil] at hinner
  omega

/-- A number up to the modulus does not take more octets than the parameters. -/
theorem Parameters.length_integer_le {ps : Parameters} (h : ps.toDer.length < addressLimit)
    {x : Nat} (hx : x ≤ ps.group.modulus) :
    (Item.integer x).encode.length + 12 ≤ ps.toDer.length := by
  have hlimit : lengthLimit = 2 * addressLimit := rfl
  have hps := ps.le_length_toDer
  have hle := Der.length_integer_le hx (by omega)
  omega

theorem PrivateKey.length_toDer_lt {sk : PrivateKey}
    (h : sk.parameters.toDer.length < addressLimit) : sk.toDer.length < lengthLimit := by
  have hlimit : lengthLimit = 2 * addressLimit := rfl
  have hsecret : sk.secret ≤ sk.parameters.group.modulus := by
    have hlt := sk.secret_lt
    unfold Group.order at hlt
    omega
  have h0 : (Item.integer 0).encode.length = 3 := rfl
  have h1 := Parameters.length_integer_le h hsecret
  have hitem : sk.parameters.item.encode.length = sk.parameters.toDer.length := rfl
  apply length_sequence_lt
  simp only [encodeAll, List.length_append, List.length_nil, h0, hitem]
  omega

theorem PublicKey.length_toDer_lt {pk : PublicKey}
    (h : pk.parameters.toDer.length < addressLimit) : pk.toDer.length < lengthLimit := by
  have hlimit : lengthLimit = 2 * addressLimit := rfl
  obtain ⟨-, hkey, -⟩ := Group.isResidue_iff.1 pk.isResidue
  have h1 := Parameters.length_integer_le h (Nat.le_of_lt hkey)
  have hitem : pk.parameters.item.encode.length = pk.parameters.toDer.length := rfl
  apply length_sequence_lt
  simp only [encodeAll, List.length_append, List.length_nil, hitem]
  omega

theorem Ciphertext.length_toDer_lt {ct : Ciphertext} {ps : Parameters}
    (h : ps.toDer.length < addressLimit) (h1 : ct.blind < ps.group.modulus)
    (h2 : ct.blinded < ps.group.modulus) : ct.toDer.length < lengthLimit := by
  have hlimit : lengthLimit = 2 * addressLimit := rfl
  have hblind := Parameters.length_integer_le h (Nat.le_of_lt h1)
  have hblinded := Parameters.length_integer_le h (Nat.le_of_lt h2)
  have hid : (Item.identifier elGamalIdentifier).encode.length = 11 := rfl
  apply length_sequence_lt
  simp only [encodeAll, List.length_append, List.length_nil, hid]
  omega

end ElGamal

end ThresholdKeys
