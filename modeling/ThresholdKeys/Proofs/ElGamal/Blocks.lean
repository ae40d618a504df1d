import ThresholdKeys.ElGamal.Block
import ThresholdKeys.ElGamal.Group
import ThresholdKeys.Proofs.Octets

/-!
# Padded blocks

A message has a block exactly if the block has three octets more. The block is unpadded to the
message, whatever its octets are: what follows the first zero after the filler is not looked at. No
other block of the length is unpadded to it (`unpad_eq_ok_iff`). As a number it is above zero and,
for a block as long as the order of a group, at most the order. `padding_exact` puts this together.
-/

namespace ThresholdKeys.Block

/-- The block of a message, as it is put together. -/
def assemble (message : Bytes) (length : Nat) : Bytes :=
  0x00 :: 0x01 :: List.replicate (length - 3 - message.length) 0xff ++ 0x00 :: message

theorem pad_eq_ok {message : Bytes} {length : Nat} (h : message.length + 3 ≤ length) :
    pad message length = .ok (assemble message length) := by
  unfold pad
  rw [if_neg (by omega), Checked.sub_of_le (by omega), Outcome.ok_bind, if_neg (by omega),
    Checked.sub_of_le (by omega)]
  rfl

theorem pad_eq_error {message : Bytes} {length : Nat} (h : length < message.length + 3) :
    pad message length = .error .messageTooLong := by
  unfold pad
  by_cases h3 : length < 3
  · rw [if_pos h3]
  · rw [if_neg h3, Checked.sub_of_le (by omega), Outcome.ok_bind, if_pos (by omega)]
    rfl

theorem afterFiller_replicate (n : Nat) (message : Bytes) :
    afterFiller (List.replicate n 0xff ++ 0x00 :: message) = .ok message := by
  induction n with
  | zero => rfl
  | succ n ih =>
    rw [List.replicate_succ, List.cons_append, afterFiller, if_neg (by decide), if_pos rfl, ih]

theorem unpad_assemble (message : Bytes) (length : Nat) :
    unpad (assemble message length) = .ok message := by
  unfold assemble
  rw [List.cons_append, List.cons_append, unpad, if_pos ⟨rfl, rfl⟩, afterFiller_replicate]

theorem pad_eq_ok_iff {message block : Bytes} {length : Nat} :
    pad message length = .ok block ↔
      message.length + 3 ≤ length ∧ block = assemble message length := by
  by_cases h : message.length + 3 ≤ length
  · rw [pad_eq_ok h, Outcome.ok.injEq]
    exact ⟨fun he => ⟨h, he.symm⟩, fun he => he.2.symm⟩
  · rw [pad_eq_error (by omega)]
    simp [h]

/-- The filler ends with the first octet that is not filler, and that is a zero. -/
theorem afterFiller_eq_ok {block message : Bytes} (h : afterFiller block = .ok message) :
    ∃ n, block = List.replicate n 0xff ++ 0x00 :: message := by
  fun_induction afterFiller block with
  | case1 => cases h
  | case2 rest =>
    cases h
    exact ⟨0, rfl⟩
  | case3 rest hzero ih =>
    obtain ⟨n, rfl⟩ := ih h
    exact ⟨n + 1, rfl⟩
  | case4 => cases h

/-- A filler that does not end with a zero is a wrong padding, and that is all it can be. -/
theorem afterFiller_cases (block : Bytes) :
    (∃ message, afterFiller block = .ok message) ∨ afterFiller block = .error .badPadding := by
  fun_induction afterFiller block with
  | case1 => exact .inr rfl
  | case2 rest => exact .inl ⟨rest, rfl⟩
  | case3 rest hzero ih => exact ih
  | case4 => exact .inr rfl

/-- A block is refused for its padding and for nothing else. -/
theorem unpad_cases (block : Bytes) :
    (∃ message, unpad block = .ok message) ∨ unpad block = .error .badPadding := by
  unfold unpad
  split
  · split
    · exact afterFiller_cases _
    · exact .inr rfl
  · exact .inr rfl

theorem length_assemble {message : Bytes} {length : Nat} (h : message.length + 3 ≤ length) :
    (assemble message length).length = length := by
  simp only [assemble, List.length_append, List.length_cons, List.length_replicate]
  omega

/-- **A block is unpadded to a message exactly if the message is padded to the block.** -/
theorem unpad_eq_ok_iff {block message : Bytes} :
    unpad block = .ok message ↔ pad message block.length = .ok block := by
  rw [pad_eq_ok_iff]
  constructor
  · intro h
    unfold unpad at h
    split at h
    · next x y rest =>
      split at h
      · next hxy =>
        obtain ⟨n, rfl⟩ := afterFiller_eq_ok h
        obtain ⟨rfl, rfl⟩ := hxy
        simp only [List.length_cons, List.length_append, List.length_replicate, assemble]
        refine ⟨by omega, ?_⟩
        rw [show n + (message.length + 1) + 1 + 1 - 3 - message.length = n by omega]
        rfl
      · cases h
    · cases h
  · rintro ⟨-, hblock⟩
    rw [hblock]
    exact unpad_assemble message block.length

/-- The first octet keeps a block below every number of its length, the second one above zero. -/
theorem toNat_assemble {message : Bytes} {length : Nat} (h : message.length + 3 ≤ length) :
    0 < Bytes.toNat (assemble message length) ∧
      Bytes.toNat (assemble message length) < 256 ^ (length - 1) := by
  have hlen := length_assemble h
  obtain ⟨rest, hrest⟩ : ∃ rest, assemble message length = 0x00 :: 0x01 :: rest := ⟨_, rfl⟩
  rw [hrest, List.length_cons, List.length_cons] at hlen
  have hlt := Bytes.toNat_lt (0x01 :: rest)
  rw [List.length_cons, show rest.length + 1 = length - 1 by omega] at hlt
  have hzero : Bytes.toNat (0x00 :: 0x01 :: rest) = Bytes.toNat (0x01 :: rest) := by
    rw [Bytes.toNat_cons]
    simp
  have hone : Bytes.toNat (0x01 :: rest) = 256 ^ rest.length + Bytes.toNat rest := by
    rw [Bytes.toNat_cons]
    simp
  have hpos : 0 < 256 ^ rest.length := Nat.pow_pos (by decide)
  rw [hrest, hzero]
  exact ⟨by omega, hlt⟩

/-- A block as long as a number is at most that number. -/
theorem toNat_assemble_le {q : Nat} {message : Bytes} (h : message.length + 3 ≤ byteLength q) :
    Bytes.toNat (assemble message (byteLength q)) ≤ q := by
  have hlt := (toNat_assemble h).2
  have hle : 256 ^ (byteLength q - 1) ≤ q := pow_le_of_byteLength (by omega)
  omega

/-- A block of the length for a group is a number that the group encodes. -/
theorem toNat_assemble_le_order {G : Group} {message : Bytes}
    (h : message.length + 3 ≤ G.messageLength) :
    Bytes.toNat (assemble message G.messageLength) ≤ G.order :=
  toNat_assemble_le h

/-- A block that no message is padded to is refused. -/
theorem unpad_eq_error {block : Bytes} (h : ∀ message, pad message block.length ≠ .ok block) :
    unpad block = .error .badPadding := by
  rcases unpad_cases block with ⟨message, hmessage⟩ | hrefused
  · exact absurd (unpad_eq_ok_iff.1 hmessage) (h message)
  · exact hrefused

/-- **Padding is exact.** The blocks that are unpadded are the ones that messages are padded to, and
each of them gives back its message; every other block is refused. A message has a block exactly if
the block has three octets more, and is refused otherwise; and a block as long as a number lies
between one and that number. -/
theorem padding_exact :
    (∀ block message, unpad block = .ok message ↔ pad message block.length = .ok block) ∧
    (∀ block, (∀ message, pad message block.length ≠ .ok block) →
      unpad block = .error .badPadding) ∧
    (∀ message length, (∃ block, pad message length = .ok block) ↔ message.length + 3 ≤ length) ∧
    (∀ message length, length < message.length + 3 →
      pad message length = .error .messageTooLong) ∧
    ∀ q message block, pad message (byteLength q) = .ok block →
      1 ≤ Bytes.toNat block ∧ Bytes.toNat block ≤ q := by
  refine ⟨fun block message => unpad_eq_ok_iff, fun block h => unpad_eq_error h,
    fun message length => ?_, fun message length h => pad_eq_error h, fun q message block h => ?_⟩
  · simp only [pad_eq_ok_iff, exists_and_left, exists_eq, and_true]
  · obtain ⟨hroom, rfl⟩ := pad_eq_ok_iff.1 h
    exact ⟨(toNat_assemble hroom).1, toNat_assemble_le hroom⟩

/-- A message that begins with a zero and the octet of the filler, in a block as long as the least
number of seven octets; and a block in which nothing ends the filler. -/
theorem padding_exact_least :
    pad [0x00, 0xff] 7 = .ok [0x00, 0x01, 0xff, 0xff, 0x00, 0x00, 0xff] ∧
    unpad [0x00, 0x01, 0xff, 0xff, 0x00, 0x00, 0xff] = .ok [0x00, 0xff] ∧
    unpad [0x00, 0x01, 0xff] = .error .badPadding ∧
    pad [] 2 = .error .messageTooLong ∧
    1 ≤ Bytes.toNat [0x00, 0x01, 0xff, 0xff, 0x00, 0x00, 0xff] ∧
    Bytes.toNat [0x00, 0x01, 0xff, 0xff, 0x00, 0x00, 0xff] ≤ 256 ^ 6 := by
  obtain ⟨hunpad, hrefused, -, hlong, hrange⟩ := padding_exact
  have hpad : pad [0x00, 0xff] 7 = .ok [0x00, 0x01, 0xff, 0xff, 0x00, 0x00, 0xff] := by decide
  have hnone : ∀ message, pad message 3 ≠ .ok [0x00, 0x01, 0xff] := by
    intro message h
    obtain ⟨hroom, hblock⟩ := pad_eq_ok_iff.1 h
    obtain rfl : message = [] := List.eq_nil_of_length_eq_zero (by omega)
    exact absurd hblock (by decide)
  exact ⟨hpad, (hunpad _ _).2 hpad, hrefused _ hnone, hlong _ _ (by decide),
    hrange (256 ^ 6) _ _ hpad⟩

end ThresholdKeys.Block
