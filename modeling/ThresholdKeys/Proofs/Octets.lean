import ThresholdKeys.Bytes

/-!
# Lengths of numbers, and values of byte strings from the front

As many binary digits as a number has hold it, and the first of them is set.

The base module describes a fixed form by its last octet. Padding and lengths look at the first one:
`toNat_cons` and `fixed_succ_front` are the same facts read from the front.
-/

namespace ThresholdKeys

/-! ## Lengths of numbers -/

theorem lt_two_pow_bitLength (n : Nat) : n < 2 ^ bitLength n :=
  bitLength_le_iff.1 (Nat.le_refl _)

theorem bitLength_pos {n : Nat} (h : 0 < n) : 0 < bitLength n := by
  apply Nat.pos_of_ne_zero
  intro hzero
  have hlt := lt_two_pow_bitLength n
  rw [hzero] at hlt
  omega

theorem exists_bitLength {n : Nat} (h : 0 < n) : ∃ k, bitLength n = k + 1 :=
  Nat.exists_eq_add_one.2 (bitLength_pos h)

/-- The highest digit of a number is set. -/
theorem two_pow_le_of_bitLength {n k : Nat} (h : bitLength n = k + 1) : 2 ^ k ≤ n := by
  have hn : ¬ bitLength n ≤ k := by omega
  rw [bitLength_le_iff] at hn
  omega

theorem bitLength_eq_of_bounds {n k : Nat} (hlow : 2 ^ k ≤ n) (hhigh : n < 2 ^ (k + 1)) :
    bitLength n = k + 1 := by
  have hle := bitLength_le_iff.2 hhigh
  have hnot : ¬ bitLength n ≤ k := by
    rw [bitLength_le_iff]
    omega
  omega

theorem lt_pow_byteLength (n : Nat) : n < 256 ^ byteLength n :=
  byteLength_le_iff.1 (Nat.le_refl _)

/-- All octets of a number but the first are less than the number. -/
theorem pow_le_of_byteLength {n k : Nat} (h : byteLength n = k + 1) : 256 ^ k ≤ n := by
  have hn : ¬ byteLength n ≤ k := by omega
  rw [byteLength_le_iff] at hn
  omega

/-! ## Values -/

namespace Bytes

theorem toNat_cons (x : UInt8) (b : Bytes) :
    toNat (x :: b) = x.toNat * 256 ^ b.length + toNat b := by
  have h : ∀ (acc : Nat), b.foldl (fun v x => v * 256 + x.toNat) acc
      = acc * 256 ^ b.length + toNat b := by
    induction b with
    | nil => simp
    | cons y b ih =>
      intro acc
      have h0 : toNat (y :: b) = (0 * 256 + y.toNat) * 256 ^ b.length + toNat b := ih _
      rw [List.foldl_cons, ih, h0, List.length_cons, Nat.pow_succ']
      generalize 256 ^ b.length = k
      rw [Nat.zero_mul, Nat.zero_add, Nat.add_mul, Nat.mul_assoc, Nat.add_assoc]
  rw [toNat, List.foldl_cons, h, Nat.zero_mul, Nat.zero_add]

/-- The first octet of a fixed form is the high one. -/
theorem fixed_succ_front (len n : Nat) :
    fixed (len + 1) n = UInt8.ofNat (n / 256 ^ len) :: fixed len n := by
  induction len generalizing n with
  | zero => simp [fixed_succ]
  | succ len ih =>
    rw [fixed_succ, ih, fixed_succ len n, Nat.div_div_eq_div_mul, ← Nat.pow_succ', List.cons_append]

theorem toNat_fixed_of_lt {len n : Nat} (h : n < 256 ^ len) : toNat (fixed len n) = n := by
  rw [toNat_fixed, Nat.mod_eq_of_lt h]

@[simp] theorem toNat_ofNat (n : Nat) : toNat (ofNat n) = n :=
  toNat_fixed_of_lt (lt_pow_byteLength n)

@[simp] theorem length_ofNat (n : Nat) : (ofNat n).length = byteLength n := length_fixed _ _

theorem fixed?_of_lt {len n : Nat} (h : n < 256 ^ len) : fixed? n len = some (fixed len n) :=
  if_pos (byteLength_le_iff.2 h)

/-- A fixed form is the one byte string of its length and value. -/
theorem fixed?_eq_some_iff {n len : Nat} {b : Bytes} :
    fixed? n len = some b ↔ b.length = len ∧ toNat b = n := by
  constructor
  · intro h
    unfold fixed? at h
    split at h
    · next hfits =>
      cases h
      exact ⟨length_fixed len n, toNat_fixed_of_lt (byteLength_le_iff.1 hfits)⟩
    · cases h
  · rintro ⟨rfl, rfl⟩
    rw [fixed?_of_lt (toNat_lt b), fixed_toNat rfl]

/-- A byte string is found again from its value and its length. -/
theorem fixed?_toNat (b : Bytes) : fixed? (toNat b) b.length = some b :=
  fixed?_eq_some_iff.2 ⟨rfl, rfl⟩

end Bytes

end ThresholdKeys
