import ThresholdKeys.Proofs.Octets
import ThresholdKeys.Rsa.Pss

/-!
# PSS encodings are what verifies

An encoding that `Pss.encode` returns has the length that `Pss.verify` asks for, is a number of at
most `emBits` binary digits, and verifies for its message (`verify_encode`). Conversely a string
that verifies is the encoding of the message with the salt that the check finds under the mask
(`verify_iff_encoded`). Nothing is assumed of the digest but its length.

The first octet of the data block loses its excess bits, in the encoding and again in the check.
Since the block starts with a zero or a one, and the lowest bit is always kept, it comes through.
Putting the mask on and taking it off are the same operation (`unmask`), so that what the check has
taken off the encoder puts on again.
-/

namespace ThresholdKeys.Pss

/-! ## The parts of an encoding -/

@[simp] theorem length_maskOctets (seed : Bytes) (len : Nat) :
    (maskOctets seed len).length = len := by
  have h : ∀ l : List Nat, (l.flatMap fun i => sha256 (seed ++ Bytes.fixed 4 i)).length
      = 32 * l.length := by
    intro l
    induction l with
    | nil => rfl
    | cons i l ih =>
      rw [List.flatMap_cons, List.length_append, length_sha256, ih, List.length_cons]
      omega
  rw [maskOctets, List.length_take, h, List.length_range]
  omega

/-- The bits of the first octet that are kept for an encoding of `emBits` binary digits. -/
def topMask (emBits : Nat) : UInt8 := 0xff >>> UInt8.ofNat (8 * ((emBits + 7) / 8) - emBits)

theorem topBits_eq {ε : Type} (emBits : Nat) :
    (topBits ((emBits + 7) / 8) emBits : Outcome ε UInt8) = .ok (topMask emBits) := by
  rw [topBits, Checked.sub_of_le (by omega), Outcome.ok_bind, Checked.shiftRight_of_lt (by omega)]
  rfl

theorem toNat_topMask_lt (emBits : Nat) :
    (topMask emBits).toNat < 2 ^ (8 - (8 * ((emBits + 7) / 8) - emBits)) := by
  have h : ∀ k : Fin 8, ((0xff : UInt8) >>> UInt8.ofNat k).toNat < 2 ^ (8 - k.val) := by decide
  exact h ⟨8 * ((emBits + 7) / 8) - emBits, by omega⟩

/-- The lowest bit is always kept. -/
theorem one_and_topMask (emBits : Nat) : 1 &&& topMask emBits = 1 := by
  have h : ∀ k : Fin 8, (1 : UInt8) &&& 0xff >>> UInt8.ofNat k = 1 := by decide
  exact h ⟨8 * ((emBits + 7) / 8) - emBits, by omega⟩

/-- Zeros, a one and the salt. -/
def dataBlock (emBits : Nat) (salt : Bytes) : Bytes :=
  List.replicate ((emBits + 7) / 8 - 66) 0 ++ 0x01 :: salt

/-- An encoding with any octets for the digest and for the mask. -/
def layout (emBits : Nat) (salt digest octets : Bytes) : Bytes :=
  keepTop (topMask emBits) (Bytes.xor (dataBlock emBits salt) octets) ++ digest ++ [trailer]

/-- The encoding with a digest `h`, which the mask is generated from. -/
def assemble (emBits : Nat) (salt h : Bytes) : Bytes :=
  layout emBits salt h (maskOctets h ((emBits + 7) / 8 - 33))

/-- The block of which `masked` is left under the mask of the digest `h`. -/
def unmask (emBits : Nat) (masked h : Bytes) : Bytes :=
  keepTop (topMask emBits) (Bytes.xor masked (maskOctets h ((emBits + 7) / 8 - 33)))

/-- What takes the mask off has put it on the data block. -/
theorem assemble_eq (emBits : Nat) (salt h : Bytes) :
    assemble emBits salt h = unmask emBits (dataBlock emBits salt) h ++ (h ++ [trailer]) := by
  rw [assemble, layout, unmask, List.append_assoc]

/-- When there is an encoding, and what it is. -/
theorem encode_eq (message salt : Bytes) (emBits : Nat) : encode message emBits salt
    = if salt.length ≠ saltLength then .error .badPadding
      else if (emBits + 7) / 8 < hashLength + saltLength + 2 then .error .badModulus
      else if 2 ^ 32 ≤ ((emBits + 7) / 8 - 33 + 31) / 32 then .fault
      else .ok (assemble emBits salt (saltedDigest (sha256 message) salt)) := by
  have h1 : hashLength = 32 := rfl
  have h2 : saltLength = 32 := rfl
  unfold encode
  dsimp only
  by_cases hs : salt.length ≠ saltLength
  · rw [if_pos hs, if_pos hs]
  · by_cases hl : (emBits + 7) / 8 < hashLength + saltLength + 2
    · rw [if_neg hs, if_neg hs, if_pos hl, if_pos hl]
    · rw [if_neg hs, if_neg hs, if_neg hl, if_neg hl, Checked.sub_of_le (by omega),
        Outcome.ok_bind, Checked.sub_of_le (by omega), Outcome.ok_bind, mask, h1]
      by_cases hm : 2 ^ 32 ≤ ((emBits + 7) / 8 - 33 + 31) / 32
      · rw [if_pos hm, if_pos hm]
        rfl
      · rw [if_neg hm, if_neg hm, Outcome.ok_bind, topBits_eq, Outcome.ok_bind, Nat.sub_sub]
        rfl

theorem encode_eq_ok {message salt em : Bytes} {emBits : Nat}
    (h : encode message emBits salt = .ok em) :
    salt.length = 32 ∧ 66 ≤ (emBits + 7) / 8 ∧ ((emBits + 7) / 8 - 33 + 31) / 32 < 2 ^ 32 ∧
      em = assemble emBits salt (saltedDigest (sha256 message) salt) := by
  have h1 : hashLength = 32 := rfl
  have h2 : saltLength = 32 := rfl
  rw [encode_eq] at h
  split at h
  · cases h
  · split at h
    · cases h
    · split at h
      · cases h
      · cases h
        exact ⟨by omega, by omega, by omega, rfl⟩

/-! ## Length and value -/

@[simp] theorem length_keepTop (top : UInt8) (b : Bytes) : (keepTop top b).length = b.length := by
  cases b <;> rfl

@[simp] theorem length_saltedDigest (digest salt : Bytes) :
    (saltedDigest digest salt).length = 32 := rfl

theorem length_dataBlock {emBits : Nat} {salt : Bytes} (hs : salt.length = 32)
    (hl : 66 ≤ (emBits + 7) / 8) : (dataBlock emBits salt).length = (emBits + 7) / 8 - 33 := by
  simp only [dataBlock, List.length_append, List.length_replicate, List.length_cons, hs]
  omega

theorem length_xor_dataBlock {emBits : Nat} {salt octets : Bytes} (hs : salt.length = 32)
    (hl : 66 ≤ (emBits + 7) / 8) (ho : octets.length = (emBits + 7) / 8 - 33) :
    (Bytes.xor (dataBlock emBits salt) octets).length = (emBits + 7) / 8 - 33 := by
  rw [Bytes.xor, List.length_zipWith, length_dataBlock hs hl, ho, Nat.min_self]

theorem xor_dataBlock_ne_nil {emBits : Nat} {salt octets : Bytes} (hs : salt.length = 32)
    (hl : 66 ≤ (emBits + 7) / 8) (ho : octets.length = (emBits + 7) / 8 - 33) :
    Bytes.xor (dataBlock emBits salt) octets ≠ [] := by
  intro hnil
  have hlen := length_xor_dataBlock hs hl ho
  rw [hnil, List.length_nil] at hlen
  omega

theorem length_unmask {emBits : Nat} {masked : Bytes} (hb : masked.length = (emBits + 7) / 8 - 33)
    (h : Bytes) : (unmask emBits masked h).length = (emBits + 7) / 8 - 33 := by
  rw [unmask, length_keepTop, Bytes.xor, List.length_zipWith, hb, length_maskOctets, Nat.min_self]

theorem length_assemble {emBits : Nat} {salt h : Bytes} (hs : salt.length = 32)
    (hh : h.length = 32) (hl : 66 ≤ (emBits + 7) / 8) :
    (assemble emBits salt h).length = (emBits + 7) / 8 := by
  rw [assemble_eq, List.length_append, length_unmask (length_dataBlock hs hl), List.length_append,
    hh, List.length_singleton]
  omega

/-- The first octet of an encoding has no more bits than are kept. -/
theorem toNat_keepTop_lt (top : UInt8) (b rest : Bytes) {k : Nat} (hb : b ≠ [])
    (htop : top.toNat < 2 ^ k) : Bytes.toNat (keepTop top b ++ rest)
      < 2 ^ k * 256 ^ (b.length - 1 + rest.length) := by
  cases b with
  | nil => exact absurd rfl hb
  | cons x b =>
    have hx : (x &&& top).toNat < 2 ^ k := by
      rw [UInt8.toNat_and]
      exact Nat.lt_of_le_of_lt Nat.and_le_right htop
    have hrest := Bytes.toNat_lt (b ++ rest)
    rw [List.length_append] at hrest
    rw [keepTop, List.cons_append, Bytes.toNat_cons, List.length_append, List.length_cons,
      Nat.add_sub_cancel]
    calc (x &&& top).toNat * 256 ^ (b.length + rest.length) + Bytes.toNat (b ++ rest)
        < ((x &&& top).toNat + 1) * 256 ^ (b.length + rest.length) := by
          rw [Nat.add_mul, Nat.one_mul]
          omega
      _ ≤ 2 ^ k * 256 ^ (b.length + rest.length) := Nat.mul_le_mul_right _ hx

/-- The value of an encoding is bounded whatever its digest and its mask are. -/
theorem toNat_layout_lt {emBits : Nat} {salt digest octets : Bytes} (hs : salt.length = 32)
    (hd : digest.length = 32) (ho : octets.length = (emBits + 7) / 8 - 33)
    (hl : 66 ≤ (emBits + 7) / 8) : Bytes.toNat (layout emBits salt digest octets) < 2 ^ emBits := by
  have h := toNat_keepTop_lt (topMask emBits) _ (digest ++ [trailer])
    (xor_dataBlock_ne_nil hs hl ho) (toNat_topMask_lt emBits)
  rw [length_xor_dataBlock hs hl ho, List.length_append, hd, List.length_singleton,
    show (256 : Nat) = 2 ^ 8 from rfl, ← Nat.pow_mul, ← Nat.pow_add, ← List.append_assoc] at h
  rwa [show 8 - (8 * ((emBits + 7) / 8) - emBits) + 8 * ((emBits + 7) / 8 - 33 - 1 + (32 + 1))
    = emBits by omega] at h

/-! ## Verification -/

theorem and_not_and (x top : UInt8) : x &&& top &&& ~~~top = 0 := by
  rw [UInt8.and_assoc, UInt8.and_not_self, UInt8.and_zero]

theorem and_xor_and (x y top : UInt8) : ((x ^^^ y) &&& top ^^^ y) &&& top = x &&& top := by
  apply UInt8.toBitVec_inj.1
  ext i hi
  simp only [UInt8.toBitVec_and, UInt8.toBitVec_xor, BitVec.getElem_and, BitVec.getElem_xor]
  cases x.toBitVec[i] <;> cases y.toBitVec[i] <;> cases top.toBitVec[i] <;> rfl

theorem keepTop_not_keepTop (top : UInt8) {b : Bytes} (hb : b ≠ []) :
    keepTop (~~~top) ((keepTop top b).take 1) = [0] := by
  cases b with
  | nil => exact absurd rfl hb
  | cons x b => simp [keepTop, and_not_and]

/-- Masking once more takes the mask off, and the bits that had been cleared stay so. -/
theorem keepTop_xor_keepTop (top : UInt8) {b m : Bytes} (h : b.length ≤ m.length) :
    keepTop top (Bytes.xor (keepTop top (Bytes.xor b m)) m) = keepTop top b := by
  cases b with
  | nil => rfl
  | cons x b =>
    cases m with
    | nil => simp at h
    | cons y m =>
      have hb : Bytes.xor (Bytes.xor b m) m = b := Bytes.xor_xor (by simpa using h)
      simp only [Bytes.xor, List.zipWith_cons_cons, keepTop] at hb ⊢
      rw [hb, and_xor_and]

theorem keepTop_dataBlock (emBits : Nat) (salt : Bytes) :
    keepTop (topMask emBits) (dataBlock emBits salt) = dataBlock emBits salt := by
  rw [dataBlock]
  cases (emBits + 7) / 8 - 66 with
  | zero =>
    rw [List.replicate_zero, List.nil_append, keepTop, one_and_topMask]
  | succ k =>
    rw [List.replicate_succ, List.cons_append, keepTop, UInt8.zero_and]

/-- The same mask once more gives the block back, less the bits that an encoding cannot have. -/
theorem unmask_unmask {emBits : Nat} {masked : Bytes} (hb : masked.length = (emBits + 7) / 8 - 33)
    (h : Bytes) : unmask emBits (unmask emBits masked h) h = keepTop (topMask emBits) masked :=
  keepTop_xor_keepTop _ (Nat.le_of_eq (by rw [hb, length_maskOctets]))

theorem and_of_and_not {x top : UInt8} (h : x &&& ~~~top = 0) : x &&& top = x := by
  have hbits := congrArg UInt8.toBitVec h
  apply UInt8.toBitVec_inj.1
  ext i hi
  have hbit : (x &&& ~~~top).toBitVec[i] = (0 : UInt8).toBitVec[i] := by rw [hbits]
  simp only [UInt8.toBitVec_and, UInt8.toBitVec_not, BitVec.getElem_and,
    BitVec.getElem_not] at hbit ⊢
  cases hx : x.toBitVec[i] <;> cases ht : top.toBitVec[i] <;> simp_all

/-- A string whose excess bits are clear loses nothing with them. -/
theorem keepTop_of_clear {top : UInt8} {b : Bytes} (h : keepTop (~~~top) (b.take 1) = [0]) :
    keepTop top b = b := by
  cases b with
  | nil => rfl
  | cons x b =>
    have hclear : x &&& ~~~top = 0 := by simpa [keepTop] using h
    rw [keepTop, and_of_and_not hclear]

/-- A block falls into as many octets as the filler has, one more, and the salt. -/
theorem exists_split {n : Nat} {block : Bytes} (hb : block.length = n - 33) (hn : 66 ≤ n) :
    ∃ filler x salt, block = filler ++ x :: salt ∧ filler.length = n - 66 := by
  have hlt : n - 66 < block.length := by omega
  refine ⟨block.take (n - 66), block[n - 66], block.drop (n - 66 + 1), ?_, ?_⟩
  · rw [List.getElem_cons_drop, List.take_append_drop]
  · rw [List.length_take, Nat.min_eq_left (Nat.le_of_lt hlt)]

/-- A block is that of a salt if zeros and a one come before the salt. -/
theorem eq_dataBlock_iff {emBits : Nat} {filler salt salt' : Bytes} {x : UInt8}
    (hfiller : filler.length = (emBits + 7) / 8 - 66) :
    filler ++ x :: salt = dataBlock emBits salt'
      ↔ ¬ (filler.any (· ≠ 0) = true ∨ x ≠ 0x01) ∧ salt = salt' := by
  have hzeros : filler = List.replicate ((emBits + 7) / 8 - 66) 0
      ↔ ¬ filler.any (· ≠ 0) = true := by
    rw [List.eq_replicate_iff]
    simp [hfiller]
  constructor
  · intro h
    obtain ⟨hfill, hrest⟩ := List.append_inj h (by rw [hfiller, List.length_replicate])
    obtain ⟨hone, hsalt⟩ := List.cons_eq_cons.1 hrest
    exact ⟨fun hor => hor.elim (hzeros.1 hfill) fun hne => hne hone, hsalt⟩
  · rintro ⟨hnone, rfl⟩
    obtain ⟨hfill, hone⟩ := not_or.1 hnone
    rw [dataBlock, hzeros.2 hfill, Decidable.of_not_not hone]

/-- **What the check comes to** for a string that is taken apart: its end is the trailer, its excess
bits are clear, and under the mask is the data block of a salt whose digest is the one at hand. -/
theorem verify_parts {ε : Type} (message : Bytes) {emBits : Nat} {masked h : Bytes} (last : UInt8)
    (hmasked : masked.length = (emBits + 7) / 8 - 33) (hh : h.length = 32)
    (hl : 66 ≤ (emBits + 7) / 8) (hm : ((emBits + 7) / 8 - 33 + 31) / 32 < 2 ^ 32) :
    ∃ accepted : Bool,
      (verify message (masked ++ (h ++ [last])) emBits : Outcome ε Bool) = .ok accepted ∧
      (accepted = true ↔ last = trailer ∧ keepTop (~~~topMask emBits) (masked.take 1) = [0] ∧
        ∃ salt, unmask emBits masked h = dataBlock emBits salt ∧
          saltedDigest (sha256 message) salt = h) := by
  have hlength : (masked ++ (h ++ [last])).length = (emBits + 7) / 8 := by
    simp only [List.length_append, List.length_singleton]
    omega
  have h1 : hashLength = 32 := rfl
  have h2 : saltLength = 32 := rfl
  unfold verify
  dsimp only
  rw [if_neg (by omega)]
  by_cases hlast : last = trailer
  · rw [if_neg (by simp [hlast]), Checked.sub_of_le (by omega), Outcome.ok_bind,
      show (emBits + 7) / 8 - (hashLength + 1) = masked.length by omega,
      Checked.split_of_le (by simp), Outcome.ok_bind]
    dsimp only
    rw [List.take_left, List.drop_left, Checked.split_of_le (by simp [hh, h1]), Outcome.ok_bind]
    dsimp only
    rw [List.take_left' (hh.trans h1.symm), topBits_eq, Outcome.ok_bind]
    by_cases htop : keepTop (~~~topMask emBits) (masked.take 1) = [0]
    · rw [if_neg (fun hne => hne htop), mask, if_neg (by omega), Outcome.ok_bind,
        Checked.sub_of_le (by omega), Outcome.ok_bind]
      -- the block falls into as many octets as the filler has, one more, and the salt
      obtain ⟨filler, x, salt, hunmask, hfiller⟩ := exists_split (length_unmask hmasked h) hl
      have hblock := hunmask
      rw [unmask, ← hmasked] at hblock
      rw [hblock, Checked.split_of_le (by simp; omega), Outcome.ok_bind]
      dsimp only
      rw [List.take_left' (by omega), List.drop_left' (by omega)]
      dsimp only
      rw [hunmask]
      by_cases hbad : filler.any (· ≠ 0) = true ∨ x ≠ 0x01
      · rw [if_pos hbad]
        refine ⟨false, rfl, ⟨fun hfalse => absurd hfalse Bool.false_ne_true, ?_⟩⟩
        rintro ⟨-, -, salt', hsame, -⟩
        exact absurd hbad ((eq_dataBlock_iff hfiller).1 hsame).1
      · rw [if_neg hbad]
        refine ⟨_, rfl, ?_⟩
        rw [decide_eq_true_iff]
        constructor
        · exact fun hdigest =>
            ⟨hlast, htop, salt, (eq_dataBlock_iff hfiller).2 ⟨hbad, rfl⟩, hdigest⟩
        · rintro ⟨-, -, salt', hsame, hdigest⟩
          rw [((eq_dataBlock_iff hfiller).1 hsame).2, hdigest]
    · rw [if_pos htop]
      exact ⟨false, rfl, by simp [htop]⟩
  · rw [if_pos (by simp [hlast])]
    exact ⟨false, rfl, by simp [hlast]⟩

/-- A string of another length than an encoding is not accepted. -/
theorem verify_of_length {ε : Type} (message : Bytes) {em : Bytes} {emBits : Nat}
    (h : ¬ (em.length = (emBits + 7) / 8 ∧ 66 ≤ (emBits + 7) / 8)) :
    (verify message em emBits : Outcome ε Bool) = .ok false := by
  have h1 : hashLength = 32 := rfl
  have h2 : saltLength = 32 := rfl
  unfold verify
  dsimp only
  rw [if_pos (by omega)]

/-- Every string of the length of an encoding is taken apart. -/
theorem exists_parts {n : Nat} {em : Bytes} (hlen : em.length = n) (hn : 66 ≤ n) :
    ∃ masked h last, em = masked ++ (h ++ [last]) ∧ masked.length = n - 33 ∧ h.length = 32 := by
  have hne : em ≠ [] := List.ne_nil_of_length_pos (by omega)
  have hinit : em.dropLast.length = n - 1 := by rw [List.length_dropLast, hlen]
  refine ⟨em.dropLast.take (n - 33), em.dropLast.drop (n - 33), em.getLast hne, ?_, ?_, ?_⟩
  · rw [← List.append_assoc, List.take_append_drop, List.dropLast_concat_getLast]
  · rw [List.length_take, hinit]
    omega
  · rw [List.length_drop, hinit]
    omega

/-- **Encodings verify**: whatever the message and the salt. -/
theorem verify_encode {ε : Type} {message salt em : Bytes} {emBits : Nat}
    (h : encode message emBits salt = .ok em) :
    (verify message em emBits : Outcome ε Bool) = .ok true := by
  obtain ⟨hs, hl, hm, rfl⟩ := encode_eq_ok h
  have hmasked := length_unmask (length_dataBlock hs hl) (saltedDigest (sha256 message) salt)
  obtain ⟨accepted, hrun, hiff⟩ := verify_parts (ε := ε) message trailer hmasked
    (length_saltedDigest _ _) hl hm
  have hclear := keepTop_not_keepTop (topMask emBits)
    (xor_dataBlock_ne_nil hs hl (length_maskOctets (saltedDigest (sha256 message) salt) _))
  have hblock : unmask emBits
      (unmask emBits (dataBlock emBits salt) (saltedDigest (sha256 message) salt))
      (saltedDigest (sha256 message) salt) = dataBlock emBits salt := by
    rw [unmask_unmask (length_dataBlock hs hl), keepTop_dataBlock]
  rw [assemble_eq, hrun, hiff.2 ⟨rfl, hclear, salt, hblock, rfl⟩]

/-- An encoding is a number of at most `emBits` binary digits, in as many octets as they take. -/
theorem encode_bounds {message salt em : Bytes} {emBits : Nat}
    (h : encode message emBits salt = .ok em) :
    em.length = (emBits + 7) / 8 ∧ Bytes.toNat em < 2 ^ emBits := by
  obtain ⟨hs, hl, -, rfl⟩ := encode_eq_ok h
  refine ⟨length_assemble hs (length_saltedDigest _ _) hl, ?_⟩
  rw [assemble]
  exact toNat_layout_lt hs (length_saltedDigest _ _) (length_maskOctets _ _) hl

/-- There are encodings from the least number of binary digits on. -/
theorem exists_encode_iff (message : Bytes) {salt : Bytes} {emBits : Nat} (hs : salt.length = 32)
    (hm : ((emBits + 7) / 8 - 33 + 31) / 32 < 2 ^ 32) :
    (∃ em, encode message emBits salt = .ok em) ↔ minBits ≤ emBits := by
  have hmin : minBits = 521 := rfl
  have h1 : hashLength = 32 := rfl
  have h2 : saltLength = 32 := rfl
  constructor
  · rintro ⟨em, hem⟩
    obtain ⟨-, hl, -, -⟩ := encode_eq_ok hem
    omega
  · intro hbits
    rw [encode_eq, if_neg (fun hne => hne hs), if_neg (by omega), if_neg (by omega)]
    exact ⟨_, rfl⟩

/-- What the check has found under the mask is encoded to the string that was checked. -/
theorem encode_of_parts {message masked h salt : Bytes} {emBits : Nat}
    (hmasked : masked.length = (emBits + 7) / 8 - 33) (hl : 66 ≤ (emBits + 7) / 8)
    (hm : ((emBits + 7) / 8 - 33 + 31) / 32 < 2 ^ 32)
    (hclear : keepTop (~~~topMask emBits) (masked.take 1) = [0])
    (hblock : unmask emBits masked h = dataBlock emBits salt)
    (hdigest : saltedDigest (sha256 message) salt = h) :
    salt.length = 32 ∧ encode message emBits salt = .ok (masked ++ (h ++ [trailer])) := by
  have h1 : hashLength = 32 := rfl
  have h2 : saltLength = 32 := rfl
  have hs : salt.length = 32 := by
    have hlen := congrArg List.length hblock
    rw [length_unmask hmasked, dataBlock, List.length_append, List.length_replicate,
      List.length_cons] at hlen
    omega
  have hsame : unmask emBits (dataBlock emBits salt) h = masked := by
    rw [← hblock, unmask_unmask hmasked, keepTop_of_clear hclear]
  rw [encode_eq, if_neg (fun hne => hne hs), if_neg (by omega), if_neg (by omega), hdigest,
    assemble_eq, hsame]
  exact ⟨hs, rfl⟩

/-- **Exactly the encodings verify.** The check always comes to a verdict, and accepts a string
exactly if it is the encoding of the message with some salt. With a salt of 32 octets there is an
encoding exactly from `minBits` binary digits on; its value has at most `emBits` of them, as has
that of any string of its layout, whatever the digest and the octets of the mask are. -/
theorem verify_iff_encoded {ε : Type} (message : Bytes) {emBits : Nat} (hbits : emBits < 2 ^ 40) :
    (∀ em, ∃ accepted : Bool, (verify message em emBits : Outcome ε Bool) = .ok accepted ∧
      (accepted = true ↔ ∃ salt, salt.length = 32 ∧ encode message emBits salt = .ok em)) ∧
    minBits = 521 ∧
    ∀ salt : Bytes, salt.length = 32 →
      ((∃ em, encode message emBits salt = .ok em) ↔ minBits ≤ emBits) ∧
      (∀ em, encode message emBits salt = .ok em → Bytes.toNat em < 2 ^ emBits ∧
        ∃ digest octets, digest.length = 32 ∧ octets.length = (emBits + 7) / 8 - 33 ∧
          em = layout emBits salt digest octets) ∧
      ∀ digest octets : Bytes, minBits ≤ emBits → digest.length = 32 →
        octets.length = (emBits + 7) / 8 - 33 →
          Bytes.toNat (layout emBits salt digest octets) < 2 ^ emBits := by
  have hm : ((emBits + 7) / 8 - 33 + 31) / 32 < 2 ^ 32 := by omega
  refine ⟨fun em => ?_, rfl, fun salt hs => ⟨exists_encode_iff message hs hm, ?_, ?_⟩⟩
  · by_cases hlen : em.length = (emBits + 7) / 8 ∧ 66 ≤ (emBits + 7) / 8
    · obtain ⟨masked, h, last, rfl, hmasked, hh⟩ := exists_parts hlen.1 hlen.2
      obtain ⟨accepted, hrun, hiff⟩ := verify_parts (ε := ε) message last hmasked hh hlen.2 hm
      refine ⟨accepted, hrun, ?_⟩
      constructor
      · intro haccepted
        obtain ⟨rfl, hclear, salt, hblock, hdigest⟩ := hiff.1 haccepted
        exact ⟨salt, encode_of_parts hmasked hlen.2 hm hclear hblock hdigest⟩
      · rintro ⟨salt, -, hencode⟩
        exact Outcome.ok.inj (hrun.symm.trans (verify_encode hencode))
    · refine ⟨false, verify_of_length message hlen, ?_⟩
      constructor
      · exact fun hfalse => absurd hfalse Bool.false_ne_true
      · rintro ⟨salt, -, hencode⟩
        obtain ⟨-, hl, -, -⟩ := encode_eq_ok hencode
        exact absurd ⟨(encode_bounds hencode).1, hl⟩ hlen
  · intro em hem
    obtain ⟨-, -, -, hassemble⟩ := encode_eq_ok hem
    rw [assemble] at hassemble
    exact ⟨(encode_bounds hem).2, _, _, length_saltedDigest _ _, length_maskOctets _ _, hassemble⟩
  · intro digest octets hmin hd ho
    have hleast : minBits = 521 := rfl
    exact toNat_layout_lt hs hd ho (by omega)

/-- The shortest encodings: the one in front of the salt shares its octet with the excess bits. -/
theorem verify_iff_encoded_shortest :
    ∃ em, encode [0x6d] 521 (List.replicate 32 7) = .ok em ∧ Bytes.toNat em < 2 ^ 521 ∧
      (verify [0x6d] em 521 : Outcome ArithmeticError Bool) = .ok true ∧
      ¬ ∃ em, encode [0x6d] 520 (List.replicate 32 7) = .ok em := by
  obtain ⟨hverify, -, hencode⟩ :=
    verify_iff_encoded (ε := ArithmeticError) [0x6d] (show 521 < 2 ^ 40 by decide)
  obtain ⟨-, -, hshorter⟩ :=
    verify_iff_encoded (ε := ArithmeticError) [0x6d] (show 520 < 2 ^ 40 by decide)
  obtain ⟨hexists, hvalue, -⟩ := hencode (List.replicate 32 7) (by decide)
  obtain ⟨em, hem⟩ := hexists.2 (by decide)
  obtain ⟨accepted, hrun, hiff⟩ := hverify em
  have haccepted : accepted = true := hiff.2 ⟨List.replicate 32 7, by decide, hem⟩
  refine ⟨em, hem, (hvalue em hem).1, by rw [hrun, haccepted], fun hsome => ?_⟩
  exact absurd ((hshorter (List.replicate 32 7) (by decide)).1.1 hsome) (by decide)

end ThresholdKeys.Pss
