/-!
# Byte strings

A byte string is a list of octets. Its value is read big-endian, most significant octet first.

* `toNat` is the value, `fixed len n` the `len` octets that hold `n` (its low part, if it does not
  fit), `ofNat` the shortest form, `fixed?` a form of a given width if there is one.
* `toNat_fixed` and `fixed_toNat` say that octets and values of a fixed width correspond.
* `hex` and `text?` are the two ways a byte string is shown to a person; `ofHex?` and `ofText` lead
  back.
-/

namespace ThresholdKeys

/-- Powers of numbers are those of the core library, also where an algebra library has its own. -/
@[default_instance high]
instance (priority := high) powNat : Pow Nat Nat := instPowNat

/-- A byte string. -/
abbrev Bytes := List UInt8

/-- The number of binary digits of `n`; zero has none. -/
def bitLength (n : Nat) : Nat := if n = 0 then 0 else n.log2 + 1

/-- The number of octets that hold `n`; zero needs none. -/
def byteLength (n : Nat) : Nat := (bitLength n + 7) / 8

/-- A number fits into `k` binary digits exactly if it is below `2 ^ k`. -/
theorem bitLength_le_iff {n k : Nat} : bitLength n ≤ k ↔ n < 2 ^ k := by
  unfold bitLength
  by_cases h : n = 0
  · rw [if_pos h, h]
    exact iff_of_true (Nat.zero_le k) (Nat.two_pow_pos k)
  · rw [if_neg h, Nat.succ_le_iff, Nat.log2_lt h]

/-- A number fits into `k` octets exactly if it is below `256 ^ k`. -/
theorem byteLength_le_iff {n k : Nat} : byteLength n ≤ k ↔ n < 256 ^ k := by
  have h : byteLength n ≤ k ↔ bitLength n ≤ 8 * k := by unfold byteLength; omega
  rw [h, bitLength_le_iff, Nat.pow_mul]

namespace Bytes

/-! ## Values -/

/-- The big-endian value. -/
def toNat (b : Bytes) : Nat := b.foldl (fun v x => v * 256 + x.toNat) 0

/-- Puts the `len` low octets of `n` in front of `tail`. -/
def fixedOnto : (len n : Nat) → (tail : Bytes) → Bytes
  | 0, _, tail => tail
  | len + 1, n, tail => fixedOnto len (n / 256) (UInt8.ofNat n :: tail)

/-- The `len` low octets of `n`. -/
def fixed (len n : Nat) : Bytes := fixedOnto len n []

/-- The shortest big-endian form; zero is empty. -/
def ofNat (n : Nat) : Bytes := fixed (byteLength n) n

/-- The big-endian form of exactly `len` octets, if `n` fits. -/
def fixed? (n len : Nat) : Option Bytes := if byteLength n ≤ len then some (fixed len n) else none

/-- The `len` low octets of `n`, least significant first. -/
def littleEndian (len n : Nat) : Bytes := (fixed len n).reverse

/-- The little-endian value. -/
def toNatLittle (b : Bytes) : Nat := toNat b.reverse

/-- Octet by octet exclusive or. -/
def xor (a b : Bytes) : Bytes := List.zipWith (· ^^^ ·) a b

theorem fixedOnto_eq (len n : Nat) (tail : Bytes) : fixedOnto len n tail = fixed len n ++ tail := by
  induction len generalizing n tail with
  | zero => rfl
  | succ len ih => rw [fixed, fixedOnto, fixedOnto, ih, ih _ [_], List.append_assoc]; rfl

@[simp] theorem fixed_zero (n : Nat) : fixed 0 n = [] := rfl

/-- The last octet of a fixed form is the low one. -/
theorem fixed_succ (len n : Nat) : fixed (len + 1) n = fixed len (n / 256) ++ [UInt8.ofNat n] := by
  rw [fixed, fixedOnto, fixedOnto_eq]

@[simp] theorem length_fixed (len n : Nat) : (fixed len n).length = len := by
  induction len generalizing n with
  | zero => rfl
  | succ len ih => rw [fixed_succ, List.length_append, ih]; rfl

@[simp] theorem toNat_nil : toNat [] = 0 := rfl

theorem toNat_concat (b : Bytes) (x : UInt8) : toNat (b ++ [x]) = toNat b * 256 + x.toNat := by
  simp [toNat, List.foldl_append]

/-- A fixed form holds the number modulo its width. -/
theorem toNat_fixed (len n : Nat) : toNat (fixed len n) = n % 256 ^ len := by
  induction len generalizing n with
  | zero => simp [Nat.mod_one]
  | succ len ih =>
    have low : (UInt8.ofNat n).toNat = n % 256 := UInt8.toNat_ofNat'
    rw [fixed_succ, toNat_concat, ih, low, Nat.pow_succ', Nat.mod_mul, Nat.add_comm, Nat.mul_comm]

/-- A byte string is the fixed form of its value. -/
theorem fixed_toNat {len : Nat} {b : Bytes} (h : b.length = len) : fixed len (toNat b) = b := by
  induction len generalizing b with
  | zero => rw [List.length_eq_zero_iff.1 h]; rfl
  | succ len ih =>
    obtain ⟨front, x, rfl⟩ : ∃ front x, b = front ++ [x] :=
      ⟨_, _, (List.dropLast_concat_getLast (List.ne_nil_of_length_eq_add_one h)).symm⟩
    have hx := UInt8.toNat_lt x
    rw [fixed_succ, toNat_concat, show (toNat front * 256 + x.toNat) / 256 = toNat front by omega,
      ih (by simpa using h)]
    congr 2
    apply UInt8.toNat_inj.1
    rw [UInt8.toNat_ofNat']
    omega

/-- The value of `len` octets is below `256 ^ len`. -/
theorem toNat_lt (b : Bytes) : toNat b < 256 ^ b.length := by
  have h := toNat_fixed b.length (toNat b)
  rw [fixed_toNat rfl] at h
  rw [h]
  exact Nat.mod_lt _ (Nat.pow_pos (by decide))

/-- A mask that covers the octets comes off when it is applied again. -/
theorem xor_xor {a b : Bytes} (h : a.length ≤ b.length) : xor (xor a b) b = a := by
  induction a generalizing b with
  | nil => rfl
  | cons x a ih =>
    cases b with
    | nil => simp at h
    | cons y b =>
      simp only [xor, List.zipWith_cons_cons, List.cons.injEq]
      exact ⟨by rw [UInt8.xor_assoc, UInt8.xor_self, UInt8.xor_zero],
        ih (by simpa using h)⟩

/-! ## Texts -/

/-- A digit of the hexadecimal form. -/
def hexDigit (x : UInt8) : Char := Nat.digitChar x.toNat

/-- Two lower-case hexadecimal digits for each octet. -/
def hex (b : Bytes) : String :=
  String.ofList (b.flatMap fun (x : UInt8) => [hexDigit (x >>> 4), hexDigit (x &&& 15)])

/-- The value of a lower-case hexadecimal digit. -/
def digitValue? (c : Char) : Option UInt8 :=
  if '0' ≤ c && c ≤ '9' then some (UInt8.ofNat (c.toNat - '0'.toNat))
  else if 'a' ≤ c && c ≤ 'f' then some (UInt8.ofNat (c.toNat - 'a'.toNat + 10))
  else none

/-- The octets that pairs of digits stand for. -/
def ofDigits? : List Char → Option Bytes
  | [] => some []
  | [_] => none
  | c :: d :: rest => do
    let high ← digitValue? c
    let low ← digitValue? d
    return (high <<< 4 ||| low) :: (← ofDigits? rest)

/-- The byte string with this hexadecimal form, if there is one. -/
def ofHex? (s : String) : Option Bytes := ofDigits? s.toList

set_option maxRecDepth 8000 in
/-- Two digits of an octet can be read back. -/
theorem ofDigits?_cons (x : UInt8) (rest : List Char) :
    ofDigits? (hexDigit (x >>> 4) :: hexDigit (x &&& 15) :: rest)
      = (ofDigits? rest).map (x :: ·) := by
  have digits : ∀ n : Fin 256,
      digitValue? (hexDigit (UInt8.ofNat n.1 >>> 4)) = some (UInt8.ofNat n.1 >>> 4)
      ∧ digitValue? (hexDigit (UInt8.ofNat n.1 &&& 15)) = some (UInt8.ofNat n.1 &&& 15)
      ∧ (UInt8.ofNat n.1 >>> 4) <<< 4 ||| (UInt8.ofNat n.1 &&& 15) = UInt8.ofNat n.1 := by
    decide
  obtain ⟨high, low, whole⟩ := digits ⟨x.toNat, x.toNat_lt⟩
  simp only [UInt8.ofNat_toNat] at high low whole
  simp only [ofDigits?, high, low, Option.bind_eq_bind, Option.bind_some, whole]
  cases ofDigits? rest <;> rfl

/-- The hexadecimal form can be read back. -/
theorem ofHex?_hex (b : Bytes) : ofHex? (hex b) = some b := by
  rw [ofHex?, hex, String.toList_ofList]
  induction b with
  | nil => rfl
  | cons x b ih =>
    rw [List.flatMap_cons, List.cons_append, List.cons_append, List.nil_append, ofDigits?_cons, ih]
    rfl

/-- The text whose UTF-8 form this is, if there is one. -/
def text? (b : Bytes) : Option String := String.fromUTF8? ⟨b.toArray⟩

/-- The UTF-8 form of a text. -/
def ofText (s : String) : Bytes := s.toByteArray.data.toList

end Bytes

end ThresholdKeys
