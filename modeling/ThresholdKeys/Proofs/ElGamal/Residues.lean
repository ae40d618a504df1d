import Mathlib.NumberTheory.LegendreSymbol.Basic
import ThresholdKeys.ElGamal.Group
import ThresholdKeys.Proofs.Number.Euclid

/-!
# Residues modulo a prime

Residues are the units whose power to the order is one (`Group.isResidue_iff_unit`), so products,
powers and quotients of them are computed in the group of units, whatever the modulus
(`Group.div_eq_ok_iff`).

Let the modulus be prime. It is 3 modulo 4, so that the order is odd and the powers of `m` and of
`-m` to the order, each of them `1` or `-1`, are different: exactly one of the two numbers is a
residue. Hence encoding and decoding undo each other: `Group.decode_encode` for every number from
one to the order, `Group.encode_of_decode` for every residue.
-/

namespace ThresholdKeys.Group

variable {G : Group}

/-! ## The order -/

theorem two_mul_order (G : Group) : 2 * G.order + 1 = G.modulus := by
  have := G.mod_four
  unfold order
  omega

theorem order_odd (G : Group) : G.order % 2 = 1 := by
  have := G.mod_four
  have := G.two_mul_order
  omega

theorem three_le_order (G : Group) : 3 ≤ G.order := by
  have := G.seven_le
  have := G.two_mul_order
  omega

/-- Twice an odd number, and one, has the shape of a modulus. -/
theorem ofTrusted_double {q : Nat} (hodd : q % 2 = 1) (hq : 3 ≤ q) :
    ∃ G, ofTrusted (2 * q + 1) = .ok G ∧ G.modulus = 2 * q + 1 ∧ G.order = q := by
  have hshape : 7 ≤ 2 * q + 1 ∧ (2 * q + 1) % 4 = 3 := ⟨by omega, by omega⟩
  refine ⟨⟨2 * q + 1, hshape.1, hshape.2⟩, dif_pos hshape, rfl, ?_⟩
  show (2 * q + 1 - 1) / 2 = q
  omega

/-- Being a residue, as an equation modulo the modulus. -/
theorem isResidue_iff_cast {x : Nat} : G.isResidue x = true ↔
    0 < x ∧ x < G.modulus ∧ (x : ZMod G.modulus) ^ G.order = 1 := by
  have h1 : 1 % G.modulus = 1 := Nat.mod_eq_of_lt (Nat.lt_of_lt_of_le (by decide) G.seven_le)
  have hcast : x ^ G.order % G.modulus = 1 ↔ (x : ZMod G.modulus) ^ G.order = 1 := by
    have h := ZMod.natCast_eq_natCast_iff' (x ^ G.order) 1 G.modulus
    rw [h1, Nat.cast_pow, Nat.cast_one] at h
    exact h.symm
  rw [isResidue_iff, hcast]

theorem isElement_iff {x : Nat} : G.isElement x = true ↔ 0 < x ∧ x < G.modulus := by
  simp [isElement]

theorem isElement_of_isResidue {x : Nat} (h : G.isResidue x = true) : G.isElement x = true := by
  rw [isResidue, Bool.and_eq_true] at h
  exact h.1

theorem standing_eq_residue_iff {x : Nat} : G.standing x = .residue ↔ G.isResidue x = true := by
  unfold standing
  cases hr : G.isResidue x with
  | true => simp [isElement_of_isResidue hr]
  | false => cases G.isElement x <;> simp

theorem standing_of_isResidue {x : Nat} (h : G.isResidue x = true) : G.standing x = .residue :=
  standing_eq_residue_iff.2 h

/-! ## Products -/

@[simp] theorem natCast_pow (x e : Nat) :
    ((G.pow x e : Nat) : ZMod G.modulus) = (x : ZMod G.modulus) ^ e := natCast_powMod x e G.modulus

@[simp] theorem natCast_mul (a b : Nat) :
    ((G.mul a b : Nat) : ZMod G.modulus) = (a : ZMod G.modulus) * b := by
  rw [mul, ZMod.natCast_mod, Nat.cast_mul]

theorem pow_lt (x e : Nat) : G.pow x e < G.modulus := powMod_lt G.modulus_pos x e

theorem mul_lt (a b : Nat) : G.mul a b < G.modulus := Nat.mod_lt _ G.modulus_pos

theorem natCast_inj {a b : Nat} (ha : a < G.modulus) (hb : b < G.modulus) :
    (a : ZMod G.modulus) = b ↔ a = b := natCast_inj_of_lt ha hb

/-- Residues are the units whose power to the order is one. -/
theorem isResidue_iff_unit {x : Nat} : G.isResidue x = true ↔
    x < G.modulus ∧ ∃ u : (ZMod G.modulus)ˣ, (x : ZMod G.modulus) = u ∧ u ^ G.order = 1 := by
  rw [isResidue_iff_cast]
  constructor
  · rintro ⟨-, hlt, hpow⟩
    exact ⟨hlt, Units.ofPowEqOne _ _ hpow G.order_pos.ne', rfl, Units.pow_ofPowEqOne _ _⟩
  · rintro ⟨hlt, u, hu, hpow⟩
    have hpow' : (x : ZMod G.modulus) ^ G.order = 1 := by
      rw [hu, ← Units.val_pow_eq_pow_val, hpow, Units.val_one]
    refine ⟨Nat.pos_of_ne_zero fun h0 => ?_, hlt, hpow'⟩
    have := Fact.mk (Nat.lt_of_lt_of_le (by decide) G.seven_le : 1 < G.modulus)
    rw [h0, Nat.cast_zero, zero_pow G.order_pos.ne'] at hpow'
    exact zero_ne_one hpow'

theorem isResidue_mul {a b : Nat} (hp : G.modulus.Prime) (ha : G.isResidue a = true)
    (hb : G.isResidue b = true) : G.isResidue (G.mul a b) = true := by
  have := Fact.mk hp
  obtain ⟨-, -, ha⟩ := isResidue_iff_cast.1 ha
  obtain ⟨-, -, hb⟩ := isResidue_iff_cast.1 hb
  have hpow : ((G.mul a b : Nat) : ZMod G.modulus) ^ G.order = 1 := by
    rw [mul, ZMod.natCast_mod, Nat.cast_mul, mul_pow, ha, hb, one_mul]
  have hne : G.mul a b ≠ 0 := by
    intro h0
    rw [h0, Nat.cast_zero, zero_pow G.order_pos.ne'] at hpow
    exact zero_ne_one hpow
  exact isResidue_iff_cast.2 ⟨Nat.pos_of_ne_zero hne, Nat.mod_lt _ G.modulus_pos, hpow⟩

/-- Residues are units, so that there is always a quotient by one. -/
theorem exists_div {b : Nat} (hb : G.isResidue b = true) (a : Nat) :
    ∃ u, G.div a b = .ok (G.mul a u) ∧ (u : ZMod G.modulus) * b = 1 := by
  obtain ⟨-, v, hv, -⟩ := isResidue_iff_unit.1 hb
  have hcop : Nat.Coprime b G.modulus := (ZMod.isUnit_iff_coprime b G.modulus).1 (hv ▸ v.isUnit)
  obtain ⟨u, hu, -, hinv⟩ := inverse_of_coprime G.modulus_pos hcop
  refine ⟨u, ?_, by rw [mul_comm, hinv]⟩
  rw [div, hu]
  rfl

/-- Dividing by a residue solves an equation modulo the modulus. -/
theorem div_eq_ok_iff {a b m : Nat} (hb : G.isResidue b = true) :
    G.div a b = .ok m ↔ m < G.modulus ∧ (m : ZMod G.modulus) * b = a := by
  obtain ⟨-, v, hv, -⟩ := isResidue_iff_unit.1 hb
  obtain ⟨u, hdiv, hinv⟩ := exists_div hb a
  have hquot : ((G.mul a u : Nat) : ZMod G.modulus) * b = a := by
    rw [natCast_mul, mul_assoc, hinv, mul_one]
  rw [hdiv, Outcome.ok.injEq]
  constructor
  · rintro rfl
    exact ⟨mul_lt a u, hquot⟩
  · rintro ⟨hlt, hm⟩
    rw [← natCast_inj (mul_lt a u) hlt, ← v.mul_left_inj, ← hv, hquot, hm]

/-- A number divided by either of two residues leaves the other one, or by neither. -/
theorem div_eq_ok_comm {a b c : Nat} (hb : G.isResidue b = true) (hc : G.isResidue c = true) :
    G.div a b = .ok c ↔ G.div a c = .ok b := by
  rw [div_eq_ok_iff hb, div_eq_ok_iff hc, mul_comm]
  exact and_congr_left fun _ =>
    iff_of_true (isResidue_iff.1 hc).2.1 (isResidue_iff.1 hb).2.1

/-- A quotient of residues is a residue. -/
theorem isResidue_of_div {a b c : Nat} (ha : G.isResidue a = true) (hb : G.isResidue b = true)
    (h : G.div a b = .ok c) : G.isResidue c = true := by
  obtain ⟨-, u, hu, hu1⟩ := isResidue_iff_unit.1 ha
  obtain ⟨-, v, hv, hv1⟩ := isResidue_iff_unit.1 hb
  obtain ⟨hlt, hc⟩ := (div_eq_ok_iff hb).1 h
  refine isResidue_iff_unit.2 ⟨hlt, u * v⁻¹, ?_, ?_⟩
  · rw [← v.mul_left_inj, ← hv, hc, hu, hv, ← Units.val_mul, inv_mul_cancel_right]
  · rw [mul_pow, inv_pow, hu1, hv1, inv_one, one_mul]

/-! ## Signs -/

/-- Every element has the power one or minus one to the order, and residues are those with one. -/
theorem pow_order_of_not_isResidue {x : Nat} (hp : G.modulus.Prime) (hx : G.isElement x = true)
    (hn : G.isResidue x = false) : (x : ZMod G.modulus) ^ G.order = -1 := by
  have := Fact.mk hp
  obtain ⟨h0, hlt⟩ := isElement_iff.1 hx
  have hne : (x : ZMod G.modulus) ≠ 0 := by
    rw [Ne, ZMod.natCast_eq_zero_iff]
    exact Nat.not_dvd_of_pos_of_lt h0 hlt
  have hhalf : G.modulus / 2 = G.order := by
    have := G.two_mul_order
    omega
  have hpow := ZMod.pow_div_two_eq_neg_one_or_one G.modulus hne
  rw [hhalf] at hpow
  rcases hpow with h1 | h1
  · rw [isResidue_iff_cast.2 ⟨h0, hlt, h1⟩] at hn
    cases hn
  · exact h1

theorem natCast_sub_self {x : Nat} (hx : x ≤ G.modulus) :
    ((G.modulus - x : Nat) : ZMod G.modulus) = -x := by
  rw [Nat.cast_sub hx, ZMod.natCast_self, zero_sub]

/-- Of `m` and `-m` one is a residue. -/
theorem isResidue_sub_of_not {m : Nat} (hp : G.modulus.Prime) (h0 : 0 < m) (hm : m < G.modulus)
    (hn : G.isResidue m = false) : G.isResidue (G.modulus - m) = true := by
  refine isResidue_iff_cast.2 ⟨by omega, by omega, ?_⟩
  rw [natCast_sub_self hm.le, Odd.neg_pow (Nat.odd_iff.2 G.order_odd),
    pow_order_of_not_isResidue hp (isElement_iff.2 ⟨h0, hm⟩) hn, neg_neg]

/-- Of `x` and `-x` at most one is a residue. -/
theorem isResidue_sub_of_isResidue {x : Nat} (h : G.isResidue x = true) :
    G.isResidue (G.modulus - x) = false := by
  have := Fact.mk (Nat.lt_of_lt_of_le (by decide) G.seven_le : 2 < G.modulus)
  obtain ⟨-, hlt, hpow⟩ := isResidue_iff_cast.1 h
  rw [Bool.eq_false_iff]
  intro hsub
  obtain ⟨-, -, hneg⟩ := isResidue_iff_cast.1 hsub
  rw [natCast_sub_self hlt.le, Odd.neg_pow (Nat.odd_iff.2 G.order_odd), hpow] at hneg
  exact ZMod.neg_one_ne_one hneg

/-! ## Encodings -/

/-- **Encodings are decoded**: a number from one to the order is encoded by a residue, and found
again from it. -/
theorem decode_encode {m : Nat} (hp : G.modulus.Prime) (h0 : 0 < m) (hm : m ≤ G.order) :
    ∃ x, G.encode m = .ok x ∧ G.isResidue x = true ∧ G.decode x = .ok m := by
  have horder := G.two_mul_order
  unfold encode
  rw [if_neg (by omega)]
  cases hr : G.isResidue m with
  | true =>
    refine ⟨m, rfl, hr, ?_⟩
    rw [decode, standing_of_isResidue hr]
    exact if_neg (by omega)
  | false =>
    have hneg := isResidue_sub_of_not hp h0 (by omega) hr
    refine ⟨G.modulus - m, Checked.sub_of_le (by omega), hneg, ?_⟩
    rw [decode, standing_of_isResidue hneg]
    dsimp only
    rw [if_pos (by omega), Checked.sub_of_le (by omega), Nat.sub_sub_self (by omega)]

/-- What has an encoding is found again from it. -/
theorem decode_of_encode {m x : Nat} (hp : G.modulus.Prime) (h : G.encode m = .ok x) :
    G.isResidue x = true ∧ G.decode x = .ok m := by
  by_cases hm : m = 0 ∨ G.order < m
  · rw [encode, if_pos hm] at h
    cases h
  · obtain ⟨y, hy, hresidue, hdecode⟩ := decode_encode hp (m := m) (by omega) (by omega)
    rw [hy] at h
    cases h
    exact ⟨hresidue, hdecode⟩

/-- **Decodings are encoded**: what is decoded from a residue has that residue for its encoding. -/
theorem encode_of_decode {x m : Nat} (h : G.decode x = .ok m) :
    G.isResidue x = true ∧ G.encode m = .ok x := by
  have horder := G.two_mul_order
  cases hstanding : G.standing x with
  | outside =>
    rw [decode, hstanding] at h
    cases h
  | nonResidue =>
    rw [decode, hstanding] at h
    cases h
  | residue =>
    have hx := standing_eq_residue_iff.1 hstanding
    obtain ⟨hpos, hlt, -⟩ := isResidue_iff.1 hx
    refine ⟨hx, ?_⟩
    rw [decode, hstanding] at h
    dsimp only at h
    by_cases hle : G.order < x
    · rw [if_pos hle, Checked.sub_of_le hlt.le, Outcome.ok.injEq] at h
      subst h
      rw [encode, if_neg (by omega), isResidue_sub_of_isResidue hx, if_neg (by decide),
        Checked.sub_of_le (by omega), Nat.sub_sub_self hlt.le]
    · rw [if_neg hle, Outcome.ok.injEq] at h
      subst h
      rw [encode, if_neg (by omega), if_pos hx]

/-- A residue stands for a number that is at most the order. -/
theorem exists_decode {x : Nat} (hx : G.isResidue x = true) :
    ∃ m ≤ G.order, G.decode x = .ok m := by
  have horder := G.two_mul_order
  have hlt := (isResidue_iff.1 hx).2.1
  rw [decode, standing_of_isResidue hx]
  dsimp only
  by_cases hle : G.order < x
  · refine ⟨G.modulus - x, by omega, ?_⟩
    rw [if_pos hle, Checked.sub_of_le hlt.le]
  · exact ⟨x, by omega, if_neg hle⟩

end ThresholdKeys.Group
