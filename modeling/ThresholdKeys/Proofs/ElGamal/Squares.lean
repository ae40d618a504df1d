import Mathlib.Data.Set.Function
import ThresholdKeys.Proofs.ElGamal.Residues

/-!
# Numbers are encoded by the squares

Over a prime modulus Euler's criterion says which elements are residues: those that are squares
(`isResidue_iff_mem_squares`). There are as many of them as there are numbers from one to the order,
and an encoding is a correspondence between the two: every such number has a square of its own,
every square stands for a number, and decoding goes back and forth (`encode_bijOn_squares`).
Everything else is refused, each kind for its own cause.

The boundary is between the order and its successor, which are negatives of each other. So the one
of the two that is a square stands for the order, and the comparison in `decode` tells which it is.
-/

namespace ThresholdKeys.Group

variable {G : Group}

/-- The elements that are squares modulo the modulus. -/
def squares (G : Group) : Set Nat :=
  {x | 0 < x ∧ x < G.modulus ∧ IsSquare (x : ZMod G.modulus)}

/-- **Residues are the squares.** -/
theorem isResidue_iff_mem_squares {x : Nat} (hp : G.modulus.Prime) :
    G.isResidue x = true ↔ x ∈ G.squares := by
  have := Fact.mk hp
  have hhalf : G.modulus / 2 = G.order := by
    have := G.two_mul_order
    omega
  rw [isResidue_iff_cast]
  refine and_congr_right fun hpos => and_congr_right fun hlt => ?_
  have hne : (x : ZMod G.modulus) ≠ 0 := by
    rw [Ne, ZMod.natCast_eq_zero_iff]
    exact Nat.not_dvd_of_pos_of_lt hpos hlt
  rw [ZMod.euler_criterion G.modulus hne, hhalf]

/-! ## Refusals -/

/-- What has no encoding. -/
theorem encode_eq_error_iff {m : Nat} {e : ArithmeticError} :
    G.encode m = .error e ↔ m ∉ Set.Icc 1 G.order ∧ e = .messageTooLong := by
  have horder := G.two_mul_order
  have hrange : m ∉ Set.Icc 1 G.order ↔ m = 0 ∨ G.order < m := by
    rw [Set.mem_Icc]
    omega
  rw [hrange, encode]
  by_cases hm : m = 0 ∨ G.order < m
  · rw [if_pos hm, Outcome.error.injEq]
    exact ⟨fun h => ⟨hm, h.symm⟩, fun h => h.2.symm⟩
  · rw [if_neg hm, Checked.sub_of_le (by omega)]
    split <;> simp [hm]

/-- What is not decoded: first what is no element, then what is no residue. -/
theorem decode_eq_error_iff {x : Nat} {e : ArithmeticError} :
    G.decode x = .error e ↔ (¬ (0 < x ∧ x < G.modulus) ∧ e = .notElement) ∨
      (0 < x ∧ x < G.modulus ∧ G.isResidue x = false ∧ e = .notResidue) := by
  rw [← isElement_iff, ← and_assoc (a := 0 < x), ← isElement_iff, decode, standing]
  cases hx : G.isElement x with
  | false => simp [eq_comm (b := e)]
  | true =>
    cases hr : G.isResidue x with
    | false => simp [eq_comm (b := e)]
    | true =>
      have hlt := (isElement_iff.1 hx).2
      simp only [Bool.not_true, Bool.false_eq_true, if_false, Checked.sub_of_le hlt.le]
      split <;> simp

/-! ## The correspondence -/

/-- **Numbers from one to the order correspond to squares.** The encoding is a bijection between the
two, decoding is its inverse, and everything else is refused for the cause that fits. -/
theorem encode_bijOn_squares (hp : G.modulus.Prime) :
    (∀ x, G.isResidue x = true ↔ x ∈ G.squares) ∧
      Set.BijOn G.encode (Set.Icc 1 G.order) (Outcome.ok '' G.squares) ∧
      (∀ m ∈ Set.Icc 1 G.order, G.encode m >>= G.decode = .ok m) ∧
      (∀ x ∈ G.squares, G.decode x >>= G.encode = .ok x) ∧
      (∀ m e, G.encode m = .error e ↔ m ∉ Set.Icc 1 G.order ∧ e = .messageTooLong) ∧
      ∀ x e, G.decode x = .error e ↔ (¬ (0 < x ∧ x < G.modulus) ∧ e = .notElement) ∨
        (0 < x ∧ x < G.modulus ∧ ¬ IsSquare (x : ZMod G.modulus) ∧ e = .notResidue) := by
  have hsquare : ∀ x, G.isResidue x = true ↔ x ∈ G.squares :=
    fun x => isResidue_iff_mem_squares hp
  have hforth : ∀ m ∈ Set.Icc 1 G.order,
      ∃ x ∈ G.squares, G.encode m = .ok x ∧ G.decode x = .ok m := by
    intro m hm
    obtain ⟨x, hencode, hresidue, hdecode⟩ := decode_encode hp hm.1 hm.2
    exact ⟨x, (hsquare x).1 hresidue, hencode, hdecode⟩
  have hback : ∀ x ∈ G.squares,
      ∃ m ∈ Set.Icc 1 G.order, G.decode x = .ok m ∧ G.encode m = .ok x := by
    intro x hx
    obtain ⟨m, -, hdecode⟩ := exists_decode ((hsquare x).2 hx)
    have hencode := (encode_of_decode hdecode).2
    refine ⟨m, ?_, hdecode, hencode⟩
    by_contra hm
    rw [encode_eq_error_iff.2 ⟨hm, rfl⟩] at hencode
    cases hencode
  refine ⟨hsquare, ⟨?_, ?_, ?_⟩, ?_, ?_, fun m e => encode_eq_error_iff, ?_⟩
  · intro m hm
    obtain ⟨x, hx, hencode, -⟩ := hforth m hm
    exact ⟨x, hx, hencode.symm⟩
  · intro m hm m' hm' hsame
    obtain ⟨x, -, hencode, hdecode⟩ := hforth m hm
    obtain ⟨x', -, hencode', hdecode'⟩ := hforth m' hm'
    rw [hencode, hencode', Outcome.ok.injEq] at hsame
    rw [hsame, hdecode', Outcome.ok.injEq] at hdecode
    exact hdecode.symm
  · rintro _ ⟨x, hx, rfl⟩
    obtain ⟨m, hm, -, hencode⟩ := hback x hx
    exact ⟨m, hm, hencode⟩
  · intro m hm
    obtain ⟨x, -, hencode, hdecode⟩ := hforth m hm
    rw [hencode, Outcome.ok_bind, hdecode]
  · intro x hx
    obtain ⟨m, -, hdecode, hencode⟩ := hback x hx
    rw [hdecode, Outcome.ok_bind, hencode]
  · intro x e
    have hnot : 0 < x → x < G.modulus →
        (G.isResidue x = false ↔ ¬ IsSquare (x : ZMod G.modulus)) := by
      intro hpos hlt
      rw [← Bool.not_eq_true, hsquare]
      simp [squares, hpos, hlt]
    rw [decode_eq_error_iff]
    refine or_congr_right (and_congr_right fun hpos => and_congr_right fun hlt => ?_)
    rw [hnot hpos hlt]

/-- Modulo 23 the order is no square, and is encoded by its successor. -/
theorem encode_bijOn_squares_order :
    (⟨23, by decide, by decide⟩ : Group).encode 11 = .ok 12 ∧
      (⟨23, by decide, by decide⟩ : Group).encode 11
        >>= (⟨23, by decide, by decide⟩ : Group).decode = .ok 11 ∧
      ∃ m ∈ Set.Icc 1 11, (⟨23, by decide, by decide⟩ : Group).encode m = .ok 13 := by
  obtain ⟨hsquare, hbij, hforth, -⟩ :=
    encode_bijOn_squares (G := ⟨23, by decide, by decide⟩) (by decide)
  refine ⟨by decide, hforth 11 (by decide), ?_⟩
  exact hbij.surjOn ⟨13, (hsquare 13).1 (by decide), rfl⟩

end ThresholdKeys.Group
