import ThresholdKeys.Entropy.Sampling
import ThresholdKeys.Proofs.Endings
import ThresholdKeys.Proofs.Octets
import ThresholdKeys.Sharing.Polynomial

/-!
# Draws fail for want of entropy only

A source, alone or in pools of pools, never faults. Hence a random number is refused for the cause
that its source states and for no other, as long as the bound leaves a number to be drawn. A prime
that is drawn is odd, and has the top two of its digits set (`PrimeShape`).
-/

namespace ThresholdKeys

/-! ## Sources -/

/-- Whatever is handed out and whatever is refused, there is no fault. -/
abbrev Outcome.NeverFaults {ε α : Type} (o : Outcome ε α) : Prop :=
  o.Ends (fun _ => True) fun _ => True

theorem fill_neverFaults {σ : Type} {read : σ → Nat → Outcome EntropyError Bytes × σ}
    (hread : ∀ s n, (read s n).1.NeverFaults) (finite : Bool) (rounds : Nat) (s : σ)
    (need : Nat) (written : Bytes) :
    (fill read finite rounds s need written).outcome.NeverFaults := by
  fun_induction fill read finite rounds s need written with
  | case1 => trivial
  | case2 => trivial
  | case3 => trivial
  | case4 _ _ _ _ _ _ _ ih => exact ih
  | case5 _ _ _ _ _ _ _ _ ih => exact ih
  | case6 => trivial
  | case7 rounds s need written s' hfault =>
    have h := hread s (need + 1)
    rw [hfault] at h
    exact h
  | case8 => trivial

theorem answerRequest_neverFaults {p : Pool} {n : Nat} {g : Gathering}
    (h : g.outcome.NeverFaults) : (answerRequest p n g).1.NeverFaults := by
  obtain ⟨outcome, live, contributed⟩ := g
  cases outcome with
  | ok a => trivial
  | error e => trivial
  | fault => exact h
  | stalled => trivial

theorem Device.read_neverFaults (d : Device) (n : Nat) : (d.read n).1.NeverFaults := by
  unfold Device.read
  split <;> trivial

mutual

theorem Source.read_neverFaults : (s : Source) → (n : Nat) → (s.read n).1.NeverFaults
  | .custom buffer closed, n => by
    unfold Source.read
    split <;> trivial
  | .seeded g, n => by
    unfold Source.read
    trivial
  | .file handle finite, n => by
    unfold Source.read
    cases handle <;> trivial
  | .os supply closed, n => by
    unfold Source.read
    split <;> trivial
  | .device d, n => by
    unfold Source.read
    exact d.read_neverFaults n
  | .pool p, n => by
    unfold Source.read
    exact readPool_neverFaults p n

theorem readPool_neverFaults : (p : Pool) → (n : Nat) → (readPool p n).1.NeverFaults
  | ⟨live, absorbed, drained, requests⟩, n => by
    unfold readPool
    split
    · trivial
    · exact answerRequest_neverFaults (readLive_neverFaults live n)

theorem readLive_neverFaults : (live : List Source) → (n : Nat) →
    (readLive live n).outcome.NeverFaults
  | [], n => by
    unfold readLive
    trivial
  | s :: rest, n => by
    have hs := s.read_neverFaults n
    unfold readLive
    split
    · exact readLive_neverFaults rest n
    · trivial
    · next hfault =>
      rw [hfault] at hs
      exact hs
    · trivial

end

mutual

theorem Source.mustRead_neverFaults (patience : Nat) :
    (s : Source) → (n : Nat) → (s.mustRead patience n).outcome.NeverFaults
  | .pool p, n => by
    unfold Source.mustRead
    exact mustReadPool_neverFaults patience p n
  | .custom buffer closed, n => by
    unfold Source.mustRead
    exact fill_neverFaults Source.read_neverFaults _ _ _ _ _
  | .seeded g, n => by
    unfold Source.mustRead
    exact fill_neverFaults Source.read_neverFaults _ _ _ _ _
  | .file handle finite, n => by
    unfold Source.mustRead
    exact fill_neverFaults Source.read_neverFaults _ _ _ _ _
  | .os supply closed, n => by
    unfold Source.mustRead
    exact fill_neverFaults Source.read_neverFaults _ _ _ _ _
  | .device d, n => by
    unfold Source.mustRead
    exact fill_neverFaults Source.read_neverFaults _ _ _ _ _

theorem mustReadPool_neverFaults (patience : Nat) :
    (p : Pool) → (n : Nat) → (mustReadPool patience p n).outcome.NeverFaults
  | ⟨live, absorbed, drained, requests⟩, n => by
    unfold mustReadPool
    split
    · trivial
    · have h := answerRequest_neverFaults (p := ⟨live, absorbed, drained, requests⟩) (n := n)
        (mustReadLive_neverFaults patience live n)
      split
      · trivial
      · trivial
      · next hfault =>
        rw [hfault] at h
        exact h
      · trivial

theorem mustReadLive_neverFaults (patience : Nat) :
    (live : List Source) → (n : Nat) →
      (mustReadLive patience live n).outcome.NeverFaults
  | [], n => by
    unfold mustReadLive
    trivial
  | s :: rest, n => by
    have hs := s.mustRead_neverFaults patience n
    unfold mustReadLive
    split
    · exact mustReadLive_neverFaults patience rest n
    · trivial
    · next hfault =>
      rw [hfault] at hs
      exact hs
    · trivial

end

/-! ## Random numbers -/

/-- A source gave no octets. -/
def ArithmeticError.IsEntropy (e : ArithmeticError) : Prop := ∃ cause, e = .entropy cause

/-- A computation was refused, or there was no entropy for it. -/
def ProtocolError.IsArithmetic (e : ProtocolError) : Prop := ∃ cause, e = .ofArithmetic cause

theorem ProtocolError.IsArithmetic.ne_token {e : ProtocolError} (h : e.IsArithmetic)
    (cause : TokenError) : e ≠ .token cause := by
  obtain ⟨cause', rfl⟩ := h
  cases cause' <;> simp [ofArithmetic]

theorem draw_ends (n : Nat) : (draw n).Ends (fun _ => True) fun _ => True := by
  intro k s
  have h := s.mustRead_neverFaults k n
  unfold draw
  split
  all_goals
    next hrun =>
      rw [hrun] at h
      exact h

theorem drawCandidate_ends (bits : Nat) :
    (drawCandidate bits).Ends (· < 2 ^ bits) ArithmeticError.IsEntropy :=
  ((draw_ends _).mapError fun e _ => ⟨e, rfl⟩).bind fun _ _ =>
    .pure (Nat.mod_lt _ (Nat.two_pow_pos bits))

theorem randomBelow_ends {upper : Nat} (h : 0 < upper) :
    (randomBelow upper).Ends (· < upper) ArithmeticError.IsEntropy := by
  unfold randomBelow
  rw [if_neg (by omega)]
  refine ((drawCandidate_ends _).bind fun value _ => .pure fun a ha => ?_).search
  by_cases hlt : value < upper
  · rw [if_pos hlt] at ha
    cases ha
    exact hlt
  · rw [if_neg hlt] at ha
    cases ha

theorem randomNonzeroBelow_ends {upper : Nat} (h : 1 < upper) :
    (randomNonzeroBelow upper).Ends (fun r => 0 < r ∧ r < upper) ArithmeticError.IsEntropy := by
  unfold randomNonzeroBelow
  rw [if_neg (by omega)]
  refine ((randomBelow_ends (by omega)).bind fun value hlt => .pure fun a ha => ?_).search
  by_cases h0 : value = 0
  · rw [if_pos h0] at ha
    cases ha
  · rw [if_neg h0] at ha
    cases ha
    exact ⟨Nat.pos_of_ne_zero h0, hlt⟩

/-! ## Random primes -/

/-- An odd number of exactly `bits` binary digits, the top two of them set. -/
structure PrimeShape (bits n : Nat) : Prop where
  odd : n % 2 = 1
  bitLength_eq : bitLength n = bits
  second : n.testBit (bits - 2) = true

/-- A number that fits keeps its length when it is given the shape. -/
theorem primeShape_withPrimeShape {bits value : Nat} (hbits : 2 ≤ bits) (h : value < 2 ^ bits) :
    PrimeShape bits (withPrimeShape bits value) := by
  have hfirst : 2 ^ (bits - 1) < 2 ^ bits := Nat.pow_lt_pow_right (by decide) (by omega)
  have hsecond : 2 ^ (bits - 2) < 2 ^ bits := Nat.pow_lt_pow_right (by decide) (by omega)
  have hone : 1 < 2 ^ bits := Nat.one_lt_two_pow (by omega)
  have hlow : 2 ^ (bits - 1) ≤ withPrimeShape bits value :=
    Nat.le_trans (Nat.le_trans Nat.right_le_or Nat.left_le_or) Nat.left_le_or
  have hhigh : withPrimeShape bits value < 2 ^ bits :=
    Nat.or_lt_two_pow (Nat.or_lt_two_pow (Nat.or_lt_two_pow h hfirst) hsecond) hone
  refine ⟨by simp [withPrimeShape], ?_, by simp [withPrimeShape]⟩
  rw [← Nat.sub_add_cancel (Nat.le_of_succ_le hbits)] at hhigh ⊢
  exact bitLength_eq_of_bounds hlow hhigh

namespace PrimeShape

variable {bits n : Nat}

theorem lt (h : PrimeShape bits n) : n < 2 ^ bits := h.bitLength_eq ▸ lt_two_pow_bitLength n

/-- A number whose top two digits are set is at least three quarters of the next power. -/
theorem three_quarters_le (h : PrimeShape bits n) (hbits : 2 ≤ bits) : 3 * 2 ^ (bits - 2) ≤ n := by
  have hpow : ∀ j, 2 ^ (bits - 2 + j) = 2 ^ j * 2 ^ (bits - 2) := fun j => by
    rw [Nat.pow_add, Nat.mul_comm]
  have hlow : 2 ^ (bits - 2 + 1) ≤ n := two_pow_le_of_bitLength (by rw [h.bitLength_eq]; omega)
  have hquotient : n / 2 ^ (bits - 2) % 2 = 1 := by
    simpa [Nat.testBit_eq_decide_div_mod_eq] using h.second
  rw [hpow] at hlow
  rw [← Nat.le_div_iff_mul_le (Nat.two_pow_pos _)] at hlow ⊢
  omega

/-- Primes that are drawn are not small. -/
theorem large (h : PrimeShape bits n) (hbits : 16 ≤ bits) : 2 ^ 15 ≤ n := by
  have hquarters := h.three_quarters_le (by omega)
  have hpow : 2 ^ 14 ≤ 2 ^ (bits - 2) := Nat.pow_le_pow_right (by decide) (by omega)
  omega

end PrimeShape

/-- A prime that is drawn has the shape of one and passes the test. From sixteen digits on it is
refused for want of entropy only. -/
theorem randomPrime_ends (bits : Nat) : (randomPrime bits).Ends
    (fun n => 16 ≤ bits ∧ PrimeShape bits n ∧ isProbablePrime n fullRounds = true)
    fun e => 16 ≤ bits → e.IsEntropy := by
  unfold randomPrime
  split
  · exact .throw fun h => by omega
  · next hbits =>
    have hdraw := (drawCandidate_ends bits).mono (fun _ h => h) fun e he (_ : 16 ≤ bits) => he
    refine (hdraw.bind fun value hvalue => .pure ?_).search
    intro n hn
    split at hn
    · next htests =>
      cases hn
      rw [Bool.and_eq_true] at htests
      exact ⟨by omega, primeShape_withPrimeShape (by omega) hvalue, htests.2⟩
    · cases hn

/-! ## Random polynomials -/

namespace Polynomial

theorem drawCoefficients_ends {m : Nat} (hm : 0 < m) (n : Nat) :
    (drawCoefficients m n).Ends (·.length = n) ArithmeticError.IsEntropy := by
  induction n with
  | zero => exact .pure rfl
  | succ n ih =>
    refine (randomBelow_ends hm).bind fun coefficient _ => ih.bind ?_
    intro rest hrest
    exact .pure (congrArg Nat.succ hrest)

theorem random_ends {m : Nat} (hm : 0 < m) (degree : Nat) : (random degree m).Ends
    (fun f => f.modulus = m ∧ f.degree = degree ∧ f.constant < m) ArithmeticError.IsEntropy := by
  unfold random
  rw [dif_pos hm]
  exact (randomBelow_ends hm).bind fun _ hconstant =>
    (drawCoefficients_ends hm degree).bind fun _ hhigher => .pure ⟨rfl, hhigher, hconstant⟩

theorem randomWith_ends (degree m constant : Nat) : (randomWith degree m constant).Ends
    (fun f => f.modulus = m ∧ f.degree = degree ∧ f.constant = constant % m)
    fun e => 0 < m → e.IsEntropy := by
  unfold randomWith
  split
  · next hm =>
    have hdraw := (drawCoefficients_ends hm degree).mono (fun _ h => h) fun e he (_ : 0 < m) => he
    exact hdraw.bind fun _ hhigher => .pure ⟨rfl, hhigher, rfl⟩
  · next hm => exact .throw fun h => absurd h hm

end Polynomial

end ThresholdKeys
