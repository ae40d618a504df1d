import Mathlib.FieldTheory.Finite.Basic
import Mathlib.Tactic.NormNum.Prime
import ThresholdKeys.ElGamal.Group
import ThresholdKeys.Proofs.Number.Euclid
import ThresholdKeys.Proofs.Octets

/-!
# The test for primes errs on one side

A number passes `isProbablePrime` if it is one of the small primes, or has none of them for a factor
and passes the strong test to each of the bases that are asked for (`isProbablePrime_iff`). The test
of a base looks for `-1` among the squares of a power, and gives up at a square that is one: squares
of one are one, so nothing is missed (`squaresToMinusOne_iff`).

Modulo a prime one has no square roots but `1` and `-1`, so the first square in the chain that is
one comes from `-1`, or there is none before the chain starts with one. Hence a prime passes
whatever the number of rounds (`isProbablePrime_of_prime`). A composite number may pass too, if it
is large enough and has the luck to pass to every base that was tried; which ones do is not said
here.

More rounds try more bases, so what passes with many passes with few, and a short test in front of a
long one changes nothing (`randomPrime_eq_unscreened`).
-/

namespace ThresholdKeys

/-! ## Trial division -/

theorem prime_of_mem_smallPrimes : ∀ p ∈ smallPrimes, p.Prime := by decide +kernel

/-- The table has all primes below the next one, which is 257. -/
theorem mem_smallPrimes_iff {p : Nat} : p ∈ smallPrimes ↔ p.Prime ∧ p < 257 := by
  have hlarge : ∀ p ∈ smallPrimes, p < 257 := by decide +kernel
  have hall : ∀ p < 257, p.Prime → p ∈ smallPrimes := by decide +kernel
  exact ⟨fun h => ⟨prime_of_mem_smallPrimes p h, hlarge p h⟩, fun h => hall p h.2 h.1⟩

/-- Divided by primes, a number is found to be one of them, or a multiple of one. -/
theorem trialDivision_eq {n : Nat} {ps : List Nat} (hps : ∀ p ∈ ps, p.Prime) :
    trialDivision n ps
      = if n ∈ ps then some true else if ∃ p ∈ ps, p ∣ n then some false else none := by
  induction ps with
  | nil => simp [trialDivision]
  | cons p rest ih =>
    have hp := hps p List.mem_cons_self
    have hrest := ih fun q hq => hps q (List.mem_cons_of_mem _ hq)
    rw [trialDivision]
    by_cases hn : n = p
    · simp [hn]
    · by_cases hdvd : p ∣ n
      · have hmem : n ∉ rest := by
          intro h
          have hprime := hps n (List.mem_cons_of_mem _ h)
          exact hn ((Nat.prime_dvd_prime_iff_eq hp hprime).1 hdvd).symm
        simp [hn, hdvd, hmem, Nat.mod_eq_zero_of_dvd hdvd]
      · rw [if_neg hn, if_neg (fun h => hdvd (Nat.dvd_of_mod_eq_zero h)), hrest]
        simp [hn, hdvd]

/-- A number below the square of 257 with no prime factor below 257 is a prime. -/
theorem prime_of_no_small_factor {n : Nat} (h2 : 2 ≤ n) (hn : n < 66049)
    (h : ∀ p ∈ smallPrimes, ¬ p ∣ n) : n.Prime := by
  by_contra hcomposite
  have hfactor : n.minFac.Prime := Nat.minFac_prime (by omega)
  have hlarge : 257 ≤ n.minFac := by
    by_contra hlt
    exact h _ (mem_smallPrimes_iff.2 ⟨hfactor, by omega⟩) n.minFac_dvd
  have hsquare := Nat.minFac_sq_le_self (by omega) hcomposite
  have := Nat.pow_le_pow_left hlarge 2
  omega

/-! ## Powers and their squares -/

theorem splitTwos_spec (steps : Nat) {n : Nat} (hpos : 0 < n) (hn : n < 2 ^ steps) :
    (splitTwos steps n).1 % 2 = 1 ∧ n = (splitTwos steps n).1 * 2 ^ (splitTwos steps n).2 := by
  induction steps generalizing n with
  | zero =>
    rw [Nat.pow_zero] at hn
    omega
  | succ steps ih =>
    rw [splitTwos]
    by_cases heven : n % 2 = 0
    · rw [if_pos heven]
      obtain ⟨hodd, hhalf⟩ := ih (n := n / 2) (by omega) (by rw [Nat.pow_succ] at hn; omega)
      refine ⟨hodd, ?_⟩
      dsimp only
      rw [Nat.pow_succ, ← Nat.mul_assoc, ← hhalf]
      omega
    · rw [if_neg heven]
      exact ⟨by omega, by simp⟩

/-- The odd part of a number is unique. -/
theorem odd_part_unique {d d' s s' : Nat} (hd : d % 2 = 1) (hd' : d' % 2 = 1)
    (h : d * 2 ^ s = d' * 2 ^ s') : d = d' ∧ s = s' := by
  induction s generalizing s' with
  | zero =>
    cases s' with
    | zero => simpa using h
    | succ s' =>
      rw [Nat.pow_succ, ← Nat.mul_assoc] at h
      omega
  | succ s ih =>
    cases s' with
    | zero =>
      rw [Nat.pow_succ, ← Nat.mul_assoc] at h
      omega
    | succ s' =>
      rw [Nat.pow_succ, Nat.pow_succ, ← Nat.mul_assoc, ← Nat.mul_assoc] at h
      obtain ⟨hsame, hexponent⟩ := ih (by omega : d * 2 ^ s = d' * 2 ^ s')
      exact ⟨hsame, congrArg Nat.succ hexponent⟩

/-- With `n - 1 = d * 2 ^ s` and `d` odd, the power of `a` to `d` is one, or `-1` is that power or
one of its first squares. -/
def IsStrongProbablePrime (n a : Nat) : Prop :=
  ∃ d s, d % 2 = 1 ∧ n - 1 = d * 2 ^ s ∧
    ((a : ZMod n) ^ d = 1 ∨ ∃ r < s, (a : ZMod n) ^ (d * 2 ^ r) = -1)

section Residues

variable {n : Nat}

theorem eq_pred_iff_cast {y : Nat} (hy : y < n) : y = n - 1 ↔ (y : ZMod n) = -1 := by
  have hpred : ((n - 1 : Nat) : ZMod n) = -1 := by
    rw [Nat.cast_sub (by omega), ZMod.natCast_self, Nat.cast_one, zero_sub]
  rw [← hpred, natCast_inj_of_lt hy (by omega)]

theorem eq_one_iff_cast {y : Nat} (hn : 1 < n) (hy : y < n) : y = 1 ↔ (y : ZMod n) = 1 := by
  rw [← natCast_inj_of_lt hy hn, Nat.cast_one]

/-- The search finds `-1` if it is one of the next squares. The induction is on the squares that are
left. -/
theorem squaresToMinusOne_iff (hn : 2 < n) (steps x : Nat) :
    squaresToMinusOne n steps x = true ↔ ∃ r < steps, (x : ZMod n) ^ 2 ^ (r + 1) = -1 := by
  have := Fact.mk hn
  induction steps generalizing x with
  | zero => simp [squaresToMinusOne]
  | succ steps ih =>
    have hlt : x * x % n < n := Nat.mod_lt _ (by omega)
    have hcast : ((x * x % n : Nat) : ZMod n) = (x : ZMod n) ^ 2 := by
      rw [ZMod.natCast_mod, Nat.cast_mul, pow_two]
    have hminus : x * x % n = n - 1 ↔ (x : ZMod n) ^ 2 = -1 := by rw [eq_pred_iff_cast hlt, hcast]
    have hone : x * x % n = 1 ↔ (x : ZMod n) ^ 2 = 1 := by
      rw [eq_one_iff_cast (by omega) hlt, hcast]
    have hpow : ∀ r, (x : ZMod n) ^ 2 ^ (r + 1) = ((x : ZMod n) ^ 2) ^ 2 ^ r := by
      intro r
      rw [← pow_mul, ← pow_succ']
    simp only [squaresToMinusOne, hminus, hone]
    split
    · next h => exact iff_of_true rfl ⟨0, by omega, by simpa using h⟩
    · next hno =>
      split
      · next h =>
        refine iff_of_false Bool.false_ne_true ?_
        rintro ⟨r, -, hr⟩
        rw [hpow, h, one_pow] at hr
        exact ZMod.neg_one_ne_one hr.symm
      · refine (ih (x * x % n)).trans ?_
        rw [hcast]
        constructor
        · rintro ⟨r, hr, hpower⟩
          exact ⟨r + 1, by omega, by rw [hpow, hpower]⟩
        · rintro ⟨r, hr, hpower⟩
          rw [hpow] at hpower
          cases r with
          | zero => exact absurd (by simpa using hpower) hno
          | succ r => exact ⟨r, by omega, hpower⟩

theorem passesBase_iff (hn : 2 < n) {d s a : Nat} (hs : 0 < s) :
    passesBase n d s a = true ↔
      (a : ZMod n) ^ d = 1 ∨ ∃ r < s, (a : ZMod n) ^ (d * 2 ^ r) = -1 := by
  have hlt : powMod a d n < n := powMod_lt (by omega) a d
  have hcast := natCast_powMod a d n
  simp only [passesBase, Bool.or_eq_true, decide_eq_true_eq, eq_one_iff_cast (by omega) hlt,
    eq_pred_iff_cast hlt, squaresToMinusOne_iff hn, hcast, or_assoc, pow_mul]
  refine or_congr_right ⟨?_, ?_⟩
  · rintro (hminus | ⟨r, hr, hpower⟩)
    · exact ⟨0, hs, by simpa using hminus⟩
    · exact ⟨r + 1, by omega, hpower⟩
  · rintro ⟨r, hr, hpower⟩
    cases r with
    | zero => exact .inl (by simpa using hpower)
    | succ r => exact .inr ⟨r, by omega, hpower⟩

/-- An odd number passes the computed test if it passes the strong test. -/
theorem passesBase_splitTwos_iff (hn : 2 < n) (hodd : n % 2 = 1) (a : Nat) :
    passesBase n (splitTwos (bitLength n) (n - 1)).1 (splitTwos (bitLength n) (n - 1)).2 a = true ↔
      IsStrongProbablePrime n a := by
  have hfits := lt_two_pow_bitLength n
  obtain ⟨hd, hsplit⟩ := splitTwos_spec (bitLength n) (n := n - 1) (by omega) (by omega)
  generalize (splitTwos (bitLength n) (n - 1)).1 = d at hd hsplit ⊢
  generalize (splitTwos (bitLength n) (n - 1)).2 = s at hsplit ⊢
  have hs : 0 < s := by
    by_contra hzero
    obtain rfl : s = 0 := by omega
    rw [Nat.pow_zero, Nat.mul_one] at hsplit
    omega
  rw [passesBase_iff hn hs]
  constructor
  · exact fun h => ⟨d, s, hd, hsplit, h⟩
  · rintro ⟨d', s', hd', hsplit', h⟩
    obtain ⟨rfl, rfl⟩ := odd_part_unique hd hd' (hsplit.symm.trans hsplit')
    exact h

end Residues

/-! ## What passes -/

/-- **What the test accepts**: the small primes, and the numbers without such a factor that pass the
strong test to the first bases. -/
theorem isProbablePrime_iff {n rounds : Nat} : isProbablePrime n rounds = true ↔
    n ∈ smallPrimes ∨ 2 ≤ n ∧ (∀ p ∈ smallPrimes, ¬ p ∣ n) ∧
      ∀ a ∈ smallPrimes.take (max rounds 1), IsStrongProbablePrime n a := by
  unfold isProbablePrime
  by_cases h2 : n < 2
  · rw [if_pos h2]
    refine iff_of_false Bool.false_ne_true ?_
    rintro (hmem | ⟨hle, -⟩)
    · have := (prime_of_mem_smallPrimes n hmem).two_le
      omega
    · omega
  · rw [if_neg h2, trialDivision_eq prime_of_mem_smallPrimes]
    by_cases hmem : n ∈ smallPrimes
    · simp [hmem]
    · by_cases hfactor : ∃ p ∈ smallPrimes, p ∣ n
      · rw [if_neg hmem, if_pos hfactor]
        refine iff_of_false Bool.false_ne_true ?_
        rintro (h | ⟨-, hnone, -⟩)
        · exact hmem h
        · obtain ⟨p, hp, hdvd⟩ := hfactor
          exact hnone p hp hdvd
      · have hnone : ∀ p ∈ smallPrimes, ¬ p ∣ n := fun p hp hdvd => hfactor ⟨p, hp, hdvd⟩
        have hodd : ¬ 2 ∣ n := hnone 2 (by decide)
        rw [if_neg hmem, if_neg hfactor]
        simp only [List.all_eq_true, passesBase_splitTwos_iff (n := n) (by omega) (by omega), hmem,
          false_or]
        exact ⟨fun h => ⟨by omega, hnone, h⟩, fun h => h.2.2⟩

/-- Over a ring without zero divisors, a chain of squares that ends with one starts with one or has
`-1` in it before its end. The induction takes the last square off. -/
theorem eq_one_or_eq_neg_one_of_pow {R : Type*} [CommRing R] [NoZeroDivisors R] {x : R} {s : Nat}
    (h : x ^ 2 ^ s = 1) : x = 1 ∨ ∃ r < s, x ^ 2 ^ r = -1 := by
  induction s with
  | zero => exact .inl (by simpa using h)
  | succ s ih =>
    rw [pow_succ, pow_mul, pow_two, mul_self_eq_one_iff] at h
    rcases h with hone | hminus
    · rcases ih hone with hstart | ⟨r, hr, hpower⟩
      · exact .inl hstart
      · exact .inr ⟨r, by omega, hpower⟩
    · exact .inr ⟨s, Nat.lt_succ_self s, hminus⟩

theorem isStrongProbablePrime_of_prime {n a : Nat} (hn : n.Prime) (ha : ¬ n ∣ a) :
    IsStrongProbablePrime n a := by
  have := Fact.mk hn
  have hpred : n - 1 ≠ 0 := by
    have := hn.two_le
    omega
  obtain ⟨s, d, hd, hsplit⟩ := Nat.exists_eq_two_pow_mul_odd hpred
  rw [Nat.mul_comm] at hsplit
  have hunit : (a : ZMod n) ≠ 0 := by rwa [Ne, ZMod.natCast_eq_zero_iff]
  have hfermat : ((a : ZMod n) ^ d) ^ 2 ^ s = 1 := by
    rw [← pow_mul, ← hsplit, ZMod.pow_card_sub_one_eq_one hunit]
  refine ⟨d, s, Nat.odd_iff.1 hd, hsplit, ?_⟩
  simpa only [pow_mul] using eq_one_or_eq_neg_one_of_pow hfermat

/-- **No prime is rejected.** -/
theorem isProbablePrime_of_prime {n : Nat} (hn : n.Prime) (rounds : Nat) :
    isProbablePrime n rounds = true := by
  rw [isProbablePrime_iff]
  by_cases hmem : n ∈ smallPrimes
  · exact .inl hmem
  · have hnone : ∀ p ∈ smallPrimes, p ≠ n := fun p hp h => hmem (h ▸ hp)
    refine .inr ⟨hn.two_le, ?_, ?_⟩
    · intro p hp hdvd
      exact hnone p hp ((Nat.prime_dvd_prime_iff_eq (prime_of_mem_smallPrimes p hp) hn).1 hdvd)
    · intro a ha
      have ha := List.mem_of_mem_take ha
      refine isStrongProbablePrime_of_prime hn fun hdvd => hnone a ha ?_
      exact ((Nat.prime_dvd_prime_iff_eq hn (prime_of_mem_smallPrimes a ha)).1 hdvd).symm

/-- More rounds are more bases. -/
theorem isProbablePrime_mono {n fewer rounds : Nat} (hle : fewer ≤ rounds)
    (h : isProbablePrime n rounds = true) : isProbablePrime n fewer = true := by
  rw [isProbablePrime_iff] at h ⊢
  refine h.imp_right fun ⟨h2, hnone, hstrong⟩ => ⟨h2, hnone, fun a ha => hstrong a ?_⟩
  exact (List.take_sublist_take_left (by omega)).subset ha

/-- Below the square of 257 the test decides. -/
theorem isProbablePrime_iff_prime {n : Nat} (hn : n < 66049) (rounds : Nat) :
    isProbablePrime n rounds = true ↔ n.Prime := by
  refine ⟨fun h => ?_, fun h => isProbablePrime_of_prime h rounds⟩
  rcases isProbablePrime_iff.1 h with hmem | ⟨h2, hnone, -⟩
  · exact prime_of_mem_smallPrimes n hmem
  · exact prime_of_no_small_factor h2 hn hnone

/-! ## Where the test is used -/

/-- What is taken for the modulus of a group. -/
theorem Group.of_eq_ok_iff {p : Nat} {G : Group} : of p = .ok G ↔
    G.modulus = p ∧ isProbablePrime p fullRounds = true ∧
      isProbablePrime G.order fullRounds = true := by
  unfold of ofTrusted
  by_cases hshape : 7 ≤ p ∧ p % 4 = 3
  · rw [dif_pos hshape, Outcome.ok_bind]
    by_cases hprimes : (isProbablePrime p fullRounds
        && isProbablePrime (⟨p, hshape.1, hshape.2⟩ : Group).order fullRounds) = true
    · rw [if_pos hprimes]
      rw [Bool.and_eq_true] at hprimes
      constructor
      · intro h
        cases h
        exact ⟨rfl, hprimes⟩
      · rintro ⟨rfl, -⟩
        rfl
    · rw [if_neg hprimes]
      refine iff_of_false (by simp) ?_
      rintro ⟨rfl, h⟩
      exact hprimes (by rw [Bool.and_eq_true]; exact h)
  · rw [dif_neg hshape, Outcome.error_bind]
    refine iff_of_false (by simp) ?_
    rintro ⟨rfl, -⟩
    exact hshape ⟨G.seven_le, G.mod_four⟩

/-- Every safe prime above five is taken. -/
theorem Group.of_safe_prime {p : Nat} (hp : p.Prime) (hq : ((p - 1) / 2).Prime) (h7 : 7 ≤ p) :
    ∃ G, of p = .ok G ∧ G.modulus = p := by
  have hodd : p % 2 = 1 := Nat.odd_iff.1 (hp.odd_of_ne_two (by omega))
  have hodd' : (p - 1) / 2 % 2 = 1 := Nat.odd_iff.1 (hq.odd_of_ne_two (by omega))
  refine ⟨⟨p, h7, by omega⟩, of_eq_ok_iff.2 ⟨rfl, ?_, ?_⟩, rfl⟩
  · exact isProbablePrime_of_prime hp fullRounds
  · exact isProbablePrime_of_prime hq fullRounds

/-- A number of the shape of a prime that passes the full test, and no other one before it. -/
def unscreenedPrime (bits : Nat) : Proc Source ArithmeticError Nat :=
  if bits < 16 then throw .badModulus
  else Proc.search do
    let value ← drawCandidate bits
    let n := withPrimeShape bits value
    return if isProbablePrime n fullRounds then some n else none

/-- **The first look at a candidate changes nothing**, neither what is drawn nor how much entropy
that takes. -/
theorem randomPrime_eq_unscreened (bits : Nat) : randomPrime bits = unscreenedPrime bits := by
  have htest : ∀ n, (isProbablePrime n screenRounds && isProbablePrime n fullRounds)
      = isProbablePrime n fullRounds := by
    intro n
    cases hfull : isProbablePrime n fullRounds with
    | false => exact Bool.and_false _
    | true => rw [isProbablePrime_mono (by decide : screenRounds ≤ fullRounds) hfull, Bool.and_true]
  simp only [randomPrime, unscreenedPrime, htest]

/-- **The test errs on one side only, and a shorter one in front of it changes nothing.** -/
theorem isProbablePrime_one_sided (n rounds : Nat) :
    (n.Prime → isProbablePrime n rounds = true) ∧
      (n.Prime → ((n - 1) / 2).Prime → 7 ≤ n → ∃ G, Group.of n = .ok G ∧ G.modulus = n) ∧
      (isProbablePrime n rounds = true ↔
        n ∈ smallPrimes ∨ 2 ≤ n ∧ (∀ p, p.Prime → p ≤ 251 → ¬ p ∣ n) ∧
          ∀ a ∈ smallPrimes.take (max rounds 1), IsStrongProbablePrime n a) ∧
      (n < 66049 → (isProbablePrime n rounds = true ↔ n.Prime)) ∧
      (∀ fewer ≤ rounds, isProbablePrime n rounds = true → isProbablePrime n fewer = true) ∧
      ∀ bits, randomPrime bits = unscreenedPrime bits := by
  have htable : (∀ p ∈ smallPrimes, ¬ p ∣ n) ↔ ∀ p, p.Prime → p ≤ 251 → ¬ p ∣ n := by
    constructor
    · exact fun h p hp hle => h p (mem_smallPrimes_iff.2 ⟨hp, by omega⟩)
    · have hle : ∀ p ∈ smallPrimes, p ≤ 251 := by decide
      exact fun h p hp => h p (prime_of_mem_smallPrimes p hp) (hle p hp)
  refine ⟨fun hn => isProbablePrime_of_prime hn rounds, Group.of_safe_prime, ?_,
    fun hn => isProbablePrime_iff_prime hn rounds, fun _ hle => isProbablePrime_mono hle,
    randomPrime_eq_unscreened⟩
  rw [isProbablePrime_iff, htable]

/-- The prime `2 ^ 16 + 1` needs all squares of the chain for its bases; 1439 is a safe prime. -/
theorem isProbablePrime_one_sided_fermat :
    isProbablePrime 65537 40 = true ∧ isProbablePrime 65537 3 = true ∧
      ∃ G, Group.of 1439 = .ok G ∧ G.modulus = 1439 := by
  have hprime : Nat.Prime 65537 := by norm_num
  have hpass := (isProbablePrime_one_sided 65537 40).1 hprime
  refine ⟨hpass, (isProbablePrime_one_sided 65537 40).2.2.2.2.1 3 (by decide) hpass, ?_⟩
  exact (isProbablePrime_one_sided 1439 40).2.1 (by norm_num) (by norm_num) (by decide)

/-- One round takes the square of 1093 for a prime, a second one does not. -/
example : isProbablePrime (1093 * 1093) 1 = true ∧ isProbablePrime (1093 * 1093) 2 = false := by
  decide +kernel

end ThresholdKeys
