import ThresholdKeys.Proofs.Ceremony.Recovery
import ThresholdKeys.Proofs.Sharing.Exactness

/-!
# Shares that are the key

A generation deals the values of a polynomial at the indices of the parties, and a value depends on
the index modulo the order `q` of the group only. So it matters how many parties there are, and
nothing compares their number with `q`:

* fewer than `q` parties hold values at different points, none of which is zero;
* the party `q`, if there is one, holds the value at zero, which is the key of the election,
  whatever the polynomial is (`isExposed_iff`);
* of more than `q` parties two hold the same value, and quorums with both of them recover nothing
  (`RecoveredKey.recover_of_quorum`).

Each of these holds exactly for the numbers of parties given here
(`ElectionKey.generate_hides_key_iff`). The orders that elections use are far larger than any number
of parties; four parties and a group of three residues show all of it
(`ElectionKey.four_parties_three_residues`).
-/

namespace ThresholdKeys

open ElGamal

variable {q : Nat} {indices : List Nat} {t : Threshold}

/-! ## Indices modulo the order -/

/-- No two of the indices are the same modulo `q`. -/
def DistinctModulo (q : Nat) (indices : List Nat) : Prop :=
  indices.Pairwise fun i j => ¬ i ≡ j [MOD q]

instance (q : Nat) (indices : List Nat) : Decidable (DistinctModulo q indices) :=
  inferInstanceAs (Decidable (indices.Pairwise _))

theorem DistinctModulo.not_modEq (h : DistinctModulo q indices) {i j : Nat} (hi : i ∈ indices)
    (hj : j ∈ indices) (hne : i ≠ j) : ¬ i ≡ j [MOD q] := by
  have : Std.Symm fun i j : Nat => ¬ i ≡ j [MOD q] := ⟨fun _ _ h h' => h h'.symm⟩
  exact List.Pairwise.forall h hi hj hne

/-- Indices are distinct modulo a prime exactly if they differ by units. -/
theorem separated_iff_distinctModulo (hq : q.Prime) (hn : indices.Nodup) :
    Separated indices q ↔ DistinctModulo q indices := by
  have hunit : ∀ i j : Nat, IsCoprime ((j : ℤ) - i) q ↔ ¬ i ≡ j [MOD q] := by
    intro i j
    rw [Nat.modEq_iff_dvd, Int.natCast_dvd, Int.isCoprime_iff_gcd_eq_one, Int.gcd_comm]
    exact Nat.Prime.coprime_iff_not_dvd hq
  simp only [Separated, hunit]
  constructor
  · exact fun h => hn.pairwise_of_forall_ne h
  · exact fun h i hi j hj hne => h.not_modEq hi hj hne

/-- The indices of the parties are points of a polynomial modulo `q` that are neither zero nor the
same exactly if there are fewer parties than `q`. -/
theorem apart_indices_iff (hq : q.Prime) :
    (∀ i ∈ t.indices, ¬ q ∣ i) ∧ DistinctModulo q t.indices ↔ t.parties < q := by
  constructor
  · rintro ⟨hnonzero, -⟩
    by_contra hle
    exact hnonzero q (mem_indices_iff.2 (isIndex_iff.2 ⟨hq.pos, by omega⟩)) (dvd_refl q)
  · intro hlt
    constructor
    · intro i hi
      obtain ⟨hpos, hle⟩ := isIndex_iff.1 (mem_indices_iff.1 hi)
      exact Nat.not_dvd_of_pos_of_lt hpos (by omega)
    · apply (separated_iff_distinctModulo hq List.nodup_range').1
      exact separated_of_isIndex hq hlt.le fun i hi => mem_indices_iff.1 hi

/-- Of more than `q` parties the first one and the one after `q` are in some quorum together. -/
theorem exists_quorum_not_distinct (hq : 0 < q) (ht : 2 ≤ t.threshold) (hlt : q < t.parties) :
    ∃ indices, IsQuorum t indices ∧ indices.length = t.threshold ∧
      ¬ DistinctModulo q indices := by
  have hmajority := t.majority
  have hpair : ({1, q + 1} : Finset Nat) ⊆ Finset.Icc 1 t.parties := by
    intro i hi
    simp only [Finset.mem_insert, Finset.mem_singleton, Finset.mem_Icc] at hi ⊢
    omega
  have htwo : ({1, q + 1} : Finset Nat).card ≤ t.threshold := by
    rwa [Finset.card_pair (by omega)]
  have hall : t.threshold ≤ (Finset.Icc 1 t.parties).card := by
    rw [Nat.card_Icc]
    omega
  obtain ⟨s, hmem, hs, hcard⟩ := Finset.exists_subsuperset_card_eq hpair htwo hall
  have hlength : s.toList.length = t.threshold := by rw [Finset.length_toList, hcard]
  refine ⟨s.toList, ⟨s.nodup_toList, ?_, hlength.ge⟩, hlength, ?_⟩
  · intro i hi
    exact isIndex_iff.2 (Finset.mem_Icc.1 (hs (Finset.mem_toList.1 hi)))
  · intro hdistinct
    have hfirst : 1 ∈ s.toList := Finset.mem_toList.2 (hmem (by simp))
    have hafter : q + 1 ∈ s.toList := Finset.mem_toList.2 (hmem (by simp))
    exact hdistinct.not_modEq hfirst hafter (by omega) (by simp [Nat.ModEq])

/-! ## Values at indices -/

/-- A value depends on the index modulo the modulus only. -/
theorem Polynomial.evaluate_congr (f : Polynomial) {i j : Nat} (h : i ≡ j [MOD f.modulus]) :
    f.evaluate i = f.evaluate j := by
  have hcast : ((f.evaluate i : Nat) : ZMod f.modulus) = f.evaluate j := by
    rw [natCast_evaluate, natCast_evaluate, (ZMod.natCast_eq_natCast_iff i j f.modulus).2 h]
  exact (natCast_inj_of_lt (evaluate_lt f i) (evaluate_lt f j)).1 hcast

/-- Whatever the polynomial modulo `q` is, its value at the index is its value at zero. -/
def IsExposed (q degree i : Nat) : Prop :=
  ∀ f : Polynomial, f.modulus = q → f.degree = degree → f.evaluate i = f.evaluate 0

theorem horner_replicate_zero {R : Type*} [CommRing R] (n : Nat) (x : R) :
    horner (List.replicate n 0) x = 0 := by
  induction n with
  | zero => rfl
  | succ n ih => rw [List.replicate_succ, horner_cons, ih, zero_mul, Nat.cast_zero, add_zero]

/-- The polynomial `x`, with zeros above it up to the degree. -/
def Polynomial.identity (degree : Nat) (hq : 0 < q) : Polynomial :=
  ⟨q, 0, 1 :: List.replicate (degree - 1) 0, hq⟩

theorem Polynomial.degree_identity {degree : Nat} (hdegree : 0 < degree) (hq : 0 < q) :
    (identity degree hq).degree = degree := by
  rw [identity, Polynomial.degree, List.length_cons, List.length_replicate]
  omega

theorem Polynomial.natCast_evaluate_identity (degree : Nat) (hq : 0 < q) (i : Nat) :
    (((identity degree hq).evaluate i : Nat) : ZMod q) = i := by
  calc (((identity degree hq).evaluate i : Nat) : ZMod q)
      = horner (0 :: 1 :: List.replicate (degree - 1) 0) (i : ZMod q) := natCast_evaluate _ i
    _ = i := by
      rw [horner_cons, horner_cons, horner_replicate_zero]
      simp

/-- **Multiples of the modulus are exposed**, and no other indices. -/
theorem isExposed_iff (hq : 0 < q) {degree i : Nat} (hdegree : 0 < degree) :
    IsExposed q degree i ↔ q ∣ i := by
  constructor
  · intro h
    have hsame := h (.identity degree hq) rfl (Polynomial.degree_identity hdegree hq)
    rw [← ZMod.natCast_eq_zero_iff, ← Polynomial.natCast_evaluate_identity degree hq i, hsame,
      Polynomial.natCast_evaluate_identity, Nat.cast_zero]
  · rintro h f rfl -
    exact f.evaluate_congr ((Nat.modEq_zero_iff_dvd).2 h)

/-- Some party has an exposed index exactly if there are as many parties as the modulus. -/
theorem exists_isExposed_iff (hq : 0 < q) {degree : Nat} (hdegree : 0 < degree) :
    (∃ i ∈ t.indices, IsExposed q degree i) ↔ q ≤ t.parties := by
  simp only [isExposed_iff hq hdegree]
  constructor
  · rintro ⟨i, hi, hdvd⟩
    obtain ⟨hpos, hle⟩ := isIndex_iff.1 (mem_indices_iff.1 hi)
    exact (Nat.le_of_dvd hpos hdvd).trans hle
  · intro hle
    exact ⟨q, mem_indices_iff.2 (isIndex_iff.2 ⟨hq, hle⟩), dvd_refl q⟩

/-! ## Quorums with two shares of one value -/

namespace RecoveredKey

variable {ps : Parameters} {f : Polynomial} {blob : Nat → IndexedBlob}

/-- **What a quorum recovers**: the key if no two of its indices are the same modulo the order, and
nothing otherwise. -/
theorem recover_of_quorum (hq : ps.group.order.Prime) (hf : f.modulus = ps.group.order)
    (hdegree : f.degree = t.threshold - 1) (hconstant : f.constant < ps.group.order)
    (hquorum : IsQuorum t indices) (hblob : ∀ i ∈ indices, Carries ps (blob i) i (f.evaluate i)) :
    recover t (indices.map blob) = if DistinctModulo ps.group.order indices
      then .ok ⟨ps, f.constant, hconstant⟩ else .error (.arithmetic .notInvertible) := by
  have hseparated := separated_iff_distinctModulo hq hquorum.nodup
  split
  · next h =>
    exact recover_of_separated hf hdegree hconstant hquorum (hseparated.2 h) hblob
  · next h =>
    obtain ⟨shares, rfl, -, hrecover⟩ := recover_eq_interpolate hquorum hblob
    have hrefused := interpolateAtZero_of_not_separated hq.pos hquorum.nodup
      fun hs => h (hseparated.1 hs)
    rw [hrecover, hrefused]
    rfl

end RecoveredKey

/-! ## What a generation hands out -/

namespace ElectionKey

variable {ps : Parameters} {tag identifier : Bytes}

/-- The share at a multiple of the order is the key. -/
theorem publicKey_keyShare_of_dvd {f : Polynomial} (hf : f.modulus = ps.group.order)
    (hconstant : f.constant < ps.group.order) {i : Nat} (h : ps.group.order ∣ i) :
    (keyShare ps f hf i).publicKey = publicKey ps f := by
  have hvalue : f.evaluate i = f.constant := by
    rw [f.evaluate_congr ((Nat.modEq_zero_iff_dvd).2 (hf ▸ h)), evaluate_zero, hf,
      Nat.mod_eq_of_lt hconstant]
  simp only [PrivateKey.publicKey, publicKey, keyShare, hvalue]

/-- **When a generation hands out the key.** The shares are at indices that are neither zero nor the
same modulo the order exactly if there are fewer parties than the order, and exactly then no index
gives the key away whatever the polynomial is; an index that does has the key for its share. With no
more parties than the order every quorum recovers the key, and with more there are as many shares as
the threshold from which nothing is recovered. -/
theorem generate_hides_key_iff (hq : ps.group.order.Prime) (ht : 2 ≤ t.threshold)
    (hsize : ps.toDer.length < Der.addressLimit) {s s' : Session} {k : Nat} {der : Bytes}
    {log : List LogRecord} (h : generate ps t tag identifier k s = ⟨.ok der, s', log⟩) :
    ∃ f, (drawPolynomial ps t k s.source).outcome = .ok f ∧ der = (publicKey ps f).toDer ∧
      ∃ (hf : f.modulus = ps.group.order) (hconstant : f.constant < ps.group.order),
        (∀ j < t.parties, s'.cards.Yields tag identifier j (some (shareBlob ps f hf (j + 1)))) ∧
        ((∀ i ∈ t.indices, ¬ ps.group.order ∣ i) ∧ DistinctModulo ps.group.order t.indices
          ↔ t.parties < ps.group.order) ∧
        ((∃ i ∈ t.indices, IsExposed ps.group.order (t.threshold - 1) i)
          ↔ ps.group.order ≤ t.parties) ∧
        (∀ i, IsExposed ps.group.order (t.threshold - 1) i →
          (keyShare ps f hf i).publicKey = publicKey ps f) ∧
        (t.parties ≤ ps.group.order → ∀ indices, IsQuorum t indices →
          RecoveredKey.recover t (indices.map (shareBlob ps f hf))
            = .ok ⟨ps, f.constant, hconstant⟩) ∧
        (ps.group.order < t.parties → ∃ indices, IsQuorum t indices ∧
          indices.length = t.threshold ∧
          RecoveredKey.recover t (indices.map (shareBlob ps f hf))
            = .error (.arithmetic .notInvertible)) := by
  have hdegree : 0 < t.threshold - 1 := by omega
  obtain ⟨f, hdraw, hfdegree, hconstant, hder, -, -, hf, hyields⟩ := generate_yields h
  have hrecover : ∀ indices, IsQuorum t indices →
      RecoveredKey.recover t (indices.map (shareBlob ps f hf))
        = if DistinctModulo ps.group.order indices
          then .ok ⟨ps, f.constant, hconstant⟩ else .error (.arithmetic .notInvertible) :=
    fun indices hquorum => RecoveredKey.recover_of_quorum hq hf hfdegree hconstant hquorum
      fun i _ => RecoveredKey.carries_shareBlob hsize hf i
  refine ⟨f, hdraw, hder, hf, hconstant, hyields, apart_indices_iff hq,
    exists_isExposed_iff hq.pos hdegree, ?_, ?_, ?_⟩
  · intro i hi
    exact publicKey_keyShare_of_dvd hf hconstant ((isExposed_iff hq.pos hdegree).1 hi)
  · intro hle indices hquorum
    have hdistinct : DistinctModulo ps.group.order indices :=
      (separated_iff_distinctModulo hq hquorum.nodup).1
        (separated_of_isIndex hq hle hquorum.isIndex)
    rw [hrecover indices hquorum, if_pos hdistinct]
  · intro hlt
    obtain ⟨indices, hquorum, hlength, hsame⟩ := exists_quorum_not_distinct hq.pos ht hlt
    exact ⟨indices, hquorum, hlength, by rw [hrecover indices hquorum, if_neg hsame]⟩

theorem generate_hides_key_five :
    ∃ (f : Polynomial) (hf : f.modulus = RecoveredKey.elevenResidues.group.order)
      (hconstant : f.constant < RecoveredKey.elevenResidues.group.order),
      RecoveredKey.fivePartyRun.outcome = .ok (publicKey RecoveredKey.elevenResidues f).toDer ∧
      RecoveredKey.fivePartyRun.state.cards.Yields [1] [2] 4
        (some (shareBlob RecoveredKey.elevenResidues f hf 5)) ∧
      ¬ IsExposed 11 2 5 ∧
      RecoveredKey.recover ⟨5, 3, by decide, by decide⟩
          ([5, 1, 3].map (shareBlob RecoveredKey.elevenResidues f hf))
        = .ok ⟨RecoveredKey.elevenResidues, f.constant, hconstant⟩ := by
  obtain ⟨der, hder⟩ : ∃ der, RecoveredKey.fivePartyRun.outcome = .ok der :=
    ⟨(publicKey RecoveredKey.elevenResidues ⟨11, 7, [3, 5], by decide⟩).toDer, by decide +kernel⟩
  have hrun : RecoveredKey.fivePartyRun
      = ⟨.ok der, RecoveredKey.fivePartyRun.state, RecoveredKey.fivePartyRun.log⟩ := by rw [← hder]
  obtain ⟨f, -, rfl, hf, hconstant, hyields, -, hexposed, -, hrecover, -⟩ :=
    generate_hides_key_iff (by decide +kernel) (by decide) (by decide +kernel) hrun
  refine ⟨f, hf, hconstant, hder, hyields 4 (by decide), ?_, ?_⟩
  · exact fun h => absurd (hexposed.1 ⟨5, by decide, h⟩) (by decide)
  · exact hrecover (by decide) [5, 1, 3] (by decide)

/-! ## Four parties and three residues -/

/-- Parameters of the group of the three residues modulo seven. -/
def threeResidues : Parameters where
  group := ⟨7, by decide, by decide⟩
  generator := 2
  electionId := "council"
  generates := by decide

/-- Four parties, two of whom are needed. -/
def twoOfFour : Threshold := ⟨4, 2, Nat.two_pos, by decide⟩

/-- Four empty tokens. -/
def fourTokens : Cards where
  tokens := [.memory (.empty "t1" 0), .memory (.empty "t2" 0), .memory (.empty "t3" 0),
    .memory (.empty "t4" 0)]
  retry := .immediate 0

/-- The polynomial `2 + x` modulo three. -/
def twoPlusX : Polynomial := ⟨threeResidues.group.order, 2, [1], threeResidues.group.order_pos⟩

/-- What is dealt of it to the party `i`. -/
def fourPartyBlob (i : Nat) : IndexedBlob := shareBlob threeResidues twoPlusX rfl i

/-- A generation in which it is drawn. -/
def fourPartyRun : Run Session ProtocolError Bytes :=
  generate threeResidues twoOfFour [1] [0x44, 0x45, 0x43] 10 ⟨.ofBytes [2, 1], fourTokens⟩

/-- **A token can hold the key**: the modulus passes as that of a group, the generation succeeds,
and the third token holds a private key whose public key is the one that was returned. The shares of
the first token and of the fourth one recover nothing. -/
theorem four_parties_three_residues :
    Group.of 7 = .ok threeResidues.group ∧ threeResidues.group.modulus.Prime ∧
    threeResidues.group.order.Prime ∧
    ∃ der sk, fourPartyRun.outcome = .ok der ∧
      (∀ j < 4, fourPartyRun.state.cards.Yields [1] [0x44, 0x45, 0x43] j
        (some (fourPartyBlob (j + 1)))) ∧
      threeResidues.group.order ∣ (fourPartyBlob 3).index ∧
      PrivateKey.ofDer (fourPartyBlob 3).blob = .ok sk ∧ PublicKey.ofDer der = .ok sk.publicKey ∧
      (fourPartyBlob 1).index ≡ (fourPartyBlob 4).index [MOD threeResidues.group.order] ∧
      RecoveredKey.recover twoOfFour [fourPartyBlob 1, fourPartyBlob 4]
        = .error (.arithmetic .notInvertible) := by
  have hder : fourPartyRun.outcome = .ok (publicKey threeResidues twoPlusX).toDer := by
    decide +kernel
  have hdraw : (drawPolynomial threeResidues twoOfFour 10 (.ofBytes [2, 1])).outcome
      = .ok twoPlusX := by decide +kernel
  have hrun : fourPartyRun = ⟨.ok (publicKey threeResidues twoPlusX).toDer, fourPartyRun.state,
      fourPartyRun.log⟩ := by rw [← hder]
  obtain ⟨f, hdrawn, -, -, -, -, -, hf, hyields⟩ := generate_yields hrun
  cases hdraw.symm.trans hdrawn
  refine ⟨by decide +kernel, by decide +kernel, by decide +kernel, _,
    keyShare threeResidues twoPlusX rfl 3, hder, hyields, ?_, ?_, ?_, ?_, ?_⟩
  · decide
  · decide +kernel
  · decide +kernel
  · decide
  · decide +kernel

end ElectionKey

end ThresholdKeys
