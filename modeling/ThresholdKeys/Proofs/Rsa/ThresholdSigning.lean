import Mathlib.FieldTheory.Finite.Basic
import Mathlib.NumberTheory.LucasLehmer
import Mathlib.Data.Nat.Prime.Factorial
import Mathlib.Tactic.NormNum.Prime
import ThresholdKeys.Proofs.Der.Sizes
import ThresholdKeys.Proofs.Rsa.Combination
import ThresholdKeys.Proofs.Rsa.Release

/-!
# Every quorum signs

Holders of shares `f(i)` of the private exponent `d = f(0)` bring their blobs. Whatever quorum they
are and in whatever order they come, they are accepted, and what they sign is the encoded message to
the power `d`, in the octets of the modulus (`every_quorum_signs`). Hence quorums that sign with one
salt produce one signature.

The encoded message has to be a unit. Finding one that is not would factor the modulus.
-/

namespace ThresholdKeys

open Rsa

namespace Signers

/-! ## The blobs are accepted -/

variable {t : Threshold} {pk : PublicKey} {f : Polynomial}

/-- The share of the party `i`. -/
def keyShare (pk : PublicKey) (f : Polynomial) (i : Nat) : KeyShare := ⟨pk, f.evaluate i⟩

/-- The blob on the token of the party `i`. -/
def shareBlob (pk : PublicKey) (f : Polynomial) (i : Nat) : IndexedBlob :=
  ⟨i, (keyShare pk f i).toDer⟩

/-- Key shares have short encodings, if a message is encoded for the key. -/
theorem length_keyShare_lt {message salt : Bytes} {encoded : Nat}
    (henc : pk.encodeMessage message salt = .ok encoded) (hle : f.modulus ≤ pk.modulus) (i : Nat) :
    (keyShare pk f i).toDer.length < Der.lengthLimit := by
  have hbits := PublicKey.bits_lt_of_encodeMessage henc
  apply KeyShare.length_toDer_lt
  · exact Nat.lt_trans hbits (by decide)
  · exact Nat.lt_of_lt_of_le (evaluate_lt f i) hle

/-- The standard exponent has no factor in common with a factorial of a smaller number. -/
theorem coprime_standardExponent_factorial {n : Nat} (h : n < standardExponent) :
    Nat.Coprime standardExponent (factorial n) := by
  have hprime : Nat.Prime standardExponent := by
    unfold standardExponent
    norm_num
  rw [hprime.coprime_iff_not_dvd, factorial_eq, hprime.dvd_factorial]
  omega

theorem ofBlobs_quorum (hder : ∀ i, (keyShare pk f i).toDer.length < Der.lengthLimit)
    (hcop : Nat.Coprime pk.exponent (factorial t.parties)) {indices : List Nat}
    (hq : IsQuorum t indices) :
    ofBlobs t (indices.map (shareBlob pk f))
      = .ok ⟨pk, indices.map fun i => (i, keyShare pk f i), t.parties⟩ := by
  have hindices : (indices.map (shareBlob pk f)).map IndexedBlob.index = indices := by
    simp [shareBlob, Function.comp_def]
  have hcarries : ∀ i ∈ indices, Carries pk (shareBlob pk f i) (i, keyShare pk f i) :=
    fun i _ => ⟨rfl, KeyShare.ofDer_toDer (hder i), rfl⟩
  refine ofBlobs_eq_ok_iff.2 ⟨by rwa [hindices], ?_, hcop, rfl⟩
  rw [List.forall₂_map_left_iff, List.forall₂_map_right_iff]
  exact List.forall₂_same.2 hcarries

/-! ## What they sign -/

theorem partialSignatures_keyShare {message salt : Bytes} {encoded : Nat}
    (henc : pk.encodeMessage message salt = .ok encoded) (indices : List Nat) :
    partialSignatures message salt (indices.map fun i => (i, keyShare pk f i))
      = .ok (partialsOn encoded f pk.modulus indices) := by
  induction indices with
  | nil => rfl
  | cons i rest ih =>
    have hpartial : (keyShare pk f i).partialSign message salt
        = .ok (powMod encoded (f.evaluate i) pk.modulus) := by
      rw [KeyShare.partialSign, keyShare, henc]
      rfl
    rw [List.map_cons, partialSignatures, hpartial, Outcome.mapError_ok, Outcome.ok_bind, ih]
    rfl

/-- A quorum signs with the constant term, whoever its members are. -/
theorem signWith_quorum {σ : Type} {message salt : Bytes} {encoded : Nat} {u : (ZMod pk.modulus)ˣ}
    (henc : pk.encodeMessage message salt = .ok encoded) (hu : (encoded : ZMod pk.modulus) = u)
    (horder : u ^ f.modulus = 1) (hinv : (pk.exponent : ZMod f.modulus) * f.constant = 1)
    (hcop : Nat.Coprime pk.exponent (factorial t.parties)) (hdeg : f.degree = t.threshold - 1)
    {indices : List Nat} (hq : IsQuorum t indices) (k : Nat) (state : σ) :
    (signWith ⟨pk, indices.map fun i => (i, keyShare pk f i), t.parties⟩ message salt k
      state).outcome = .ok (Bytes.fixed pk.length (encoded ^ f.constant % pk.modulus)) := by
  have hpos := t.threshold_pos
  have henough := hq.enough
  have hidx : ∀ i ∈ indices, 1 ≤ i ∧ i ≤ t.parties := by
    intro i hi
    exact isIndex_iff.1 (hq.isIndex i hi)
  have hcombine := combine_units hu (PublicKey.encodeMessage_lt henc) horder hinv hcop hq.nodup
    hidx (by omega) k state
  obtain ⟨hy, hroot⟩ := combine_eq_ok_iff.1 (congrArg Run.outcome hcombine)
  exact signWith_eq_ok_iff.2
    ⟨_, _, _, partialSignatures_keyShare henc indices, henc, hy, hroot, rfl⟩

/-- Signing with a drawn salt is signing with that salt. -/
theorem sign_of_draw {s : Signers} {message salt : Bytes} {k : Nat} {source : Source}
    (h : (draw Pss.saltLength k source).outcome = .ok salt) :
    ∃ source' : Source, (s.sign message k source).outcome
      = (s.signWith message salt k source').outcome := by
  obtain ⟨o, source', log, hrun⟩ : ∃ o source' log, draw Pss.saltLength k source
    = ⟨o, source', log⟩ := ⟨_, _, _, rfl⟩
  rw [hrun] at h
  have hsalt : ((draw Pss.saltLength).mapError ProtocolError.entropy) k source
      = ⟨.ok salt, source', log⟩ := by
    rw [Proc.mapError, hrun]
    dsimp only at h ⊢
    rw [h]
    rfl
  exact ⟨source', by rw [sign, Proc.bind_apply_ok hsalt]⟩

/-! ## Quorums -/

theorem pow_eq_one_of_two_primes {p q : Nat} (hp : p.Prime) (hq : q.Prime) (hne : p ≠ q)
    (u : (ZMod (p * q))ˣ) : u ^ ((p - 1) * (q - 1)) = 1 := by
  have h := ZMod.pow_totient u
  rwa [Nat.totient_mul ((Nat.coprime_primes hp hq).2 hne), Nat.totient_prime hp,
    Nat.totient_prime hq] at h

/-- **Every quorum signs**, and all quorums the same. The shares are those of a polynomial over the
number of units whose constant term is inverse to the public exponent, as a generation draws it. -/
theorem every_quorum_signs {p q : Nat} (hp : p.Prime) (hq : q.Prime) (hne : p ≠ q)
    (hn : pk.modulus = p * q) (he : pk.exponent = standardExponent)
    (ht : t.parties < standardExponent) (hf : f.modulus = (p - 1) * (q - 1))
    (hdeg : f.degree = t.threshold - 1) (hd : standardExponent * f.constant % f.modulus = 1)
    {message salt : Bytes} {encoded : Nat} (henc : pk.encodeMessage message salt = .ok encoded)
    (hunit : Nat.Coprime encoded pk.modulus) :
    ∃ signature, Bytes.fixed? (encoded ^ f.constant % pk.modulus) pk.length = some signature ∧
      (pk.verify message signature : Outcome ProtocolError Bool) = .ok true ∧
      ∀ indices, IsQuorum t indices →
        ∃ s, ofBlobs t (indices.map (shareBlob pk f)) = .ok s ∧ ∀ patience source,
          (s.signWith message salt patience source).outcome = .ok signature ∧
          ((draw Pss.saltLength patience source).outcome = .ok salt →
            (s.sign message patience source).outcome = .ok signature) := by
  obtain ⟨u, hu⟩ : ∃ u : (ZMod pk.modulus)ˣ, (encoded : ZMod pk.modulus) = u :=
    ⟨ZMod.unitOfCoprime encoded hunit, rfl⟩
  have horder : u ^ f.modulus = 1 := by
    rw [hf]
    revert u
    rw [hn]
    intro u _
    exact pow_eq_one_of_two_primes hp hq hne u
  have hinv : (pk.exponent : ZMod f.modulus) * f.constant = 1 := by
    have h := ZMod.natCast_mod (standardExponent * f.constant) f.modulus
    rw [hd, Nat.cast_one, Nat.cast_mul] at h
    rw [he, ← h]
  have hle : f.modulus ≤ pk.modulus := by
    rw [hf, hn]
    exact Nat.mul_le_mul (Nat.sub_le _ _) (Nat.sub_le _ _)
  have hcop : Nat.Coprime pk.exponent (factorial t.parties) := by
    rw [he]
    exact coprime_standardExponent_factorial ht
  have hy : encoded ^ f.constant % pk.modulus < pk.modulus := Nat.mod_lt _ pk.modulus_pos
  have hroot := powMod_power_exponent hu horder hinv (PublicKey.encodeMessage_lt henc)
  refine ⟨Bytes.fixed pk.length (encoded ^ f.constant % pk.modulus),
    Bytes.fixed?_of_lt (PublicKey.lt_pow_length hy), PublicKey.verify_of_powMod henc hy hroot, ?_⟩
  intro indices hquorum
  refine ⟨_, ofBlobs_quorum (length_keyShare_lt henc hle) hcop hquorum, ?_⟩
  intro patience source
  have hsign : ∀ source' : Source,
      (signWith ⟨pk, indices.map fun i => (i, keyShare pk f i), t.parties⟩ message salt patience
        source').outcome = .ok (Bytes.fixed pk.length (encoded ^ f.constant % pk.modulus)) :=
    signWith_quorum henc hu horder hinv hcop hdeg hquorum patience
  refine ⟨hsign source, ?_⟩
  intro hdraw
  obtain ⟨source', hsource⟩ := sign_of_draw hdraw
  rw [hsource, hsign source']

/-- A key of 523 binary digits, whose primes are the Mersenne prime `2 ^ 521 - 1` and three. -/
def mersenneKey : PublicKey where
  modulus := (2 ^ 521 - 1) * 3
  exponent := standardExponent
  one_lt := one_lt_standardExponent
  exponent_odd := standardExponent_odd
  exponent_lt := by decide +kernel
  modulus_odd := by decide +kernel

/-- The private exponent of that key, shared for a threshold of three. -/
def mersennePolynomial : Polynomial where
  modulus := (2 ^ 521 - 2) * 2
  constant := (1 + 57377 * ((2 ^ 521 - 2) * 2)) / standardExponent
  higher := [2 ^ 400 + 7, 2 ^ 500 - 9]
  modulus_pos := by decide +kernel

theorem every_quorum_signs_mersenne :
    ∃ signature s, ofBlobs ⟨5, 3, by decide, by decide⟩
        ([5, 2, 4].map (shareBlob mersenneKey mersennePolynomial)) = .ok s ∧
      (mersenneKey.verify [0x79, 0x65, 0x73] signature : Outcome ProtocolError Bool) = .ok true ∧
      ∀ (patience : Nat) (source : Source), (s.signWith [0x79, 0x65, 0x73]
        (List.replicate 32 0x2a) patience source).outcome = .ok signature := by
  have hmersenne : ∀ n, mersenne n = 2 ^ n - 1 := fun _ => rfl
  have hp : Nat.Prime (2 ^ 521 - 1) := by
    rw [← hmersenne 521]
    exact lucas_lehmer_sufficiency 521 (by decide) (by norm_num)
  have hn : mersenneKey.modulus = (2 ^ 521 - 1) * 3 := rfl
  have hf : mersennePolynomial.modulus = (2 ^ 521 - 1 - 1) * (3 - 1) := by decide +kernel
  have hd : standardExponent * mersennePolynomial.constant % mersennePolynomial.modulus = 1 := by
    decide +kernel
  have henc : mersenneKey.encodeMessage [0x79, 0x65, 0x73] (List.replicate 32 0x2a) = .ok
      (0x6c09432f3fd299e3b1aa9774f4d94f5bbd90d5b4d98c9731a62f38b6c88ec6e379 * 2 ^ 256 +
        0xd9fbe08408f31f01765850f210e832f1c90efeff8ac1a7640d2f13968d2af4bc) := by
    decide +kernel
  obtain ⟨signature, -, hverify, hall⟩ := every_quorum_signs (t := ⟨5, 3, by decide, by decide⟩)
    hp Nat.prime_three (by decide +kernel) hn rfl (by decide) hf rfl hd henc (by decide +kernel)
  obtain ⟨s, hs, hsign⟩ := hall [5, 2, 4] (by decide)
  exact ⟨signature, s, hs, hverify, fun patience source => (hsign patience source).1⟩

end Signers

end ThresholdKeys
