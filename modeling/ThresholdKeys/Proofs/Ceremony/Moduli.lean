import Mathlib.Algebra.Field.ZMod
import ThresholdKeys.Proofs.Ceremony.Dealing
import ThresholdKeys.Proofs.Der.Keys
import ThresholdKeys.Proofs.ElGamal.Squares
import ThresholdKeys.Proofs.Number.Primality
import ThresholdKeys.Proofs.Rsa.Moduli
import ThresholdKeys.Proofs.Rsa.ThresholdSigning

/-!
# What is generated has the promised size

The order of a group is drawn as a prime of one digit less than the modulus, which is twice the
order and one, so it has exactly one digit more. Both have been tested when the group is returned,
and the check of a modulus that comes from elsewhere would find nothing else
(`Group.generate_ends`). A generator is the square of a number that was drawn; over a prime modulus
all but two numbers will do (`Group.isGenerator_square_iff`).

A signing key that was generated has a modulus of the size that was asked for, and its shares are
those of a polynomial whose value at zero inverts the exponent (`SigningKey.generate_yields`).
`generated_moduli` puts these together.
-/

namespace ThresholdKeys

/-! ## Groups -/

/-- Twice a number, and one, has a digit more. -/
theorem bitLength_double {n : Nat} (h : 0 < n) : bitLength (2 * n + 1) = bitLength n + 1 := by
  obtain ⟨k, hk⟩ := exists_bitLength h
  have hlow := two_pow_le_of_bitLength hk
  have hhigh := lt_two_pow_bitLength n
  rw [hk] at hhigh ⊢
  exact bitLength_eq_of_bounds (by rw [Nat.pow_succ]; omega) (by rw [Nat.pow_succ]; omega)

namespace Group

/-- A group with a modulus of `bits` digits, as it is searched for. -/
structure Found (bits : Nat) (G : Group) : Prop where
  order_shape : PrimeShape (bits - 1) G.order
  bitLength_eq : bitLength G.modulus = bits
  accepted : of G.modulus = .ok G

theorem found_of_passes {bits : Nat} {G : Group} (hbits : 0 < bits)
    (hshape : PrimeShape (bits - 1) G.order) (horder : isProbablePrime G.order fullRounds = true)
    (hmodulus : isProbablePrime G.modulus fullRounds = true) : Found bits G := by
  refine ⟨hshape, ?_, of_eq_ok_iff.2 ⟨rfl, hmodulus, horder⟩⟩
  rw [← G.two_mul_order, bitLength_double G.order_pos, hshape.bitLength_eq]
  omega

/-- Why no group was found, if primes of the size can be drawn at all. -/
def RefusedFor (bits : Nat) (e : ArithmeticError) : Prop :=
  17 ≤ bits → e = .searchGaveUp ∨ e.IsEntropy

/-- The induction is on the tries that are left. -/
theorem generateAfter_ends {bits : Nat} (hbits : 0 < bits) (tries attempts : Nat) :
    (generateAfter bits tries attempts).Ends (Found bits) (RefusedFor bits) := by
  induction tries generalizing attempts with
  | zero => exact .throw fun _ => .inl rfl
  | succ tries ih =>
    rw [generateAfter, Checked.sub_of_le hbits, Proc.liftM_ok_bind]
    refine ((randomPrime_ends (bits - 1)).mono (fun _ h => h) fun e he henough =>
      .inr (he (by omega))).bind fun q hq => ?_
    obtain ⟨hwidth, hshape, hpasses⟩ := hq
    dsimp only
    split
    · next hmodulus =>
      have hlarge := hshape.large hwidth
      obtain ⟨G, hG, hmod, rfl⟩ := ofTrusted_double hshape.odd (by omega : 3 ≤ q)
      rw [hG]
      refine (Proc.Ends.note _ _).bind fun _ _ => .pure ?_
      exact found_of_passes hbits hshape hpasses (hmod ▸ hmodulus)
    · exact ih (attempts + 1)

/-- **A group that is found has the size that was asked for**, and would be accepted. -/
theorem generate_ends {bits : Nat} (hbits : 0 < bits) (tries : Nat) :
    (generate bits tries).Ends (Found bits) (RefusedFor bits) := generateAfter_ends hbits tries 0

/-- There is no group without digits. -/
theorem pos_of_generate {bits tries k : Nat} {s : Source} {G : Group}
    (h : (generate bits tries k s).outcome = .ok G) : 0 < bits := by
  apply Nat.pos_of_ne_zero
  rintro rfl
  cases tries <;> cases h

theorem found_of_generate {bits tries k : Nat} {s : Source} {G : Group}
    (h : (generate bits tries k s).outcome = .ok G) : Found bits G := by
  have hends := generate_ends (pos_of_generate h) tries k s
  rwa [h] at hends

/-- Over a prime modulus the square of an element generates the group, unless it is one. -/
theorem isGenerator_square_iff {G : Group} (hp : G.modulus.Prime) {root : Nat} (hpos : 0 < root)
    (hlt : root < G.modulus) :
    G.isGenerator (G.pow root 2) = true ↔ root ≠ 1 ∧ root ≠ G.modulus - 1 := by
  have := Fact.mk hp
  have hone : 1 < G.modulus := hp.one_lt
  have hne : (root : ZMod G.modulus) ≠ 0 := by
    rw [Ne, ZMod.natCast_eq_zero_iff]
    exact Nat.not_dvd_of_pos_of_lt hpos hlt
  have hnonzero : 0 < G.pow root 2 := by
    apply Nat.pos_of_ne_zero
    intro hzero
    have hcast := G.natCast_pow root 2
    rw [hzero, Nat.cast_zero] at hcast
    exact pow_ne_zero 2 hne hcast.symm
  have hresidue : G.isResidue (G.pow root 2) = true :=
    (isResidue_iff_mem_squares hp).2 ⟨hnonzero, G.pow_lt root 2, by
      rw [natCast_pow]
      exact IsSquare.sq _⟩
  have hroots : G.pow root 2 = 1 ↔ root = 1 ∨ root = G.modulus - 1 := by
    rw [eq_one_iff_cast hone (G.pow_lt root 2), natCast_pow, pow_two,
      mul_self_eq_one_iff, eq_one_iff_cast hone hlt, eq_pred_iff_cast hlt]
  simp [isGenerator, hresidue, hroots]

end Group

/-! ## Parameters -/

namespace ElGamal.Parameters

/-- Parameters of a group that was found, with the square of a number for a generator. -/
structure Generated (bits : Nat) (electionId : String) (ps : Parameters) : Prop where
  group_found : Group.Found bits ps.group
  electionId_eq : ps.electionId = electionId
  square : ∃ root, 0 < root ∧ root < ps.group.modulus ∧ ps.generator = ps.group.pow root 2

theorem generate_ends {bits : Nat} (hbits : 0 < bits) (electionId : String) :
    (generate bits electionId).Ends (Generated bits electionId) (Group.RefusedFor bits) := by
  refine (Group.generate_ends hbits 100000).bind fun G hG => ?_
  have hmodulus : 1 < G.modulus := Nat.lt_of_lt_of_le (by decide) G.seven_le
  have hdraw := (randomNonzeroBelow_ends hmodulus).mono (fun _ h => h)
    fun e he (_ : 17 ≤ bits) => (.inr he : e = .searchGaveUp ∨ e.IsEntropy)
  refine (hdraw.bind fun root hroot => .pure ?_).search
  intro ps hps
  split at hps
  · cases hps
    exact ⟨hG, rfl, root, hroot.1, hroot.2, rfl⟩
  · cases hps

theorem generated_of_generate {bits k : Nat} {electionId : String} {s : Source} {ps : Parameters}
    (h : (generate bits electionId k s).outcome = .ok ps) : Generated bits electionId ps := by
  obtain ⟨G, hG, -⟩ := Proc.outcome_bind_eq_ok.1 h
  have hends := generate_ends (Group.pos_of_generate hG) electionId k s
  rwa [h] at hends

end ElGamal.Parameters

/-! ## Signing keys -/

namespace SigningKey

open Rsa

variable {t : Threshold} {pk : PublicKey} {f : Polynomial} {tag identifier der : Bytes} {k : Nat}
  {log : List LogRecord}

/-- What is dealt is yielded. -/
theorem deal_yields {cards cards' : Cards}
    (h : deal pk t tag identifier f k cards = ⟨.ok der, cards', log⟩) :
    der = pk.toDer ∧ ∀ j < t.parties,
      cards'.Yields tag identifier j (some (Signers.shareBlob pk f (j + 1))) := by
  obtain ⟨hder, -, -, hyields⟩ := ThresholdKeys.deal_yields
    (fun s => (KeyShare.mk pk s.value).toDer) (fun _ _ => rfl) (fun _ => ⟨_, rfl⟩) h
  exact ⟨hder, hyields⟩

/-- **A signing key that was generated is what was drawn**, and every slot yields its share. -/
theorem generate_yields {modulusBits : Nat} {s s' : Session}
    (h : generate t modulusBits tag identifier k s = ⟨.ok der, s', log⟩) :
    minModulusBits ≤ modulusBits ∧ ∃ pk f, Drawn modulusBits t pk f ∧ der = pk.toDer ∧
      ∀ j < t.parties,
        s'.cards.Yields tag identifier j (some (Signers.shareBlob pk f (j + 1))) := by
  unfold generate at h
  split at h
  · cases h
  · next hbits =>
    obtain ⟨⟨pk, f⟩, hdraw, log₁, hdeal⟩ := generation_eq_ok h
    have hends := draw_endsDrawn modulusBits t k s.source
    rw [hdraw] at hends
    exact ⟨by omega, pk, f, hends, deal_yields hdeal⟩

end SigningKey

/-! ## All of them -/

section All

open Rsa SigningKey

/-- **What is generated has the promised size**, whatever the source. -/
theorem generated_moduli (k : Nat) (s : Source) :
    (∀ bits p, (randomPrime bits k s).outcome = .ok p →
      16 ≤ bits ∧ PrimeShape bits p ∧ isProbablePrime p fullRounds = true) ∧
    (∀ modulusBits n phi, (drawModulus modulusBits k s).outcome = .ok (n, phi) →
      bitLength n = modulusBits ∧ phi.gcd standardExponent = 1 ∧
        (∃ p q, Factors modulusBits p q ∧ n = p * q ∧ phi = (p - 1) * (q - 1) ∧
          (p.Prime → q.Prime → phi = n.totient)) ∧
        ∃ pk d, PublicKey.of n standardExponent = .ok pk ∧ inverse pk.exponent phi = .ok d) ∧
    (∀ modulusBits t, minModulusBits ≤ modulusBits →
      (SigningKey.draw modulusBits t k s).outcome.Ends
        (fun key => Drawn modulusBits t key.1 key.2) ProtocolError.IsEntropy) ∧
    (∀ modulusBits t tag identifier cards der s' log,
      SigningKey.generate t modulusBits tag identifier k ⟨s, cards⟩ = ⟨.ok der, s', log⟩ →
        ∃ pk f, der = pk.toDer ∧ pk.bits = modulusBits ∧ pk.exponent = standardExponent ∧
          f.modulus.gcd standardExponent = 1 ∧
          standardExponent * f.evaluate 0 % f.modulus = 1 ∧
          (∃ p q, Factors modulusBits p q ∧ pk.modulus = p * q ∧ f.modulus = (p - 1) * (q - 1)) ∧
          ∀ j < t.parties,
            s'.cards.Yields tag identifier j (some (Signers.shareBlob pk f (j + 1)))) ∧
    (∀ bits tries G, (Group.generate bits tries k s).outcome = .ok G →
      PrimeShape (bits - 1) G.order ∧ G.modulus = 2 * G.order + 1 ∧ bitLength G.modulus = bits ∧
        Group.of G.modulus = .ok G) ∧
    ∀ bits electionId ps, (ElGamal.Parameters.generate bits electionId k s).outcome = .ok ps →
      bitLength ps.group.modulus = bits ∧ Group.of ps.group.modulus = .ok ps.group ∧
        (∃ root, 0 < root ∧ root < ps.group.modulus ∧ ps.generator = ps.group.pow root 2 ∧
          (ps.group.modulus.Prime → root ≠ 1 ∧ root ≠ ps.group.modulus - 1)) ∧
        ElGamal.Parameters.of ps.group ps.generator electionId = .ok ps := by
  refine ⟨?prime, ?modulus, ?drawn, ?generated, ?group, ?parameters⟩
  case prime =>
    intro bits p h
    have hends := randomPrime_ends bits k s
    rwa [h] at hends
  case modulus =>
    intro modulusBits n phi h
    have hends := drawModulus_ends modulusBits k s
    rw [h] at hends
    obtain ⟨p, q, hfactors, hdrawn⟩ := hends
    cases hdrawn
    obtain ⟨pk, hpk, -, hexponent⟩ := hfactors.exists_publicKey
    obtain ⟨d, hd, -⟩ := hfactors.exists_inverse
    exact ⟨hfactors.bitLength_mul, hfactors.coprime,
      ⟨p, q, hfactors, rfl, rfl, fun hp hq => (hfactors.totient_mul hp hq).symm⟩,
      pk, d, hpk, hexponent ▸ hd⟩
  case drawn =>
    intro modulusBits t hbits
    have henough : 32 ≤ modulusBits := Nat.le_trans (by decide) hbits
    exact (draw_endsDrawn modulusBits t k s).mono (fun _ h => h) fun e he => he.2 henough
  case generated =>
    intro modulusBits t tag identifier cards der s' log h
    obtain ⟨-, pk, f, hdrawn, hder, hyields⟩ := generate_yields h
    obtain ⟨p, q, hfactors, hmodulus, hphi⟩ := hdrawn.factors
    exact ⟨pk, f, hder, hdrawn.bits_eq, hdrawn.exponent, hphi ▸ hfactors.coprime, hdrawn.inverse,
      hdrawn.factors, hyields⟩
  case group =>
    intro bits tries G h
    have hfound := Group.found_of_generate h
    exact ⟨hfound.order_shape, G.two_mul_order.symm, hfound.bitLength_eq, hfound.accepted⟩
  case parameters =>
    intro bits electionId ps h
    obtain ⟨hfound, hid, root, hpos, hlt, hsquare⟩ := ElGamal.Parameters.generated_of_generate h
    have hgenerates : ps.group.isGenerator (ps.group.pow root 2) = true := hsquare ▸ ps.generates
    have hroot : ps.group.modulus.Prime → root ≠ 1 ∧ root ≠ ps.group.modulus - 1 :=
      fun hp => (Group.isGenerator_square_iff hp hpos hlt).1 hgenerates
    exact ⟨hfound.bitLength_eq, hfound.accepted, ⟨root, hpos, hlt, hsquare, hroot⟩,
      hid ▸ ps.of_self⟩

end All

/-- Octets from which primes of 384 and 385 digits are drawn, and then a coefficient. -/
def oddSizeOctets : Source := .ofBytes
  (List.replicate 47 0 ++ [0x11] ++ List.replicate 48 0 ++ [0x13] ++ List.replicate 97 0)

/-- Three tokens in memory that keep nothing. -/
def blankCards : Cards :=
  ⟨[.memory (.empty "a" 0), .memory (.empty "b" 0), .memory (.empty "c" 0)], .immediate 0⟩

/-- The key whose modulus is the product of the two primes. -/
def oddSizeKey : Rsa.PublicKey where
  modulus := (3 * 2 ^ 382 + 17) * (3 * 2 ^ 383 + 19)
  exponent := 65537
  one_lt := by decide
  exponent_odd := by decide
  exponent_lt := by decide +kernel
  modulus_odd := by decide +kernel

/-- A signing key of an odd size, and parameters with `2 * 49193 + 1` for a modulus. -/
theorem generated_moduli_odd_size :
    (∃ s' log pk f, SigningKey.generate ⟨3, 2, by decide, by decide⟩ 769 [1] [2] 2
        ⟨oddSizeOctets, blankCards⟩ = ⟨.ok oddSizeKey.toDer, s', log⟩ ∧
      oddSizeKey.toDer = pk.toDer ∧ pk.bits = 769 ∧
      Rsa.standardExponent * f.evaluate 0 % f.modulus = 1 ∧
      ∀ j < 3, s'.cards.Yields [1] [2] j (some (Signers.shareBlob pk f (j + 1)))) ∧
    ∃ ps, (ElGamal.Parameters.generate 17 "board" 2 (.ofBytes [0xc0, 0x29, 0, 0, 3])).outcome
        = .ok ps ∧ ps.group.modulus = 98387 ∧ ps.generator = 9 ∧
      Group.of 98387 = .ok ps.group ∧
      ElGamal.Parameters.of ps.group 9 "board" = .ok ps := by
  constructor
  · have hrun : (SigningKey.generate ⟨3, 2, by decide, by decide⟩ 769 [1] [2] 2
        ⟨oddSizeOctets, blankCards⟩).outcome = .ok oddSizeKey.toDer := by decide +kernel
    obtain ⟨s', log, hwhole⟩ : ∃ s' log, SigningKey.generate ⟨3, 2, by decide, by decide⟩ 769
        [1] [2] 2 ⟨oddSizeOctets, blankCards⟩ = ⟨.ok oddSizeKey.toDer, s', log⟩ :=
      ⟨_, _, by rw [← hrun]⟩
    obtain ⟨pk, f, hder, hbits, -, -, hinverse, -, hyields⟩ :=
      (generated_moduli 2 oddSizeOctets).2.2.2.1 769 _ [1] [2] blankCards _ s' log hwhole
    exact ⟨s', log, pk, f, hwhole, hder, hbits, hinverse, hyields⟩
  · have hrun : (ElGamal.Parameters.generate 17 "board" 2 (.ofBytes [0xc0, 0x29, 0, 0, 3])).outcome
        = .ok ⟨⟨98387, by decide, by decide⟩, 9, "board", by decide +kernel⟩ := by decide +kernel
    obtain ⟨-, hgroup, -, hparameters⟩ :=
      (generated_moduli 2 (.ofBytes [0xc0, 0x29, 0, 0, 3])).2.2.2.2.2 17 "board" _ hrun
    exact ⟨_, hrun, rfl, rfl, hgroup, hparameters⟩

end ThresholdKeys
