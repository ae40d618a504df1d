import Mathlib.Algebra.BigOperators.Group.Finset.Basic
import Mathlib.Data.Int.CardIntervalMod
import ThresholdKeys.Proofs.Entropy.Delivery
import ThresholdKeys.Proofs.Octets
import ThresholdKeys.Proofs.Rsa.Pss

/-!
# Numbers below a bound are drawn with equal chances

A number below `upper` is drawn from blocks of `byteLength upper` octets, of which as many binary
digits are looked at as `upper` has. What is said of it has two halves, and neither speaks of
probabilities.

* Of the blocks, equally many are read as any one number (`card_blocks_candidate`): those that
  differ in the digits that are cleared. At least half of all blocks give a number below the bound,
  since the bound has a highest digit (`half_of_blocks`).
* A draw goes through the blocks that the source delivers and takes the first one that will do
  (`randomBelow_eq_ok_iff`, `randomNonzeroBelow_eq_ok`); nothing but these blocks is consumed.

So if the source delivers all blocks with equal chances, every number below the bound is drawn with
the same. Whether it does is not said here.
-/

open Finset

namespace ThresholdKeys

/-! ## Blocks -/

/-- All blocks of `len` octets. -/
def blocks (len : Nat) : Finset Bytes := (range (256 ^ len)).image (Bytes.fixed len)

@[simp] theorem mem_blocks {len : Nat} {b : Bytes} : b ∈ blocks len ↔ b.length = len := by
  simp only [blocks, mem_image, mem_range]
  constructor
  · rintro ⟨n, -, rfl⟩
    exact Bytes.length_fixed len n
  · rintro rfl
    exact ⟨Bytes.toNat b, Bytes.toNat_lt b, Bytes.fixed_toNat rfl⟩

/-- What depends on the value of a block only is counted by values. -/
theorem card_filter_blocks (len : Nat) {P : Bytes → Prop} {Q : Nat → Prop} [DecidablePred P]
    [DecidablePred Q] (h : ∀ b, P b ↔ Q (Bytes.toNat b)) :
    #{b ∈ blocks len | P b} = #{n ∈ range (256 ^ len) | Q n} := by
  apply card_nbij' Bytes.toNat (Bytes.fixed len)
  · intro b hb
    simp only [coe_filter, mem_blocks, mem_range, Set.mem_ofPred_eq] at hb ⊢
    exact ⟨hb.1 ▸ Bytes.toNat_lt b, (h b).1 hb.2⟩
  · intro n hn
    simp only [coe_filter, mem_blocks, mem_range, Set.mem_ofPred_eq] at hn ⊢
    rw [h, Bytes.toNat_fixed_of_lt hn.1]
    exact ⟨Bytes.length_fixed len n, hn.2⟩
  · intro b hb
    simp only [coe_filter, mem_blocks, Set.mem_ofPred_eq] at hb
    exact Bytes.fixed_toNat hb.1
  · intro n hn
    simp only [coe_filter, mem_range, Set.mem_ofPred_eq] at hn
    exact Bytes.toNat_fixed_of_lt hn.1

theorem card_blocks (len : Nat) : #(blocks len) = 256 ^ len := by
  have h := card_filter_blocks len (P := fun _ => True) (Q := fun _ => True) fun _ => Iff.rfl
  simpa using h

/-- The digits of a block that are cleared. -/
def excessBits (upper : Nat) : Nat := 8 * byteLength upper - bitLength upper

theorem bitLength_add_excessBits (upper : Nat) :
    bitLength upper + excessBits upper = 8 * byteLength upper := by
  unfold excessBits byteLength
  omega

theorem pow_byteLength (upper : Nat) :
    256 ^ byteLength upper = 2 ^ bitLength upper * 2 ^ excessBits upper := by
  rw [← Nat.pow_add, bitLength_add_excessBits, Nat.pow_mul]

/-- **Equally many blocks are read as any number** of as many binary digits as the bound. -/
theorem card_blocks_candidate {upper v : Nat} (hv : v < 2 ^ bitLength upper) :
    #{b ∈ blocks (byteLength upper) | candidate (bitLength upper) b = v}
      = 2 ^ excessBits upper := by
  have hpos : 0 < 2 ^ bitLength upper := Nat.two_pow_pos _
  have hmod : ∀ b, candidate (bitLength upper) b = v ↔
      Bytes.toNat b ≡ v [MOD 2 ^ bitLength upper] := by
    intro b
    rw [candidate, Nat.ModEq, Nat.mod_eq_of_lt hv]
  rw [card_filter_blocks _ (Q := (· ≡ v [MOD 2 ^ bitLength upper])) hmod,
    ← Nat.count_eq_card_filter_range, Nat.count_modEq_card _ hpos, pow_byteLength,
    Nat.mul_div_cancel_left _ hpos, Nat.mul_mod_right, if_neg (Nat.not_lt_zero _), Nat.add_zero]

/-- Of the blocks that are taken, as many are read as any number below the bound. -/
theorem card_blocks_taken_as {upper v : Nat} (hv : v < upper) :
    #{b ∈ {b ∈ blocks (byteLength upper) | candidate (bitLength upper) b < upper} |
        candidate (bitLength upper) b = v} = 2 ^ excessBits upper := by
  rw [filter_filter, ← card_blocks_candidate (hv.trans (lt_two_pow_bitLength upper))]
  congr 1
  exact filter_congr fun b _ => ⟨fun h => h.2, fun h => ⟨h ▸ hv, h⟩⟩

theorem card_blocks_taken (upper : Nat) :
    #{b ∈ blocks (byteLength upper) | candidate (bitLength upper) b < upper}
      = upper * 2 ^ excessBits upper := by
  set taken := {b ∈ blocks (byteLength upper) | candidate (bitLength upper) b < upper}
  have hmaps : Set.MapsTo (candidate (bitLength upper)) taken (range upper) := by
    intro b hb
    exact mem_coe.2 (mem_range.2 (mem_filter.1 hb).2)
  rw [card_eq_sum_card_fiberwise hmaps,
    sum_congr rfl fun v hv => card_blocks_taken_as (mem_range.1 hv), sum_const, card_range,
    Nat.nsmul_eq_mul]

/-- At least half of all blocks are taken. -/
theorem half_of_blocks {upper : Nat} (h : 0 < upper) :
    #(blocks (byteLength upper))
      ≤ 2 * #{b ∈ blocks (byteLength upper) | candidate (bitLength upper) b < upper} := by
  obtain ⟨k, hk⟩ := exists_bitLength h
  rw [card_blocks, card_blocks_taken, pow_byteLength, ← Nat.mul_assoc]
  refine Nat.mul_le_mul_right _ ?_
  calc 2 ^ bitLength upper = 2 * 2 ^ k := by rw [hk, Nat.pow_succ']
    _ ≤ 2 * upper := Nat.mul_le_mul_left 2 (two_pow_le_of_bitLength hk)

/-- Looking at some digits of a block is clearing the others, which are in the first octet. -/
theorem candidate_eq_masked {bits : Nat} {block : Bytes} (hbits : 0 < bits)
    (hlen : block.length = (bits + 7) / 8) :
    candidate bits block = Bytes.toNat (Pss.keepTop (Pss.topMask bits) block) := by
  cases block with
  | nil =>
    rw [List.length_nil] at hlen
    omega
  | cons x rest =>
    rw [List.length_cons] at hlen
    have hkeep : ∀ k : Fin 8, ∀ y : UInt8,
        (y &&& (0xff : UInt8) >>> UInt8.ofNat k).toNat = y.toNat % 2 ^ (8 - k.val) := by
      intro k y
      have hmask : ∀ k : Fin 8,
          ((0xff : UInt8) >>> UInt8.ofNat k).toNat = 2 ^ (8 - k.val) - 1 := by decide
      rw [UInt8.toNat_and, hmask, Nat.and_two_pow_sub_one_eq_mod]
    have hoctet := hkeep ⟨8 * ((bits + 7) / 8) - bits, by omega⟩ x
    have hrest := Bytes.toNat_lt rest
    have hsplit : 2 ^ bits = 256 ^ rest.length * 2 ^ (8 - (8 * ((bits + 7) / 8) - bits)) := by
      rw [show (256 : Nat) = 2 ^ 8 from rfl, ← Nat.pow_mul, ← Nat.pow_add]
      congr 1
      omega
    rw [candidate, Pss.keepTop, Pss.topMask, Bytes.toNat_cons, Bytes.toNat_cons, hoctet, hsplit,
      Nat.mod_mul, Nat.add_comm (x.toNat * _), Nat.add_mul_mod_self_right,
      Nat.mod_eq_of_lt hrest, Nat.add_mul_div_right _ _ (Nat.pow_pos (by decide)),
      Nat.div_eq_of_lt hrest, Nat.zero_add, Nat.add_comm, Nat.mul_comm]

/-! ## Draws -/

theorem draw_eq_ok_iff {n k : Nat} {s s' : Source} {b : Bytes} {log : List LogRecord} :
    draw n k s = ⟨.ok b, s', log⟩ ↔ s.mustRead k n = ⟨.ok (), b, s'⟩ ∧ log = [] := by
  unfold draw
  cases s.mustRead k n with
  | mk outcome written source => cases outcome <;> simp [eq_comm, and_assoc]

/-- A trial reads one block. -/
theorem drawCandidate_eq_ok_iff {bits k v : Nat} {s s' : Source} {log : List LogRecord} :
    drawCandidate bits k s = ⟨.ok v, s', log⟩ ↔ ∃ block,
      s.mustRead k ((bits + 7) / 8) = ⟨.ok (), block, s'⟩ ∧ candidate bits block = v ∧
        log = [] := by
  have hmap : ∀ {b : Bytes} {s₁ : Source} {log₁ : List LogRecord},
      (draw ((bits + 7) / 8)).mapError ArithmeticError.entropy k s = ⟨.ok b, s₁, log₁⟩ ↔
        s.mustRead k ((bits + 7) / 8) = ⟨.ok (), b, s₁⟩ ∧ log₁ = [] :=
    Iff.trans ⟨Proc.mapError_eq_ok, fun h => Proc.mapError_apply h _⟩ draw_eq_ok_iff
  unfold drawCandidate
  simp only [Proc.bind_eq_ok_iff, hmap]
  constructor
  · rintro ⟨block, s₁, log₁, log₂, ⟨hread, rfl⟩, hlast, rfl⟩
    cases hlast
    exact ⟨block, hread, rfl, rfl⟩
  · rintro ⟨block, hread, rfl, rfl⟩
    exact ⟨block, s', [], [], ⟨hread, rfl⟩, rfl, rfl⟩

/-- Blocks of `(bits + 7) / 8` octets are delivered until the number of one has `P`: `rejected` are
those before it, its number is `v`, and the source is `s'` then. -/
def Takes (k bits : Nat) (P : Nat → Prop) (s : Source) (rejected : List Bytes) (v : Nat)
    (s' : Source) : Prop :=
  ∃ block, s.Delivers k ((bits + 7) / 8) (rejected ++ [block]) s' ∧
    (∀ b ∈ rejected, ¬ P (candidate bits b)) ∧ P (candidate bits block) ∧ candidate bits block = v

section Takes

variable {k bits v : Nat} {P Q : Nat → Prop} {s s' : Source} {rejected : List Bytes}

theorem takes_nil_iff : Takes k bits P s [] v s' ↔
    ∃ block, s.mustRead k ((bits + 7) / 8) = ⟨.ok (), block, s'⟩ ∧ P (candidate bits block) ∧
      candidate bits block = v := by
  simp [Takes, Source.Delivers]

/-- Blocks that are not taken can come before. -/
theorem takes_append_iff {before : List Bytes} : Takes k bits P s (before ++ rejected) v s' ↔
    ∃ s₁, s.Delivers k ((bits + 7) / 8) before s₁ ∧ (∀ b ∈ before, ¬ P (candidate bits b)) ∧
      Takes k bits P s₁ rejected v s' := by
  simp only [Takes, List.append_assoc, Source.delivers_append, List.forall_mem_append]
  constructor
  · rintro ⟨block, ⟨s₁, hbefore, hrest⟩, ⟨hskipped, hrejected⟩, htaken⟩
    exact ⟨s₁, hbefore, hskipped, block, hrest, hrejected, htaken⟩
  · rintro ⟨s₁, hbefore, hskipped, block, hrest, hrejected, htaken⟩
    exact ⟨block, ⟨s₁, hbefore, hrest⟩, ⟨hskipped, hrejected⟩, htaken⟩

theorem takes_cons_iff {b : Bytes} : Takes k bits P s (b :: rejected) v s' ↔
    ∃ s₁, s.mustRead k ((bits + 7) / 8) = ⟨.ok (), b, s₁⟩ ∧ ¬ P (candidate bits b) ∧
      Takes k bits P s₁ rejected v s' := by
  rw [← List.singleton_append, takes_append_iff]
  simp [Source.Delivers]

/-- The block that is taken has been delivered last. -/
theorem Takes.delivers (h : Takes k bits P s rejected v s') : ∃ block,
    s.Delivers k ((bits + 7) / 8) (rejected ++ [block]) s' ∧ P v ∧ candidate bits block = v := by
  obtain ⟨block, hblocks, -, hP, rfl⟩ := h
  exact ⟨block, hblocks, hP, rfl⟩

/-- What is taken may be asked for more. -/
theorem Takes.mono (h : Takes k bits P s rejected v s') (hQ : ∀ c, Q c → P c) (hv : Q v) :
    Takes k bits Q s rejected v s' := by
  obtain ⟨block, hblocks, hrejected, hP, rfl⟩ := h
  exact ⟨block, hblocks, fun b hb hq => hrejected b hb (hQ _ hq), hv, rfl⟩

end Takes

/-! ## Numbers below a bound -/

/-- A trial takes the number of one block, or nothing. -/
theorem trial_eq_ok_iff {bits k : Nat} {P : Nat → Prop} [DecidablePred P] {s s' : Source}
    {found : Option Nat} {log : List LogRecord} :
    (do
      let value ← drawCandidate bits
      return if P value then some value else none : Proc Source ArithmeticError (Option Nat)) k s
        = ⟨.ok found, s', log⟩ ↔
      ∃ block, s.mustRead k ((bits + 7) / 8) = ⟨.ok (), block, s'⟩ ∧
        (if P (candidate bits block) then some (candidate bits block) else none) = found ∧
        log = [] := by
  rw [Proc.bind_eq_ok_iff]
  constructor
  · rintro ⟨value, s₁, log₁, log₂, hdraw, hlast, rfl⟩
    obtain ⟨block, hread, rfl, rfl⟩ := drawCandidate_eq_ok_iff.1 hdraw
    cases hlast
    exact ⟨block, hread, rfl, rfl⟩
  · rintro ⟨block, hread, rfl, rfl⟩
    exact ⟨_, s', [], [], drawCandidate_eq_ok_iff.2 ⟨block, hread, rfl, rfl⟩, rfl, rfl⟩

/-- Trials that are repeated take the first number with `P`. -/
theorem searchFor_trial_eq_ok_iff {bits rounds k v : Nat} {P : Nat → Prop} [DecidablePred P]
    {s s' : Source} {log : List LogRecord} :
    Proc.searchFor (do
      let value ← drawCandidate bits
      return if P value then some value else none) rounds k s = ⟨.ok v, s', log⟩ ↔
      log = [] ∧ ∃ rejected, rejected.length < rounds ∧ Takes k bits P s rejected v s' := by
  induction rounds generalizing s log with
  | zero => simp [Proc.searchFor, Proc.lift]
  | succ rounds ih =>
    simp only [Proc.searchFor_succ_eq_ok_iff, trial_eq_ok_iff, ih]
    constructor
    · rintro (⟨block, hread, hfound, rfl⟩ |
        ⟨s₁, _, _, ⟨block, hread, hnone, rfl⟩, ⟨rfl, rejected, hrounds, htakes⟩, rfl⟩)
      · obtain ⟨hP, ⟨⟩⟩ := Option.ite_none_right_eq_some.1 hfound
        exact ⟨rfl, [], Nat.succ_pos _, takes_nil_iff.2 ⟨block, hread, hP, rfl⟩⟩
      · rw [ite_eq_right_iff] at hnone
        have hP : ¬ P (candidate bits block) := fun hP => Option.some_ne_none _ (hnone hP)
        exact ⟨rfl, block :: rejected, Nat.succ_lt_succ hrounds,
          takes_cons_iff.2 ⟨s₁, hread, hP, htakes⟩⟩
    · rintro ⟨rfl, rejected, hrounds, htakes⟩
      cases rejected with
      | nil =>
        obtain ⟨block, hread, hP, rfl⟩ := takes_nil_iff.1 htakes
        exact .inl ⟨block, hread, if_pos hP, rfl⟩
      | cons block rejected =>
        obtain ⟨s₁, hread, hP, hrest⟩ := takes_cons_iff.1 htakes
        exact .inr ⟨s₁, [], [], ⟨block, hread, if_neg hP, rfl⟩,
          ⟨rfl, rejected, Nat.lt_of_succ_lt_succ hrounds, hrest⟩, rfl⟩

section Bounds

variable {upper k v : Nat} {s s' : Source} {log : List LogRecord}

/-- **The first number below the bound is returned**, after the blocks before it and no others. -/
theorem randomBelow_eq_ok_iff (h : 0 < upper) : randomBelow upper k s = ⟨.ok v, s', log⟩ ↔
    log = [] ∧ ∃ rejected, rejected.length < k ∧
      Takes k (bitLength upper) (· < upper) s rejected v s' := by
  rw [randomBelow, if_neg (by omega)]
  exact searchFor_trial_eq_ok_iff

/-- A round of the search for a number that is not zero either. -/
theorem nonzeroTrial_eq_ok_iff {found : Option Nat} (h : 0 < upper) :
    (do
      let value ← randomBelow upper
      return if value = 0 then none else some value :
        Proc Source ArithmeticError (Option Nat)) k s = ⟨.ok found, s', log⟩ ↔
      log = [] ∧ ∃ value rejected, rejected.length < k ∧
        Takes k (bitLength upper) (· < upper) s rejected value s' ∧
        (if value = 0 then none else some value) = found := by
  rw [Proc.bind_eq_ok_iff]
  constructor
  · rintro ⟨value, s₁, log₁, log₂, hdraw, hlast, rfl⟩
    obtain ⟨rfl, rejected, hrounds, htakes⟩ := (randomBelow_eq_ok_iff h).1 hdraw
    cases hlast
    exact ⟨rfl, value, rejected, hrounds, htakes, rfl⟩
  · rintro ⟨rfl, value, rejected, hrounds, htakes, rfl⟩
    have hdraw := (randomBelow_eq_ok_iff h).2 ⟨rfl, rejected, hrounds, htakes⟩
    exact ⟨value, s', [], [], hdraw, rfl, rfl⟩

/-- Rounds that find a number, before the patience is spent, have gone through zeros. -/
theorem searchFor_nonzero_eq_ok {rounds : Nat} (h : 0 < upper)
    (hrun : Proc.searchFor (do
      let value ← randomBelow upper
      return if value = 0 then none else some value) rounds k s = ⟨.ok v, s', log⟩) :
    log = [] ∧ ∃ rejected,
      Takes k (bitLength upper) (fun c => 0 < c ∧ c < upper) s rejected v s' := by
  induction rounds generalizing s log with
  | zero => simp [Proc.searchFor, Proc.lift] at hrun
  | succ rounds ih =>
    rw [Proc.searchFor_succ_eq_ok_iff] at hrun
    obtain hfound | ⟨s₁, log₁, log₂, hzero, hrest, rfl⟩ := hrun
    · obtain ⟨rfl, value, rejected, -, htakes, hvalue⟩ := (nonzeroTrial_eq_ok_iff h).1 hfound
      obtain ⟨hne, ⟨⟩⟩ := Option.ite_none_left_eq_some.1 hvalue
      obtain ⟨-, -, hlt, -⟩ := htakes.delivers
      exact ⟨rfl, rejected, htakes.mono (fun _ hc => hc.2) ⟨Nat.pos_of_ne_zero hne, hlt⟩⟩
    · obtain ⟨rfl, value, skipped, -, ⟨block, hblocks, hskipped, -, rfl⟩, hvalue⟩ :=
        (nonzeroTrial_eq_ok_iff h).1 hzero
      obtain ⟨rfl, rejected, htakes⟩ := ih hrest
      have hblock : candidate (bitLength upper) block = 0 := by
        by_contra hne
        rw [if_neg hne] at hvalue
        cases hvalue
      refine ⟨rfl, (skipped ++ [block]) ++ rejected, takes_append_iff.2 ⟨s₁, hblocks, ?_, htakes⟩⟩
      rw [List.forall_mem_append, List.forall_mem_singleton, hblock]
      exact ⟨fun b hb hc => hskipped b hb hc.2, fun hc => Nat.lt_irrefl 0 hc.1⟩

/-- As long as patience lasts, the number after the zeros is found. -/
theorem Takes.searchFor_nonzero {rounds : Nat} {rejected : List Bytes} (h : 0 < upper)
    (htakes : Takes k (bitLength upper) (fun c => 0 < c ∧ c < upper) s rejected v s')
    (hrounds : rejected.length < rounds) (hk : rejected.length < k) :
    Proc.searchFor (do
      let value ← randomBelow upper
      return if value = 0 then none else some value) rounds k s = ⟨.ok v, s', []⟩ := by
  induction rounds generalizing s rejected with
  | zero => cases hrounds
  | succ rounds ih =>
    rw [Proc.searchFor_succ_eq_ok_iff]
    cases hzero : rejected.find? (candidate (bitLength upper) · < upper) with
    | none =>
      -- nothing before is below the bound: the first round ends the search
      obtain ⟨block, hblocks, -, ⟨hpos, hlt⟩, rfl⟩ := htakes
      have hrejected : ∀ b ∈ rejected, ¬ candidate (bitLength upper) b < upper := by
        simpa using hzero
      exact .inl ((nonzeroTrial_eq_ok_iff h).2 ⟨rfl, _, rejected, hk,
        ⟨block, hblocks, hrejected, hlt, rfl⟩, if_neg (Nat.ne_of_gt hpos)⟩)
    | some b =>
      -- the first one below the bound is zero: the round ends there
      obtain ⟨hb, skipped, rest, rfl, hskipped⟩ := List.find?_eq_some_iff_append.1 hzero
      rw [List.append_cons] at htakes
      obtain ⟨s₁, hblocks, hnot, hrest⟩ := takes_append_iff.1 htakes
      simp only [decide_eq_true_eq, Bool.not_eq_true', decide_eq_false_iff_not] at hb hskipped
      simp only [List.length_append, List.length_cons] at hrounds hk
      have hvalue : candidate (bitLength upper) b = 0 := by
        have := hnot b (by simp)
        omega
      refine .inr ⟨s₁, [], [], (nonzeroTrial_eq_ok_iff h).2 ⟨rfl, 0, skipped, by omega,
        ⟨b, hblocks, hskipped, hb, hvalue⟩, if_pos rfl⟩, ih hrest (by omega) (by omega), rfl⟩

/-- **The first number below the bound other than zero is returned**, after the blocks before it
and no others. -/
theorem randomNonzeroBelow_eq_ok (h : 1 < upper)
    (hrun : randomNonzeroBelow upper k s = ⟨.ok v, s', log⟩) :
    log = [] ∧ ∃ rejected,
      Takes k (bitLength upper) (fun c => 0 < c ∧ c < upper) s rejected v s' := by
  rw [randomNonzeroBelow, if_neg (by omega)] at hrun
  exact searchFor_nonzero_eq_ok (by omega) hrun

theorem Takes.randomNonzeroBelow_eq {rejected : List Bytes} (h : 1 < upper)
    (htakes : Takes k (bitLength upper) (fun c => 0 < c ∧ c < upper) s rejected v s')
    (hk : rejected.length < k) : randomNonzeroBelow upper k s = ⟨.ok v, s', []⟩ := by
  rw [randomNonzeroBelow, if_neg (by omega)]
  exact htakes.searchFor_nonzero (by omega) hk hk

/-- **Numbers below a bound are drawn with equal chances.** The number of a block is what is left of
it when the excess digits are cleared; every number of as many digits as the bound has is that of
equally many blocks, so every number below the bound is that of equally many blocks that are taken,
and at least half of all blocks are taken. What a source delivers are such blocks, and the first one
that will do gives the number that is returned. -/
theorem randomBelow_uniform {upper : Nat} (h : 0 < upper) :
    (∀ b ∈ blocks (byteLength upper),
      candidate (bitLength upper) b
        = Bytes.toNat (Pss.keepTop (0xff >>> UInt8.ofNat (excessBits upper)) b)) ∧
    #(blocks (byteLength upper)) = 256 ^ byteLength upper ∧
    (∀ v < 2 ^ bitLength upper,
      #{b ∈ blocks (byteLength upper) | candidate (bitLength upper) b = v}
        = 2 ^ excessBits upper) ∧
    (∀ v < upper,
      #{b ∈ {b ∈ blocks (byteLength upper) | candidate (bitLength upper) b < upper} |
          candidate (bitLength upper) b = v} = 2 ^ excessBits upper) ∧
    #(blocks (byteLength upper))
      ≤ 2 * #{b ∈ blocks (byteLength upper) | candidate (bitLength upper) b < upper} ∧
    ∀ (k : Nat) (s s' : Source) (v : Nat) (log : List LogRecord),
      (∀ delivered, s.Delivers k (byteLength upper) delivered s' →
        ∀ b ∈ delivered, b ∈ blocks (byteLength upper)) ∧
      (randomBelow upper k s = ⟨.ok v, s', log⟩ ↔ log = [] ∧ ∃ rejected, rejected.length < k ∧
        Takes k (bitLength upper) (· < upper) s rejected v s') ∧
      (1 < upper →
        (randomNonzeroBelow upper k s = ⟨.ok v, s', log⟩ → log = [] ∧ ∃ rejected,
          Takes k (bitLength upper) (fun c => 0 < c ∧ c < upper) s rejected v s') ∧
        ∀ rejected, rejected.length < k →
          Takes k (bitLength upper) (fun c => 0 < c ∧ c < upper) s rejected v s' →
            randomNonzeroBelow upper k s = ⟨.ok v, s', []⟩) := by
  refine ⟨?masked, card_blocks _, fun v hv => card_blocks_candidate hv,
    fun v hv => card_blocks_taken_as hv, half_of_blocks h, ?draws⟩
  case masked =>
    intro b hb
    exact candidate_eq_masked (bitLength_pos h) (mem_blocks.1 hb)
  case draws =>
    intro k s s' v log
    refine ⟨?_, randomBelow_eq_ok_iff h, fun h1 => ⟨randomNonzeroBelow_eq_ok h1, ?_⟩⟩
    · intro delivered hdelivers b hb
      exact mem_blocks.2 (hdelivers.length_eq b hb)
    · intro rejected hk htakes
      exact htakes.randomNonzeroBelow_eq h1 hk

end Bounds

/-- Below five, each number is that of 32 octets. From `ff 08 0c`, read as seven, zero and four,
zero is drawn, and four if zero will not do. -/
theorem randomBelow_uniform_five :
    0 < 5 ∧
    (∀ v < 5, #{b ∈ {b ∈ blocks 1 | candidate 3 b < 5} | candidate 3 b = v} = 32) ∧
    (∃ rejected, Takes 10 3 (· < 5) (.ofBytes [0xff, 0x08, 0x0c]) rejected 0 (.ofBytes [0x0c])) ∧
    ∃ rejected, Takes 10 3 (fun c => 0 < c ∧ c < 5) (.ofBytes [0xff, 0x08, 0x0c]) rejected 4
      (.ofBytes []) := by
  obtain ⟨-, -, -, htaken, -, hdraws⟩ := randomBelow_uniform (show 0 < 5 by decide)
  have hzero : randomBelow 5 10 (.ofBytes [0xff, 0x08, 0x0c]) = ⟨.ok 0, .ofBytes [0x0c], []⟩ := rfl
  have hfour : randomNonzeroBelow 5 10 (.ofBytes [0xff, 0x08, 0x0c]) = ⟨.ok 4, .ofBytes [], []⟩ :=
    rfl
  obtain ⟨-, rejected, -, htakes⟩ := (hdraws ..).2.1.1 hzero
  exact ⟨by decide, htaken, ⟨rejected, htakes⟩, (((hdraws ..).2.2 (by decide)).1 hfour).2⟩

end ThresholdKeys
