import ThresholdKeys.Entropy.Drain
import ThresholdKeys.Proofs.Entropy.Streams

/-!
# Draining does not depend on how a source hands out its octets

Draining ends at a read that gives nothing, and a finite source gives nothing only at its end. So a
source that was drained has handed out all that it had in reserve (`drain_eq_ok`), and one that is
never refused is drained in the end (`drain_finite`). Seeding a generator and adding a source to a
pool both rest on this.
-/

namespace ThresholdKeys

variable {R : Source → Reserve → Prop} {s : Source} {octets : Bytes}

/-- What was drained to the end is all that the source had in reserve. -/
theorem drain_eq_ok (hR : HandsOut Source.read R) (h : R s (.finite octets)) {chunk : Nat}
    (hchunk : 0 < chunk) {rounds : Nat} {collected b : Bytes} {s' : Source}
    (hdrain : drain chunk rounds s collected = ⟨.ok (), b, s'⟩) :
    b = collected ++ octets ∧ R s' (.finite []) := by
  induction rounds generalizing s octets collected with
  | zero => cases hdrain
  | succ rounds ih =>
    rw [drain] at hdrain
    split at hdrain
    · next hread =>
      cases hdrain
      obtain rfl := (hR.drained h hread).resolve_left (by omega)
      exact ⟨(List.append_nil _).symm, by simpa using (hR.next h hread).2.2.2⟩
    · next piece s₁ _ hread =>
      obtain ⟨-, -, htake, hnext⟩ := hR.next h hread
      obtain ⟨rfl, hs'⟩ := ih hnext hdrain
      have hpieces : piece ++ octets.drop piece.length = octets :=
        calc piece ++ octets.drop piece.length
            = (Reserve.finite octets).take piece.length ++ octets.drop piece.length := by rw [htake]
          _ = octets := List.take_append_drop _ _
      rw [List.append_assoc, hpieces]
      exact ⟨rfl, hs'⟩
    all_goals cases hdrain

/-- A finite source that is never refused is drained in as many rounds as it has octets, and one. -/
theorem drain_finite (hR : Flows Source.read R) (h : R s (.finite octets)) {chunk : Nat}
    (hchunk : 0 < chunk) {rounds : Nat} (hrounds : octets.length < rounds) (collected : Bytes) :
    ∃ s', drain chunk rounds s collected = ⟨.ok (), collected ++ octets, s'⟩ ∧
      R s' (.finite []) := by
  have hends : ∃ b s', drain chunk rounds s collected = ⟨.ok (), b, s'⟩ := by
    induction rounds generalizing s octets collected with
    | zero => exact absurd hrounds (Nat.not_lt_zero _)
    | succ rounds ih =>
      obtain ⟨piece, s₁, hread⟩ := hR.read_ok h chunk
      obtain ⟨-, hhas, -, hnext⟩ := hR.next h hread
      have hle : piece.length ≤ octets.length := hhas
      rw [drain, hread]
      cases piece with
      | nil => exact ⟨_, _, rfl⟩
      | cons x piece =>
        refine ih hnext ?_ _
        rw [List.length_drop]
        rw [List.length_cons] at hle ⊢
        omega
  obtain ⟨b, s', hdrain⟩ := hends
  obtain ⟨rfl, hs'⟩ := drain_eq_ok hR.toHandsOut h hchunk hdrain
  exact ⟨s', hdrain, hs'⟩

/-- A drained source stays drained. -/
theorem Flows.read_drained (hR : Flows Source.read R) (h : R s (.finite [])) (n : Nat) :
    ∃ s', s.read n = (.ok [], s') ∧ R s' (.finite []) := by
  obtain ⟨piece, s', hread⟩ := hR.read_ok h n
  obtain ⟨-, hhas, -, hs'⟩ := hR.next h hread
  obtain rfl := List.length_eq_zero_iff.1 (Nat.le_zero.1 hhas)
  exact ⟨s', hread, hs'⟩

end ThresholdKeys
