import Mathlib.Logic.Function.Iterate
import ThresholdKeys.Entropy.Interface

/-!
# Blocking reads do not depend on how a source hands out its octets

A source has octets in reserve, finitely many of them or endlessly many. A source of which `R` says
what it has in reserve hands them out in order (`HandsOut`): a read gives the next octets, as many
as it likes up to what it was asked for. A finite source gives none only when it is drained. An
endless one may give none for some rounds, but not for ever (`Flows`).

Whatever the pieces are, a blocking read gives exactly the next octets of the reserve; only where
there are fewer it gives them all and says that the source is exhausted
(`PlainSource.mustRead_fills`). Hence two blocking reads are the same as one for both. Operator
entropy is such a source, and a reference to such a source is one.
-/

namespace ThresholdKeys

/-! ## Reserves -/

/-- What a source has yet to hand out. -/
inductive Reserve where
  | finite (octets : Bytes)
  | endless (octet : Nat → UInt8)

namespace Reserve

def isFinite : Reserve → Bool
  | finite _ => true
  | endless _ => false

/-- At least `n` octets remain. -/
def Has : Reserve → Nat → Prop
  | finite octets, n => n ≤ octets.length
  | endless _, _ => True

instance : (t : Reserve) → (n : Nat) → Decidable (t.Has n)
  | finite octets, n => inferInstanceAs (Decidable (n ≤ octets.length))
  | endless _, _ => inferInstanceAs (Decidable True)

/-- The next `n` octets, or all of them if there are fewer. -/
def take : Reserve → Nat → Bytes
  | finite octets, n => octets.take n
  | endless octet, n => (List.range n).map octet

/-- What remains after the next `n` octets. -/
def drop : Reserve → Nat → Reserve
  | finite octets, n => finite (octets.drop n)
  | endless octet, n => endless fun i => octet (n + i)

variable (t : Reserve) (m n : Nat)

@[simp] theorem take_zero : t.take 0 = [] := by cases t <;> rfl

@[simp] theorem drop_zero : t.drop 0 = t := by cases t <;> simp [drop]

@[simp] theorem isFinite_drop : (t.drop n).isFinite = t.isFinite := by cases t <;> rfl

theorem take_add : t.take (m + n) = t.take m ++ (t.drop m).take n := by
  cases t with
  | finite octets => exact List.take_add
  | endless octet => simp [take, drop, List.range_add]

theorem drop_add : t.drop (m + n) = (t.drop m).drop n := by
  cases t with
  | finite octets => simp [drop, List.drop_drop]
  | endless octet => simp [drop, Nat.add_assoc]

theorem has_add : t.Has (m + n) ↔ t.Has m ∧ (t.drop m).Has n := by
  cases t with
  | finite octets =>
    simp only [Has, drop, List.length_drop]
    omega
  | endless octet => simp [Has, drop]

theorem length_take {t : Reserve} {n : Nat} (h : t.Has n) : (t.take n).length = n := by
  cases t with
  | finite octets => exact List.length_take_of_le h
  | endless octet => simp [take]

/-- The next `n` octets, counted, are the next octets. -/
theorem take_length_take : t.take (t.take n).length = t.take n ∧
    t.drop (t.take n).length = t.drop n := by
  by_cases h : t.Has n
  · rw [length_take h]
    exact ⟨rfl, rfl⟩
  · cases t with
    | finite octets =>
      have hall : octets.length ≤ n := Nat.le_of_lt (Nat.not_le.1 h)
      simp [take, drop, List.take_of_length_le hall, List.drop_of_length_le hall]
    | endless octet => exact absurd trivial h

theorem has_length_take : t.Has (t.take n).length := by
  cases t with
  | finite octets => exact List.length_take_le' n octets
  | endless octet => exact trivial

theorem length_take_le : (t.take n).length ≤ n := by
  cases t with
  | finite octets => exact List.length_take_le n octets
  | endless octet => simp [take]

end Reserve

/-! ## Sources of which it is known what they have in reserve -/

section Reads

variable {σ : Type}

/-- What is read are the next octets of the reserve. A finite source that is asked for octets gives
none only when it is drained. -/
structure HandsOut (read : σ → Nat → Outcome EntropyError Bytes × σ) (R : σ → Reserve → Prop) :
    Prop where
  next : ∀ {s t n piece s'}, R s t → read s n = (.ok piece, s') →
    piece.length ≤ n ∧ t.Has piece.length ∧ t.take piece.length = piece ∧
      R s' (t.drop piece.length)
  drained : ∀ {s octets n s'}, R s (.finite octets) → read s n = (.ok [], s') → n = 0 ∨ octets = []

/-- Besides, no read is refused, and an endless source that has no octets at the moment has some
after finitely many further reads. -/
structure Flows (read : σ → Nat → Outcome EntropyError Bytes × σ) (R : σ → Reserve → Prop) : Prop
    extends HandsOut read R where
  read_ok : ∀ {s t}, R s t → ∀ n, ∃ piece s', read s n = (.ok piece, s')
  wakes : ∀ {s octet n}, R s (.endless octet) → 0 < n →
    ∃ j, (read ((fun s => (read s n).2)^[j] s) n).1 ≠ .ok []

/-- A source of this kind that implements only the read of what there is, so that it is read by the
loop that fills up. -/
structure PlainSource (S : SourceInterface σ) (R : σ → Reserve → Prop) : Prop
    extends Flows S.read R where
  isFinite_eq : ∀ {s t}, R s t → S.isFinite s = t.isFinite
  mustRead_eq : ∀ {s t}, R s t → ∀ k n,
    S.mustRead k s n = fill S.read (S.isFinite s) (n + k) s n []

end Reads

/-! ## The loop that fills up -/

section Fill

variable {σ : Type} {read : σ → Nat → Outcome EntropyError Bytes × σ} {R : σ → Reserve → Prop}

/-- What the loop gives where `need` octets of the reserve `t` are to be put behind those that have
been written. -/
structure Fills (R : σ → Reserve → Prop) (t : Reserve) (need : Nat) (written : Bytes)
    (d : Delivery σ) : Prop where
  outcome_eq : d.outcome = if t.Has need then .ok () else .error .exhausted
  written_eq : d.written = written ++ t.take need
  rest : R d.source (t.drop need)

/-- A piece that was read, and the rest of what was needed. -/
theorem Fills.of_piece {t : Reserve} {n : Nat} {written piece : Bytes} {d : Delivery σ}
    (hhas : t.Has piece.length) (htake : t.take piece.length = piece)
    (h : Fills R (t.drop piece.length) n (written ++ piece) d) :
    Fills R t (piece.length + n) written d := by
  constructor
  · rw [h.outcome_eq]
    exact if_congr ((t.has_add _ n).trans (and_iff_right hhas)).symm rfl rfl
  · rw [h.written_eq, t.take_add, htake, List.append_assoc]
  · rw [t.drop_add]
    exact h.rest

/-- A drained source has nothing for whoever needs something. -/
theorem Fills.of_drained {s : σ} {need : Nat} {written : Bytes} (h : R s (.finite []))
    (hneed : 0 < need) : Fills R (.finite []) need written ⟨.error .exhausted, written, s⟩ := by
  constructor
  · exact (if_neg (Nat.not_le.2 hneed)).symm
  · simp [Reserve.take]
  · simpa [Reserve.drop] using h

/-- The loop fills up in as many rounds as there are octets needed, and a number of rounds in which
the source has none; more rounds change nothing. A finite source has none only at its end. -/
def FillsUp (read : σ → Nat → Outcome EntropyError Bytes × σ) (R : σ → Reserve → Prop)
    (t : Reserve) (s : σ) (need : Nat) (written : Bytes) : Prop :=
  ∃ K d, (t.isFinite = true → K = 0) ∧ Fills R t need written d ∧
    ∀ rounds, need + K ≤ rounds → fill read t.isFinite rounds s need written = d

theorem FillsUp.zero {t : Reserve} {s : σ} (h : R s t) (written : Bytes) :
    FillsUp read R t s 0 written := by
  refine ⟨0, ⟨.ok (), written, s⟩, fun _ => rfl, ?_, fun rounds _ => by rw [fill]⟩
  exact ⟨(if_pos (by cases t <;> simp [Reserve.Has])).symm, by simp, by simpa using h⟩

/-- After a round in which something was read, less is needed. -/
theorem FillsUp.of_piece (hR : HandsOut read R) {t : Reserve} {s s' : σ} {need : Nat}
    {written piece : Bytes} (h : R s t) (hread : read s (need + 1) = (.ok piece, s'))
    (hne : piece ≠ [])
    (hrest : FillsUp read R (t.drop piece.length) s' (need + 1 - piece.length) (written ++ piece)) :
    FillsUp read R t s (need + 1) written := by
  obtain ⟨hle, hhas, htake, -⟩ := hR.next h hread
  have hpos := List.length_pos_iff.2 hne
  obtain ⟨K, d, hK, hfills, hfill⟩ := hrest
  rw [t.isFinite_drop] at hK hfill
  have hwhole := hfills.of_piece hhas htake
  rw [Nat.add_sub_cancel' hle] at hwhole
  refine ⟨K, d, hK, hwhole, fun rounds hrounds => ?_⟩
  obtain ⟨rounds, rfl⟩ := Nat.exists_eq_add_one.2 (by omega : 0 < rounds)
  rw [← hfill rounds (by omega)]
  cases piece with
  | nil => exact absurd rfl hne
  | cons x piece => rw [fill, hread]

/-- After a round in which an endless source had nothing, as much is needed as before. -/
theorem FillsUp.of_nothing {octet : Nat → UInt8} {s s' : σ} {need : Nat} {written : Bytes}
    (hread : read s (need + 1) = (.ok [], s'))
    (hrest : FillsUp read R (.endless octet) s' (need + 1) written) :
    FillsUp read R (.endless octet) s (need + 1) written := by
  obtain ⟨K, d, -, hfills, hfill⟩ := hrest
  refine ⟨K + 1, d, fun hfinite => by contradiction, hfills, fun rounds hrounds => ?_⟩
  obtain ⟨rounds, rfl⟩ := Nat.exists_eq_add_one.2 (by omega : 0 < rounds)
  rw [← hfill rounds (by omega), fill, hread]
  rfl

/-- In a round in which a drained source is asked, the loop ends. -/
theorem FillsUp.of_drained {s s' : σ} {need : Nat} {written : Bytes}
    (hread : read s (need + 1) = (.ok [], s')) (h : R s' (.finite [])) :
    FillsUp read R (.finite []) s (need + 1) written := by
  refine ⟨0, _, fun _ => rfl, .of_drained h (Nat.succ_pos need), fun rounds hrounds => ?_⟩
  obtain ⟨rounds, rfl⟩ := Nat.exists_eq_add_one.2 (by omega : 0 < rounds)
  rw [fill, hread]
  rfl

/-- **The loop fills up**, whatever pieces the source hands out. -/
theorem Flows.fillsUp (hR : Flows read R) (need : Nat) {s : σ} {t : Reserve} (h : R s t)
    (written : Bytes) : FillsUp read R t s need written := by
  induction need using Nat.strongRecOn generalizing s t written with
  | _ need ih =>
    match need with
    | 0 => exact .zero h written
    | need + 1 =>
      have hpiece : ∀ {s piece s'}, R s t → read s (need + 1) = (.ok piece, s') → piece ≠ [] →
          FillsUp read R t s (need + 1) written := by
        intro s piece s' hs hread hne
        have hpos := List.length_pos_iff.2 hne
        exact .of_piece hR.toHandsOut hs hread hne
          (ih _ (by omega) (hR.next hs hread).2.2.2 (written ++ piece))
      cases t with
      | finite octets =>
        obtain ⟨piece, s', hread⟩ := hR.read_ok h (need + 1)
        by_cases hne : piece = []
        · subst hne
          obtain rfl := (hR.drained h hread).resolve_left (by omega)
          exact .of_drained hread (by simpa using (hR.next h hread).2.2.2)
        · exact hpiece h hread hne
      | endless octet =>
        -- the rounds in which there is nothing are counted down
        obtain ⟨j, hj⟩ := hR.wakes h (Nat.succ_pos need)
        induction j generalizing s with
        | zero =>
          obtain ⟨piece, s', hread⟩ := hR.read_ok h (need + 1)
          refine hpiece h hread fun hnil => hj ?_
          rw [Function.iterate_zero, id, hread, hnil]
        | succ j ihj =>
          obtain ⟨piece, s', hread⟩ := hR.read_ok h (need + 1)
          by_cases hne : piece = []
          · subst hne
            rw [Function.iterate_succ_apply, hread] at hj
            exact .of_nothing hread (ihj (by simpa using (hR.next h hread).2.2.2) hj)
          · exact hpiece h hread hne

end Fill

/-! ## Blocking reads -/

section Blocking

variable {σ : Type} {S : SourceInterface σ} {R : σ → Reserve → Prop} {s : σ} {t : Reserve}

/-- A blocking read fills up a buffer from its beginning. -/
theorem PlainSource.mustRead_fills (hS : PlainSource S R) (h : R s t) (n : Nat) :
    ∃ K d, (t.isFinite = true → K = 0) ∧ Fills R t n [] d ∧
      ∀ k, K ≤ k → S.mustRead k s n = d := by
  obtain ⟨K, d, hK, hd, hfill⟩ := hS.toFlows.fillsUp n h []
  refine ⟨K, d, hK, hd, fun k hk => ?_⟩
  rw [hS.mustRead_eq h, hS.isFinite_eq h]
  exact hfill (n + k) (by omega)

/-- What a blocking read does, where it does not matter how long it waits. -/
theorem Fills.ok_iff {n : Nat} {d : Delivery σ} (h : Fills R t n [] d) :
    d.outcome = .ok () ↔ t.Has n := by
  rw [h.outcome_eq]
  split <;> simp [*]

/-- Two blocking reads give the octets of one, and the second one ends as that one. -/
theorem Fills.append {m n : Nat} {first second both : Delivery σ} (h₁ : Fills R t n [] first)
    (h₂ : Fills R (t.drop n) m [] second) (h : Fills R t (n + m) [] both) :
    first.written ++ second.written = both.written ∧
      (first.outcome = .ok () → second.outcome = both.outcome) := by
  constructor
  · rw [h₁.written_eq, h₂.written_eq, h.written_eq, t.take_add]
    rfl
  · intro hok
    rw [h₂.outcome_eq, h.outcome_eq]
    exact if_congr ((t.has_add n m).trans (and_iff_right (h₁.ok_iff.1 hok))).symm rfl rfl

/-- Two blocking reads are the same as one for both. -/
theorem PlainSource.mustRead_mustRead (hS : PlainSource S R) (h : R s t) (n m : Nat) :
    ∃ K, (t.isFinite = true → K = 0) ∧ ∀ k, K ≤ k →
      (S.mustRead k s n).written ++ (S.mustRead k (S.mustRead k s n).source m).written
        = (S.mustRead k s (n + m)).written ∧
      ((S.mustRead k s n).outcome = .ok () →
        (S.mustRead k (S.mustRead k s n).source m).outcome = (S.mustRead k s (n + m)).outcome) := by
  obtain ⟨K₁, first, hK₁, h₁, hfirst⟩ := hS.mustRead_fills h n
  obtain ⟨K₂, second, hK₂, h₂, hsecond⟩ := hS.mustRead_fills h₁.rest m
  obtain ⟨K, both, hK, hboth, hmustRead⟩ := hS.mustRead_fills h (n + m)
  rw [t.isFinite_drop] at hK₂
  refine ⟨K₁ + K₂ + K, fun hfinite => by rw [hK₁ hfinite, hK₂ hfinite, hK hfinite], ?_⟩
  intro k hk
  rw [hfirst k (by omega), hsecond k (by omega), hmustRead k (by omega)]
  exact h₁.append h₂ hboth

end Blocking

/-! ## References -/

section References

variable {σ τ : Type} {S : SourceInterface σ} {R : σ → Reserve → Prop} (p : Place τ σ)

theorem read_through (S : SourceInterface σ) (memory : τ) (n : Nat) :
    (S.through p).read memory n =
      ((S.read (p.view memory) n).1, p.update (S.read (p.view memory) n).2 memory) := rfl

/-- A request through a reference is answered as the source in the place answers it, and changes
that source and nothing else. -/
theorem serve_through (S : SourceInterface σ) (k : Nat) (memory : τ) (request : Request) :
    (S.through p).serve k memory request
      = (S.serve k (p.view memory) request).map (p.update · memory) := by
  cases request with
  | mustRead n => rfl
  | read n =>
    rw [SourceInterface.serve, SourceInterface.serve, read_through]
    generalize S.read (p.view memory) n = result
    obtain ⟨outcome, s⟩ := result
    cases outcome <;> rfl

/-- The loop that fills up through a reference is that loop on the source in the place. -/
theorem fill_through (S : SourceInterface σ) (finite : Bool) (rounds : Nat) (memory : τ)
    (need : Nat) (written : Bytes) :
    fill (S.through p).read finite rounds memory need written
      = (fill S.read finite rounds (p.view memory) need written).map (p.update · memory) := by
  induction rounds generalizing memory need written with
  | zero => cases need <;> simp [fill, Delivery.map, p.update_view]
  | succ rounds ih =>
    cases need with
    | zero => simp [fill, Delivery.map, p.update_view]
    | succ need =>
      rw [fill, fill, read_through]
      generalize S.read (p.view memory) (need + 1) = result
      obtain ⟨outcome, s⟩ := result
      -- what comes after a round starts from the place where the source was put back
      have hafter : ∀ need written, fill (S.through p).read finite rounds (p.update s memory)
          need written = (fill S.read finite rounds s need written).map (p.update · memory) := by
        intro need written
        rw [ih, p.view_update]
        simp [Delivery.map, p.update_update]
      cases outcome with
      | ok piece =>
        cases piece with
        | nil =>
          cases finite with
          | true => rfl
          | false => exact hafter _ _
        | cons x piece => exact hafter _ _
      | error e => rfl
      | fault => rfl
      | stalled => rfl

theorem HandsOut.through (hS : HandsOut S.read R) :
    HandsOut (S.through p).read fun memory => R (p.view memory) where
  next {memory t n piece memory'} h hread := by
    rw [read_through, Prod.mk.injEq] at hread
    obtain ⟨hpiece, rfl⟩ := hread
    rw [p.view_update]
    exact hS.next h (Prod.ext hpiece rfl)
  drained h hread := by
    rw [read_through, Prod.mk.injEq] at hread
    exact hS.drained h (Prod.ext hread.1 rfl)

theorem Flows.through (hS : Flows S.read R) :
    Flows (S.through p).read fun memory => R (p.view memory) where
  toHandsOut := hS.toHandsOut.through p
  read_ok h n := by
    obtain ⟨piece, s', hread⟩ := hS.read_ok h n
    exact ⟨piece, _, by rw [read_through, hread]⟩
  wakes {memory octet n} h hn := by
    obtain ⟨j, hj⟩ := hS.wakes h hn
    have hsteps : Function.Semiconj p.view (fun memory => ((S.through p).read memory n).2)
        fun s => (S.read s n).2 := fun memory => p.view_update _ _
    refine ⟨j, ?_⟩
    rwa [read_through, hsteps.iterate_right j memory]

/-- **A reference to such a source is such a source**: the loop over the reads through the reference
is what a blocking read through it does. -/
theorem PlainSource.through (hS : PlainSource S R) :
    PlainSource (S.through p) fun memory => R (p.view memory) where
  toFlows := hS.toFlows.through p
  isFinite_eq h := hS.isFinite_eq h
  mustRead_eq {memory t} h k n := by
    rw [fill_through]
    exact congrArg (Delivery.map (p.update · memory)) (hS.mustRead_eq h k n)

end References

/-! ## Operator entropy -/

/-- Operator entropy that was not closed has the octets in reserve that were put in. -/
def Source.HoldsOctets (s : Source) (t : Reserve) : Prop :=
  ∃ octets, s = .ofBytes octets ∧ t = .finite octets

theorem Source.read_ofBytes (octets : Bytes) (n : Nat) :
    (ofBytes octets).read n = (.ok (octets.take n), ofBytes (octets.drop n)) := by
  rw [ofBytes, read]
  rfl

theorem plainSource_ofBytes : PlainSource Source.interface Source.HoldsOctets where
  next {s t n piece s'} h hread := by
    obtain ⟨octets, rfl, rfl⟩ := h
    change (Source.ofBytes octets).read n = _ at hread
    rw [Source.read_ofBytes] at hread
    cases hread
    obtain ⟨htake, hdrop⟩ := (Reserve.finite octets).take_length_take n
    exact ⟨(Reserve.finite octets).length_take_le n, (Reserve.finite octets).has_length_take n,
      htake, _, rfl, hdrop⟩
  drained {s octets n s'} h hread := by
    obtain ⟨octets', rfl, ht⟩ := h
    cases ht
    change (Source.ofBytes octets).read n = _ at hread
    rw [Source.read_ofBytes, Prod.mk.injEq, Outcome.ok.injEq] at hread
    exact List.take_eq_nil_iff.1 hread.1
  read_ok h n := by
    obtain ⟨octets, rfl, rfl⟩ := h
    exact ⟨_, _, Source.read_ofBytes octets n⟩
  wakes h _ := by
    obtain ⟨octets, -, ht⟩ := h
    cases ht
  isFinite_eq h := by
    obtain ⟨octets, rfl, rfl⟩ := h
    rfl
  mustRead_eq h k n := by
    obtain ⟨octets, rfl, rfl⟩ := h
    rfl

/-! ## The whole -/

/-- **Blocking reads do not depend on the pieces and are exact about exhaustion.** From some
patience on, and with any if the source is finite, a blocking read of `n` octets

* succeeds exactly if as many remain, has then filled the buffer with the next ones and taken
  exactly these from the source;
* is exhausted if fewer remain, has then put all of them in front of the buffer, left the rest of it
  as it was, and drained the source;
* gives, together with one for `m` octets after it, what one for `n + m` gives.

Operator entropy is such a source. A reference to such a source is one too, and whatever is asked
through it is asked of the source and changes nothing else. -/
theorem PlainSource.blocking_reads_exact {σ : Type} {S : SourceInterface σ}
    {R : σ → Reserve → Prop} (hS : PlainSource S R) {s : σ} {t : Reserve} (h : R s t) (n m : Nat) :
    (∃ K d, (t.isFinite = true → K = 0) ∧ (∀ k, K ≤ k → S.mustRead k s n = d) ∧
      (d.outcome = .ok () ↔ t.Has n) ∧
      (t.Has n → (∀ before : Bytes, before.length = n → d.buffer before = t.take n) ∧
        R d.source (t.drop n)) ∧
      ∀ octets, t = .finite octets → octets.length < n →
        d.outcome = .error .exhausted ∧
          (∀ before, d.buffer before = octets ++ before.drop octets.length) ∧
          R d.source (.finite [])) ∧
    (∃ K, (t.isFinite = true → K = 0) ∧ ∀ k, K ≤ k →
      (S.mustRead k s n).written ++ (S.mustRead k (S.mustRead k s n).source m).written
        = (S.mustRead k s (n + m)).written ∧
      ((S.mustRead k s n).outcome = .ok () →
        (S.mustRead k (S.mustRead k s n).source m).outcome = (S.mustRead k s (n + m)).outcome)) ∧
    (PlainSource Source.interface Source.HoldsOctets ∧
      ∀ octets, Source.HoldsOctets (.ofBytes octets) (.finite octets)) ∧
    ∀ (τ : Type) (p : Place τ σ),
      PlainSource (S.through p) (fun memory => R (p.view memory)) ∧
      ∀ k memory request, (S.through p).serve k memory request
        = (S.serve k (p.view memory) request).map (p.update · memory) := by
  obtain ⟨K, d, hK, hd, hmustRead⟩ := hS.mustRead_fills h n
  refine ⟨⟨K, d, hK, hmustRead, hd.ok_iff, fun hhas => ?_, ?_⟩, hS.mustRead_mustRead h n m,
    ⟨plainSource_ofBytes, fun octets => ⟨octets, rfl, rfl⟩⟩,
    fun τ p => ⟨hS.through p, serve_through p S⟩⟩
  · refine ⟨fun before hbefore => ?_, hd.rest⟩
    have hlength := Reserve.length_take hhas
    rw [Delivery.buffer, hd.written_eq, List.nil_append, hlength, ← hbefore, List.drop_length,
      List.append_nil]
  · rintro octets rfl hfewer
    have hwritten : d.written = octets := by
      rw [hd.written_eq]
      exact List.take_of_length_le (Nat.le_of_lt hfewer)
    have hdrained : (Reserve.finite octets).drop n = .finite [] :=
      congrArg Reserve.finite (List.drop_of_length_le (Nat.le_of_lt hfewer))
    refine ⟨?_, fun before => ?_, hdrained ▸ hd.rest⟩
    · rw [hd.outcome_eq]
      exact if_neg (Nat.not_le.2 hfewer)
    · rw [Delivery.buffer, hwritten]

/-- What the device below has at its request number `i`: nothing at every other one, and one octet
at those between. -/
def sleeperPiece (i : Nat) : Bytes := if i % 2 = 0 then [] else [UInt8.ofNat (i / 2)]

/-- A device that falls asleep after every octet. -/
def sleeper (i : Nat) : Device where
  name := "sleeper"
  finite := false
  memory := [i]
  step
    | [i], _ + 1 => (.ok (sleeperPiece i), [i + 1])
    | memory, _ => (.ok [], memory)

/-- What the device has in reserve. -/
def SleeperHolds (s : Source) (t : Reserve) : Prop :=
  ∃ i, s = .device (sleeper i) ∧ t = .endless fun j => UInt8.ofNat (i / 2 + j)

theorem read_sleeper_zero (i : Nat) :
    Source.interface.read (.device (sleeper i)) 0 = (.ok [], .device (sleeper i)) := rfl

theorem read_sleeper (i n : Nat) : Source.interface.read (.device (sleeper i)) (n + 1)
    = (.ok (sleeperPiece i), .device (sleeper (i + 1))) := by
  have hlength : (sleeperPiece i).length ≤ n + 1 := by
    unfold sleeperPiece
    split <;> simp
  have hread : (sleeper i).read (n + 1) = (.ok (sleeperPiece i), sleeper (i + 1)) :=
    congrArg (fun piece => (Outcome.ok piece, sleeper (i + 1))) (List.take_of_length_le hlength)
  show Source.read _ _ = _
  rw [Source.read, hread]

theorem plainSource_sleeper : PlainSource Source.interface SleeperHolds where
  next {s t n piece s'} h hread := by
    obtain ⟨i, rfl, rfl⟩ := h
    cases n with
    | zero =>
      rw [read_sleeper_zero] at hread
      cases hread
      exact ⟨Nat.le_refl _, trivial, rfl, i, rfl, by simp [Reserve.drop]⟩
    | succ n =>
      rw [read_sleeper, sleeperPiece] at hread
      split at hread
      · cases hread
        have hhalf : (i + 1) / 2 = i / 2 := by omega
        exact ⟨Nat.zero_le _, trivial, rfl, i + 1, rfl, by simp [Reserve.drop, hhalf]⟩
      · cases hread
        have hhalf : (i + 1) / 2 = i / 2 + 1 := by omega
        refine ⟨Nat.succ_le_succ (Nat.zero_le n), trivial, rfl, i + 1, rfl, ?_⟩
        simp [Reserve.drop, hhalf, Nat.add_assoc]
  drained h _ := by
    obtain ⟨i, -, ht⟩ := h
    cases ht
  read_ok h n := by
    obtain ⟨i, rfl, rfl⟩ := h
    cases n with
    | zero => exact ⟨_, _, read_sleeper_zero i⟩
    | succ n => exact ⟨_, _, read_sleeper i n⟩
  wakes {s octet n} h hn := by
    obtain ⟨i, rfl, -⟩ := h
    obtain ⟨n, rfl⟩ := Nat.exists_eq_add_one.2 hn
    -- asleep, it wakes at the next request
    by_cases hi : i % 2 = 0
    · have hnext : (i + 1) % 2 ≠ 0 := by omega
      refine ⟨1, ?_⟩
      rw [Function.iterate_one, read_sleeper, read_sleeper, sleeperPiece, if_neg hnext]
      simp
    · refine ⟨0, ?_⟩
      rw [Function.iterate_zero, id, read_sleeper, sleeperPiece, if_neg hi]
      simp
  isFinite_eq h := by
    obtain ⟨i, rfl, rfl⟩ := h
    rfl
  mustRead_eq h k n := by
    obtain ⟨i, rfl, rfl⟩ := h
    rfl

theorem blocking_reads_exact_sleeper :
    PlainSource Source.interface SleeperHolds ∧
    SleeperHolds (.device (sleeper 0)) (.endless fun j => UInt8.ofNat (0 / 2 + j)) ∧
    ∃ K d, (∀ k, K ≤ k → Source.interface.mustRead k (.device (sleeper 0)) 3 = d) ∧
      d.outcome = .ok () ∧ d.buffer [9, 9, 9] = [0, 1, 2] := by
  have h : SleeperHolds (.device (sleeper 0)) (.endless fun j => UInt8.ofNat (0 / 2 + j)) :=
    ⟨0, rfl, rfl⟩
  obtain ⟨⟨K, d, -, hd, hok, hfull, -⟩, -⟩ := plainSource_sleeper.blocking_reads_exact h 3 1
  exact ⟨plainSource_sleeper, h, K, d, hd, hok.2 trivial, (hfull trivial).1 [9, 9, 9] rfl⟩

end ThresholdKeys
