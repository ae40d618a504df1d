import ThresholdKeys.Proofs.Sharing.Interpolation
import ThresholdKeys.Sharing.Quorum

/-!
# The quorums that are tried

Quorums are picked by position: what is picked from holders is what is picked from anything that
stands for them (`selectQuorums_map`). Each of them has the size asked for and the order of the
holders (`sublist_of_selectQuorums`). A holder is in one of them exactly if it is among the first or
among the last of the holders, as many as a quorum has (`exists_mem_selectQuorums_iff`), so nobody
is left out exactly if a quorum is at least half of the holders (`covers_iff`).
`selectQuorums_exact` puts this together.
-/

namespace ThresholdKeys

section Holders

variable {α β : Type} {holders quorum : List α} {quorums : List (List α)} {size : Nat}

/-- The quorums of a size that there can be. -/
theorem selectQuorums_eq_ok (hpos : 0 < size) (hsize : size ≤ holders.length) :
    selectQuorums holders size = .ok (if size = holders.length then [holders] else
      [holders.take size, holders.drop (holders.length - size),
        holders.take (size - 1) ++ holders.drop (holders.length - 1)]) := by
  unfold selectQuorums
  dsimp only
  rw [if_neg (by omega)]
  split <;> rfl

/-- A size for which there are none. -/
theorem selectQuorums_eq_error (h : size = 0 ∨ holders.length < size) :
    selectQuorums holders size = .error (.badQuorumSize size holders.length) := if_pos h

/-- They are three at most. -/
theorem exists_selectQuorums (hpos : 0 < size) (hsize : size ≤ holders.length) :
    ∃ quorums, selectQuorums holders size = .ok quorums ∧ quorums.length ≤ 3 := by
  refine ⟨_, selectQuorums_eq_ok hpos hsize, ?_⟩
  split
  · simp
  · simp

/-- Quorums are picked by position. -/
theorem selectQuorums_map (f : α → β) (holders : List α) (size : Nat) :
    selectQuorums (holders.map f) size
      = List.map (List.map f) <$> selectQuorums holders size := by
  unfold selectQuorums
  dsimp only
  rw [List.length_map]
  split
  · rfl
  · split
    · rfl
    · simp only [Outcome.map_ok, List.map_cons, List.map_nil, List.map_append, List.map_take,
        List.map_drop]

/-- A size for which there are quorums. -/
theorem size_of_selectQuorums (h : selectQuorums holders size = .ok quorums) :
    0 < size ∧ size ≤ holders.length := by
  unfold selectQuorums at h
  dsimp only at h
  split at h
  · cases h
  · omega

/-- Where not all holders are needed there are three quorums. -/
theorem length_of_selectQuorums (h : selectQuorums holders size = .ok quorums)
    (hless : size < holders.length) : quorums.length = 3 := by
  obtain ⟨hpos, hsize⟩ := size_of_selectQuorums h
  rw [selectQuorums_eq_ok hpos hsize, if_neg (by omega)] at h
  cases h
  rfl

/-- A quorum has its holders in their order, as many as asked for. -/
theorem sublist_of_selectQuorums (h : selectQuorums holders size = .ok quorums)
    (hmem : quorum ∈ quorums) : quorum.Sublist holders ∧ quorum.length = size := by
  obtain ⟨hpos, hsize⟩ := size_of_selectQuorums h
  rw [selectQuorums_eq_ok hpos hsize] at h
  cases h
  split at hmem
  · next heq =>
    rw [List.mem_singleton.1 hmem]
    exact ⟨List.Sublist.refl _, heq.symm⟩
  · simp only [List.mem_cons, List.not_mem_nil, or_false] at hmem
    obtain rfl | rfl | rfl := hmem
    · exact ⟨List.take_sublist _ _, List.length_take_of_le hsize⟩
    · exact ⟨List.drop_sublist _ _, by rw [List.length_drop]; omega⟩
    · refine ⟨?_, by rw [List.length_append, List.length_take, List.length_drop]; omega⟩
      have hsplit := List.take_append_drop (holders.length - 1) holders
      conv => rhs; rw [← hsplit]
      exact (List.take_sublist_take_left (by omega)).append (List.Sublist.refl _)

/-- A list that names each element once has it among its first `k` if it stands there. -/
theorem getElem_mem_take_iff (hnodup : holders.Nodup) {j k : Nat} (hj : j < holders.length) :
    holders[j] ∈ holders.take k ↔ j < k := by
  rw [List.mem_take_iff_getElem]
  constructor
  · intro h
    obtain ⟨j', hj', heq⟩ := h
    rw [hnodup.getElem_inj_iff] at heq
    omega
  · intro h
    exact ⟨j, by omega, rfl⟩

/-- The same of what is left after its first `k`. -/
theorem getElem_mem_drop_iff (hnodup : holders.Nodup) {j k : Nat} (hj : j < holders.length) :
    holders[j] ∈ holders.drop k ↔ k ≤ j := by
  rw [List.mem_drop_iff_getElem]
  constructor
  · intro h
    obtain ⟨j', hj', heq⟩ := h
    rw [hnodup.getElem_inj_iff] at heq
    omega
  · intro h
    refine ⟨j - k, by omega, ?_⟩
    simp only [Nat.add_sub_cancel' h]

/-- **Who is tried**: the first holders and the last ones, as many as a quorum has. -/
theorem exists_mem_selectQuorums_iff (h : selectQuorums holders size = .ok quorums)
    (hnodup : holders.Nodup) {j : Nat} (hj : j < holders.length) :
    (∃ quorum ∈ quorums, holders[j] ∈ quorum) ↔ j < size ∨ holders.length ≤ j + size := by
  obtain ⟨hpos, hsize⟩ := size_of_selectQuorums h
  rw [selectQuorums_eq_ok hpos hsize] at h
  cases h
  split
  · simp only [List.mem_singleton, exists_eq_left, List.getElem_mem, true_iff]
    omega
  · simp only [List.mem_cons, List.not_mem_nil, or_false, exists_eq_or_imp, exists_eq_left,
      List.mem_append, getElem_mem_take_iff hnodup, getElem_mem_drop_iff hnodup]
    omega

/-- **Nobody is left out** exactly if a quorum is at least half of the holders. -/
theorem covers_iff (h : selectQuorums holders size = .ok quorums) (hnodup : holders.Nodup) :
    (∀ x ∈ holders, ∃ quorum ∈ quorums, x ∈ quorum) ↔ holders.length ≤ 2 * size := by
  obtain ⟨hpos, hsize⟩ := size_of_selectQuorums h
  constructor
  · intro hall
    -- were a quorum less than half, the holder after the first ones would not be among the last
    by_contra hfew
    have hj : size < holders.length := by omega
    have hcovered := (exists_mem_selectQuorums_iff h hnodup hj).1 (hall _ (List.getElem_mem hj))
    omega
  · intro hhalf x hx
    obtain ⟨j, hj, rfl⟩ := List.getElem_of_mem hx
    exact (exists_mem_selectQuorums_iff h hnodup hj).2 (by omega)

/-- The first holder or the last one is in every quorum. -/
theorem end_mem_of_selectQuorums (h : selectQuorums holders size = .ok quorums)
    (hnodup : holders.Nodup) (hmem : quorum ∈ quorums) :
    ∃ x ∈ quorum, holders.head? = some x ∨ holders.getLast? = some x := by
  obtain ⟨hpos, hsize⟩ := size_of_selectQuorums h
  have hfirst : 0 < holders.length := by omega
  have hlast : holders.length - 1 < holders.length := by omega
  have hhead : holders.head? = some holders[0] := by
    rw [List.head?_eq_getElem?, List.getElem?_eq_getElem hfirst]
  have hgetLast : holders.getLast? = some holders[holders.length - 1] := by
    rw [List.getLast?_eq_getElem?, List.getElem?_eq_getElem hlast]
  rw [selectQuorums_eq_ok hpos hsize] at h
  cases h
  split at hmem
  · rw [List.mem_singleton.1 hmem]
    exact ⟨_, List.getElem_mem hfirst, .inl hhead⟩
  · simp only [List.mem_cons, List.not_mem_nil, or_false] at hmem
    obtain rfl | rfl | rfl := hmem
    · exact ⟨_, (getElem_mem_take_iff hnodup hfirst).2 hpos, .inl hhead⟩
    · exact ⟨_, (getElem_mem_drop_iff hnodup hlast).2 (by omega), .inr hgetLast⟩
    · have hmixed := (getElem_mem_drop_iff hnodup hlast).2 (Nat.le_refl _)
      exact ⟨_, List.mem_append_right _ hmixed, .inr hgetLast⟩

/-- A quorum that is less than all holders: some of them in their order, each of them once, as many
as asked for, the first or the last one among them. -/
structure IsTrialQuorum (holders : List α) (size : Nat) (quorum : List α) : Prop where
  sublist : quorum.Sublist holders
  nodup : quorum.Nodup
  length_eq : quorum.length = size
  ne_all : quorum ≠ holders
  hasEnd : ∃ x ∈ quorum, holders.head? = some x ∨ holders.getLast? = some x

theorem isTrialQuorum_of_selectQuorums (h : selectQuorums holders size = .ok quorums)
    (hless : size < holders.length) (hnodup : holders.Nodup) (hmem : quorum ∈ quorums) :
    IsTrialQuorum holders size quorum := by
  obtain ⟨hsub, hlen⟩ := sublist_of_selectQuorums h hmem
  refine ⟨hsub, hnodup.sublist hsub, hlen, ?_, end_mem_of_selectQuorums h hnodup hmem⟩
  intro hall
  rw [hall] at hlen
  omega

/-- **What quorums there are.** A size is refused exactly if it is zero or larger than the number of
holders. All holders are tried alone; a smaller size has three quorums; and nobody is left out of
the quorums of a size exactly if it is at least half of the holders. -/
theorem selectQuorums_exact (hnodup : holders.Nodup) (size : Nat) :
    (∀ e, selectQuorums holders size = .error e ↔
      (size = 0 ∨ holders.length < size) ∧ e = .badQuorumSize size holders.length) ∧
    (0 < size → size = holders.length → selectQuorums holders size = .ok [holders]) ∧
    (0 < size → size < holders.length → ∃ quorums, selectQuorums holders size = .ok quorums ∧
      quorums.length = 3 ∧ ∀ quorum ∈ quorums, IsTrialQuorum holders size quorum) ∧
    ∀ quorums, selectQuorums holders size = .ok quorums →
      ((∀ x ∈ holders, ∃ quorum ∈ quorums, x ∈ quorum) ↔ holders.length ≤ 2 * size) := by
  refine ⟨fun e => ?_, ?_, ?_, fun quorums h => covers_iff h hnodup⟩
  · by_cases hbad : size = 0 ∨ holders.length < size
    · rw [selectQuorums_eq_error hbad, Outcome.error.injEq, eq_comm]
      exact (and_iff_right hbad).symm
    · rw [selectQuorums_eq_ok (by omega) (by omega)]
      simp [hbad]
  · intro hpos hall
    rw [selectQuorums_eq_ok hpos hall.le, if_pos hall]
  · intro hpos hless
    have h := selectQuorums_eq_ok hpos hless.le
    exact ⟨_, h, length_of_selectQuorums h hless,
      fun quorum hmem => isTrialQuorum_of_selectQuorums h hless hnodup hmem⟩

end Holders

/-- Five holders in quorums of two, which leave the third one out, and in quorums of three. -/
theorem selectQuorums_exact_five :
    ['a', 'b', 'c', 'd', 'e'].Nodup ∧
    selectQuorums ['a', 'b', 'c', 'd', 'e'] 6 = .error (.badQuorumSize 6 5) ∧
    selectQuorums ['a', 'b', 'c', 'd', 'e'] 5 = .ok [['a', 'b', 'c', 'd', 'e']] ∧
    (∃ quorums, selectQuorums ['a', 'b', 'c', 'd', 'e'] 2 = .ok quorums ∧ quorums.length = 3 ∧
      (∀ quorum ∈ quorums, IsTrialQuorum ['a', 'b', 'c', 'd', 'e'] 2 quorum) ∧
      ¬ ∀ x ∈ ['a', 'b', 'c', 'd', 'e'], ∃ quorum ∈ quorums, x ∈ quorum) ∧
    ∃ quorums, selectQuorums ['a', 'b', 'c', 'd', 'e'] 3 = .ok quorums ∧
      ∀ x ∈ ['a', 'b', 'c', 'd', 'e'], ∃ quorum ∈ quorums, x ∈ quorum := by
  have hnodup : ['a', 'b', 'c', 'd', 'e'].Nodup := by decide
  obtain ⟨hrefused, -, -, -⟩ := selectQuorums_exact hnodup 6
  obtain ⟨-, hall, -, -⟩ := selectQuorums_exact hnodup 5
  obtain ⟨-, -, htwo, htwoCover⟩ := selectQuorums_exact hnodup 2
  obtain ⟨-, -, hthree, hthreeCover⟩ := selectQuorums_exact hnodup 3
  obtain ⟨quorums, htwo, hlength, hquorums⟩ := htwo (by decide) (by decide)
  obtain ⟨quorums', hthree, -, -⟩ := hthree (by decide) (by decide)
  refine ⟨hnodup, (hrefused _).2 ⟨.inr (by decide), rfl⟩, hall (by decide) rfl,
    ⟨quorums, htwo, hlength, hquorums, ?_⟩, quorums', hthree, ?_⟩
  · rw [htwoCover quorums htwo]
    decide
  · rw [hthreeCover quorums' hthree]
    decide

end ThresholdKeys
