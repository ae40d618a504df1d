import ThresholdKeys.Proofs.Ceremony.Collecting

/-!
# Losing shares

Between a generation and a recovery, shares get lost: the blob is removed from its token, or another
token that is out of reach stands in the slot. After losses in different slots nothing is found in
them, and in the others what was found before (`lose_finds`).
-/

namespace ThresholdKeys

/-- What happens to the share in a slot. -/
inductive Loss where
  /-- The blob is removed from the token. -/
  | removed
  /-- The token is replaced by one that is out of reach. -/
  | replaced (token : MemoryToken) (outOfReach : token.unreachable = true)

/-- The share in a slot gets lost. -/
def Loss.happen (tag identifier : Bytes) (slot : Nat) : Loss → Proc Cards TokenError Unit
  | removed => do
    let _ ← Cards.remove slot tag identifier
  | replaced token _ => do
    let _ ← Cards.replace slot (.memory token)

/-- Shares get lost, one after the other. -/
def lose (tag identifier : Bytes) : List (Nat × Loss) → Proc Cards TokenError Unit
  | [] => return ()
  | (slot, loss) :: rest => do
    loss.happen tag identifier slot
    lose tag identifier rest

/-- What is found in a slot when the shares in `lost` are. -/
def without (held : Nat → Option IndexedBlob) (lost : List Nat) (slot : Nat) : Option IndexedBlob :=
  if slot ∈ lost then none else held slot

variable {cards : Cards} {tag identifier : Bytes} {slot : Nat}

theorem Loss.happen_finds {b : IndexedBlob} (h : cards.Finds tag identifier slot (some b))
    (loss : Loss) (k : Nat) :
    ∃ token log, loss.happen tag identifier slot k cards = ⟨.ok (), cards.put slot token, log⟩ ∧
      (cards.put slot token).Finds tag identifier slot none := by
  obtain ⟨m, hslot, hm⟩ := h
  cases loss with
  | removed =>
    obtain ⟨m', log, hm', hcall⟩ := Cards.call_remove (r := ⟨identifier, tag, b.index, b.blob⟩)
      (k := k) hslot hm
    obtain ⟨log', hremove⟩ := Cards.remove_of_call hcall
    obtain ⟨log'', hrun⟩ : ∃ log'', happen tag identifier slot removed k cards
        = ⟨.ok (), cards.put slot (.memory m'), log''⟩ := by
      rw [happen, Proc.bind_apply_ok hremove]
      exact ⟨_, rfl⟩
    exact ⟨.memory m', log'', hrun, m', Cards.getElem?_put_self hslot _, .inr hm'⟩
  | replaced token hout =>
    have hreplace : Cards.replace slot (.memory token) k cards
        = ⟨.ok (.memory m), cards.put slot (.memory token), []⟩ := by
      rw [Cards.replace, Proc.get_bind_apply, hslot]
      rfl
    have hrun : happen tag identifier slot (replaced token hout) k cards
        = ⟨.ok (), cards.put slot (.memory token), []⟩ := by
      rw [happen, Proc.bind_apply_ok hreplace]
      rfl
    exact ⟨.memory token, [], hrun, token, Cards.getElem?_put_self hslot _, .inl hout⟩

/-- The induction is on the losses; those that have happened are in `lost`. -/
theorem lose_finds {n : Nat} {held : Nat → Option IndexedBlob} (k : Nat)
    (losses : List (Nat × Loss)) {lost : List Nat} {cards : Cards}
    (hnodup : (lost ++ losses.map Prod.fst).Nodup)
    (hheld : ∀ loss ∈ losses, loss.1 < n ∧ ∃ b, held loss.1 = some b)
    (hfinds : ∀ j < n, cards.Finds tag identifier j (without held lost j)) :
    ∃ cards' log, lose tag identifier losses k cards = ⟨.ok (), cards', log⟩ ∧
      cards'.tokens.length = cards.tokens.length ∧
      ∀ j < n, cards'.Finds tag identifier j (without held (lost ++ losses.map Prod.fst) j) := by
  induction losses generalizing lost cards with
  | nil => exact ⟨cards, [], rfl, rfl, by simpa using hfinds⟩
  | cons head rest ih =>
    obtain ⟨slot, loss⟩ := head
    obtain ⟨hslot, b, hb⟩ := hheld _ List.mem_cons_self
    have hassoc : lost ++ ((slot, loss) :: rest).map Prod.fst
        = (lost ++ [slot]) ++ rest.map Prod.fst := by simp
    have hnew : slot ∉ lost := fun hmem =>
      (List.nodup_append.1 hnodup).2.2 slot hmem slot (by simp) rfl
    have hfound : cards.Finds tag identifier slot (some b) := by
      have h := hfinds slot hslot
      rwa [without, if_neg hnew, hb] at h
    obtain ⟨token, log, hhappen, hgone⟩ := loss.happen_finds hfound k
    have hrest : ∀ j < n, (cards.put slot token).Finds tag identifier j
        (without held (lost ++ [slot]) j) := by
      intro j hj
      by_cases hjs : slot = j
      · rw [← hjs, without, if_pos (by simp)]
        exact hgone
      · have hmem : j ∈ lost ++ [slot] ↔ j ∈ lost := by simp [Ne.symm hjs]
        rw [Cards.finds_put_ne hjs]
        simp only [without, hmem]
        exact hfinds j hj
    obtain ⟨cards', log', hlose, hlen, hfinds'⟩ := ih (by rwa [hassoc] at hnodup)
      (fun loss' h => hheld loss' (List.mem_cons_of_mem _ h)) hrest
    refine ⟨cards', log ++ log', ?_, ?_, ?_⟩
    · rw [lose, Proc.bind_apply_ok hhappen, hlose]
    · rw [hlen, Cards.length_put]
    · rwa [hassoc]

end ThresholdKeys
