import ThresholdKeys.Proofs.Sharing.Interpolation
import ThresholdKeys.Proofs.Token.Yielding

/-!
# What is found in the slots

Each slot yields a blob or nothing, in whatever order the tokens stand. Reading one slot after the
other keeps a list in which the blobs read so far are in the places of their indices (`Filled`). A
blob that no party has the index of, or whose place is taken, ends the reading, and blobs with it
have no places. So collecting succeeds exactly if the blobs that are yielded have places, and comes
to these (`collectFrom_yields`); for slots that hold shares of different parties that is what
`collectAll_yields` says.

`Finds cards tag identifier slot found` says why a slot with a token in memory yields what it does:
an available token keeps a blob with the tag, or nothing, or the token is out of reach. Storing,
removing and replacing change what is found in their slot and in no other.
-/

namespace ThresholdKeys

/-! ## Slots -/

/-- What is found in a slot, under an identifier and with a tag. -/
def Cards.Finds (cards : Cards) (tag identifier : Bytes) (slot : Nat) : Option IndexedBlob → Prop
  | some b => ∃ m, cards.tokens[slot]? = some (.memory m) ∧
      Available cards.retry.retries identifier (some ⟨identifier, tag, b.index, b.blob⟩) m
  | none => ∃ m, cards.tokens[slot]? = some (.memory m) ∧
      (m.unreachable = true ∨ Available cards.retry.retries identifier none m)

namespace Cards

variable {cards : Cards} {tag identifier : Bytes} {slot : Nat}

/-- Another slot keeps what it had. -/
theorem finds_put_ne {slot j : Nat} (h : slot ≠ j) (token : Token) {found : Option IndexedBlob} :
    (cards.put slot token).Finds tag identifier j found ↔ cards.Finds tag identifier j found := by
  cases found <;> simp only [Finds, getElem?_put_ne h, put_retry]

/-- What is found is yielded. -/
theorem Finds.yields {found : Option IndexedBlob} (h : cards.Finds tag identifier slot found) :
    cards.Yields tag identifier slot found := by
  cases found with
  | some b =>
    obtain ⟨m, hslot, hm⟩ := h
    refine yields_of_read hslot fun k => ?_
    obtain ⟨log, hread⟩ := read_available (k := k) hslot hm
    exact congrArg Run.outcome hread
  | none =>
    obtain ⟨m, hslot, hr | hm⟩ := h
    · refine yields_of_read hslot fun k => ?_
      obtain ⟨m', log, hread⟩ := read_outOfReach (k := k) hslot hr tag identifier
      exact ⟨_, rfl, congrArg Run.outcome hread⟩
    · refine yields_of_read hslot fun k => ?_
      obtain ⟨log, hread⟩ := read_absent (k := k) hslot hm tag
      exact ⟨_, rfl, congrArg Run.outcome hread⟩

end Cards

/-! ## Places -/

variable {t : Threshold} {tag identifier : Bytes} {held : Nat → Option IndexedBlob}

/-- The slots hold shares of parties, and no two of them shares of the same. -/
structure Apart (t : Threshold) (held : Nat → Option IndexedBlob) : Prop where
  isIndex : ∀ {j b}, j < t.parties → held j = some b → t.isIndex b.index = true
  injective : ∀ {j j' b b'}, held j = some b → held j' = some b' → b.index = b'.index → j = j'

/-- Slots in the order of the parties. -/
theorem apart_of_order (hindex : ∀ j b, held j = some b → b.index = j + 1) : Apart t held where
  isIndex := by
    intro j b hj hb
    have h := hindex j b hb
    exact isIndex_iff.2 ⟨by omega, by omega⟩
  injective := by
    intro j j' b b' hb hb' heq
    have h := hindex j b hb
    have h' := hindex j' b' hb'
    omega

/-- The list has a place for each party, and in it the share of the party if one of the first
`slots` slots holds it. -/
structure Placed (t : Threshold) (held : Nat → Option IndexedBlob) (slots : Nat)
    (found : List (Option IndexedBlob)) : Prop where
  length : found.length = t.parties
  iff : ∀ i < t.parties, ∀ b,
    found[i]? = some (some b) ↔ ∃ j < slots, held j = some b ∧ b.index = i + 1

/-- Slots in the order of the parties are their places. -/
theorem placed_of_order (hindex : ∀ j b, held j = some b → b.index = j + 1) :
    Placed t held t.parties ((List.range t.parties).map held) where
  length := by rw [List.length_map, List.length_range]
  iff := by
    intro i hi b
    rw [List.getElem?_map, List.getElem?_range hi, Option.map_some, Option.some_inj]
    constructor
    · intro hb
      exact ⟨i, hi, hb, hindex i b hb⟩
    · intro hb
      obtain ⟨j, -, hheld, heq⟩ := hb
      have h := hindex j b hheld
      obtain rfl : j = i := by omega
      exact hheld

/-! ## Blobs in their places -/

/-- The blobs have different indices of parties, and each stands in the place of its index. -/
structure Filled (t : Threshold) (blobs : List IndexedBlob) (places : List (Option IndexedBlob)) :
    Prop where
  length : places.length = t.parties
  isIndex : ∀ b ∈ blobs, t.isIndex b.index = true
  nodup : (blobs.map IndexedBlob.index).Nodup
  iff : ∀ i < t.parties, ∀ b, places[i]? = some (some b) ↔ b ∈ blobs ∧ b.index = i + 1

theorem filled_start : Filled t [] (List.replicate t.parties none) where
  length := List.length_replicate
  isIndex := by simp
  nodup := by simp
  iff := by
    intro i hi b
    simp [hi]

namespace Filled

variable {blobs : List IndexedBlob} {places places' : List (Option IndexedBlob)}
  {b b' : IndexedBlob}

/-- The places are determined. -/
theorem unique (h : Filled t blobs places) (h' : Filled t blobs places') : places = places' := by
  refine List.ext_getElem (h.length.trans h'.length.symm) fun i hi hi' => Option.ext fun b => ?_
  have hlt : i < t.parties := h.length ▸ hi
  have hb := (h.iff i hlt b).trans (h'.iff i hlt b).symm
  simpa [List.getElem?_eq_getElem hi, List.getElem?_eq_getElem hi'] using hb

/-- The order of the blobs does not matter. -/
theorem perm {blobs' : List IndexedBlob} (hperm : blobs'.Perm blobs) :
    Filled t blobs' places ↔ Filled t blobs places := by
  have hmem : ∀ b, b ∈ blobs' ↔ b ∈ blobs := fun _ => hperm.mem_iff
  have hnodup := (hperm.map IndexedBlob.index).nodup_iff
  constructor
  · intro h
    exact ⟨h.length, fun b hb => h.isIndex b ((hmem b).2 hb), hnodup.1 h.nodup,
      fun i hi b => by rw [h.iff i hi b, hmem]⟩
  · intro h
    exact ⟨h.length, fun b hb => h.isIndex b ((hmem b).1 hb), hnodup.2 h.nodup,
      fun i hi b => by rw [h.iff i hi b, hmem]⟩

/-- The place of a blob that was put is taken. -/
theorem taken (h : Filled t blobs places) (hb : b ∈ blobs) :
    places[b.index - 1]? = some (some b) := by
  obtain ⟨hpos, hle⟩ := isIndex_iff.1 (h.isIndex b hb)
  exact (h.iff (b.index - 1) (by omega) b).2 ⟨hb, by omega⟩

/-- The place of another index is free. -/
theorem free (h : Filled t blobs places) (hb : t.isIndex b.index = true)
    (hfresh : ∀ b' ∈ blobs, b'.index ≠ b.index) : places[b.index - 1]? = some none := by
  obtain ⟨hpos, hle⟩ := isIndex_iff.1 hb
  have hplace : b.index - 1 < places.length := by
    rw [h.length]
    omega
  rw [List.getElem?_eq_getElem hplace]
  cases hfound : places[b.index - 1] with
  | none => rfl
  | some b' =>
    have hget : places[b.index - 1]? = some (some b') := by
      rw [List.getElem?_eq_getElem hplace, hfound]
    obtain ⟨hmem, hindex⟩ := (h.iff _ (by omega) b').1 hget
    exact absurd (by omega) (hfresh b' hmem)

/-- A blob that has a place does not have the index of one before it. -/
theorem fresh {before rest : List IndexedBlob} (h : Filled t (before ++ [b] ++ rest) places) :
    ∀ b' ∈ before, b'.index ≠ b.index := by
  intro b' hb'
  have hnodup := h.nodup
  rw [List.append_assoc, List.map_append, List.nodup_append] at hnodup
  exact hnodup.2.2 b'.index (List.mem_map_of_mem hb') b.index (by simp)

/-- A blob is put into a free place. -/
theorem put (h : Filled t blobs places) (hb : t.isIndex b.index = true)
    (hfresh : ∀ b' ∈ blobs, b'.index ≠ b.index) :
    Filled t (blobs ++ [b]) (places.set (b.index - 1) (some b)) where
  length := List.length_set.trans h.length
  isIndex := by
    intro b' hb'
    rcases List.mem_append.1 hb' with hb' | hb'
    · exact h.isIndex b' hb'
    · rwa [List.mem_singleton.1 hb']
  nodup := by
    rw [List.map_append, List.map_singleton, List.nodup_append]
    refine ⟨h.nodup, List.nodup_singleton _, ?_⟩
    intro i hi j hj
    obtain ⟨b', hb', rfl⟩ := List.mem_map.1 hi
    rw [List.mem_singleton.1 hj]
    exact hfresh b' hb'
  iff := by
    obtain ⟨hpos, hle⟩ := isIndex_iff.1 hb
    intro i hi b'
    by_cases heq : b.index - 1 = i
    · rw [heq, List.getElem?_set_self (h.length.symm ▸ hi)]
      constructor
      · intro hb'
        cases hb'
        exact ⟨List.mem_append_right _ List.mem_cons_self, by omega⟩
      · rintro ⟨hmem, hindex⟩
        rcases List.mem_append.1 hmem with hmem | hmem
        · exact absurd (by omega) (hfresh b' hmem)
        · rw [List.mem_singleton.1 hmem]
    · rw [List.getElem?_set_ne heq, h.iff i hi b', List.mem_append, List.mem_singleton]
      constructor
      · rintro ⟨hmem, hindex⟩
        exact ⟨.inl hmem, hindex⟩
      · rintro ⟨hmem | rfl, hindex⟩
        · exact ⟨hmem, hindex⟩
        · omega

/-- There are places for blobs with different indices of parties: they are put one by one. -/
theorem exists_filled (hindex : ∀ b ∈ blobs, t.isIndex b.index = true)
    (hnodup : (blobs.map IndexedBlob.index).Nodup) : ∃ places, Filled t blobs places := by
  induction blobs using List.reverseRecOn with
  | nil => exact ⟨_, filled_start⟩
  | append_singleton blobs b ih =>
    rw [List.map_append, List.nodup_append] at hnodup
    obtain ⟨hbefore, -, hne⟩ := hnodup
    obtain ⟨places, h⟩ := ih (fun b' hb' => hindex b' (List.mem_append_left _ hb')) hbefore
    refine ⟨_, h.put (b := b) (hindex b (by simp)) ?_⟩
    intro b' hb'
    exact hne _ (List.mem_map_of_mem hb') _ (by simp)

/-- The blobs that are there stand in the order of their indices. -/
theorem present_increasing (h : Filled t blobs places) :
    (present places).Pairwise (·.index < ·.index) := by
  rw [present, List.pairwise_filterMap, List.pairwise_iff_getElem]
  intro i j hi hj hij b hb b' hb'
  have hlen := h.length
  have hget : places[i]? = some (some b) := (List.getElem?_eq_getElem hi).trans (congrArg _ hb)
  have hget' : places[j]? = some (some b') := (List.getElem?_eq_getElem hj).trans (congrArg _ hb')
  have hindex := ((h.iff i (by omega) b).1 hget).2
  have hindex' := ((h.iff j (by omega) b').1 hget').2
  omega

theorem mem_present_iff (h : Filled t blobs places) : b ∈ present places ↔ b ∈ blobs := by
  rw [present, List.mem_filterMap]
  constructor
  · rintro ⟨place, hplace, hb⟩
    obtain rfl : place = some b := hb
    obtain ⟨i, hi⟩ := List.mem_iff_getElem?.1 hplace
    have hlt := (List.getElem?_eq_some_iff.1 hi).1
    exact ((h.iff i (h.length ▸ hlt) b).1 hi).1
  · intro hb
    exact ⟨some b, List.mem_of_getElem? (h.taken hb), rfl⟩

/-- The blobs that are there are those that were put. -/
theorem present_perm (h : Filled t blobs places) : (present places).Perm blobs := by
  have hnodup : (present places).Nodup := by
    apply h.present_increasing.imp
    rintro b b' hlt rfl
    exact Nat.lt_irrefl _ hlt
  exact (List.perm_ext_iff_of_nodup hnodup h.nodup.of_map).2 fun _ => h.mem_present_iff

end Filled

/-- The shares in slots that are apart, where the parties have their places. -/
theorem filled_of_placed (hapart : Apart t held) {places : List (Option IndexedBlob)}
    (h : Placed t held t.parties places) :
    Filled t (present ((List.range t.parties).map held)) places := by
  have hmem : ∀ b, b ∈ present ((List.range t.parties).map held) ↔
      ∃ j < t.parties, held j = some b := by
    simp [present]
  refine ⟨h.length, ?_, ?_, ?_⟩
  · intro b hb
    obtain ⟨j, hj, hheld⟩ := (hmem b).1 hb
    exact hapart.isIndex hj hheld
  · rw [present, List.filterMap_map, List.map_filterMap]
    refine List.nodup_range.filterMap fun j j' i hi hi' => ?_
    obtain ⟨b, hb, rfl⟩ := Option.map_eq_some_iff.1 hi
    obtain ⟨b', hb', hindex⟩ := Option.map_eq_some_iff.1 hi'
    exact hapart.injective hb hb' hindex.symm
  · intro i hi b
    rw [h.iff i hi b, hmem]
    constructor
    · rintro ⟨j, hj, hheld, hindex⟩
      exact ⟨⟨j, hj, hheld⟩, hindex⟩
    · rintro ⟨⟨j, hj, hheld⟩, hindex⟩
      exact ⟨j, hj, hheld, hindex⟩

/-! ## Collecting -/

/-- The induction is on what the slots that are left yield; what those before yielded is in its
place. -/
theorem collectFrom_yields (k : Nat) (yields : List (Option IndexedBlob)) {slot : Nat}
    {before : List IndexedBlob} {found : List (Option IndexedBlob)} (h : Filled t before found)
    {cards : Cards}
    (hyields : ∀ i y, yields[i]? = some y → cards.Yields tag identifier (slot + i) y)
    (places : List (Option IndexedBlob)) :
    (collectFrom t tag identifier yields.length slot found k cards).outcome = .ok places ↔
      Filled t (before ++ present yields) places := by
  induction yields generalizing slot before found cards with
  | nil =>
    rw [present, List.filterMap_nil, List.append_nil]
    constructor
    · intro hrun
      cases hrun
      exact h
    · intro hplaces
      rw [h.unique hplaces]
      rfl
  | cons y rest ih =>
    have hslot : cards.Yields tag identifier slot y := hyields 0 y rfl
    obtain ⟨token, log, hread⟩ := Cards.read_yields hslot k
    have hrest : ∀ i y, rest[i]? = some y →
        (cards.put slot token).Yields tag identifier (slot + 1 + i) y := by
      intro i y hy
      rw [Cards.yields_put_ne (by omega), Nat.add_assoc, Nat.add_comm 1 i]
      exact hyields (i + 1) y hy
    rw [List.length_cons, collectFrom]
    cases y with
    | none =>
      obtain ⟨e, habsent, hread⟩ := hread
      rw [Proc.bind_apply_ok (Proc.attempt_apply_error hread)]
      dsimp only
      rw [if_pos habsent, Proc.bind_apply_ok (Proc.note_apply _ _ _ _)]
      exact ih h hrest
    | some b =>
      have hpresent : before ++ present (some b :: rest) = before ++ [b] ++ present rest := by
        rw [List.append_assoc]
        rfl
      rw [Proc.bind_apply_ok (Proc.attempt_apply_ok hread), hpresent]
      dsimp only
      by_cases hb : t.isIndex b.index = true
      · by_cases hfresh : ∀ b' ∈ before, b'.index ≠ b.index
        · rw [hb, h.free hb hfresh]
          exact ih (h.put hb hfresh) hrest
        · -- the place is taken, and the blobs have the index twice
          push Not at hfresh
          obtain ⟨b', hb', heq⟩ := hfresh
          have htaken := h.taken hb'
          rw [heq] at htaken
          rw [hb, htaken]
          exact iff_of_false (by simp [Proc.throw_apply]) fun hplaces => hplaces.fresh b' hb' heq
      · -- no party has the index
        have hno : t.isIndex b.index = false := by simpa using hb
        rw [hno]
        exact iff_of_false (by simp [Proc.throw_apply]) fun hplaces =>
          hb (hplaces.isIndex b (by simp))

/-- **What is yielded is put into its place.** -/
theorem collectAll_yields (hapart : Apart t held) {places : List (Option IndexedBlob)}
    (hplaces : Placed t held t.parties places) {cards : Cards}
    (hlen : cards.tokens.length = t.parties)
    (hyields : ∀ j < t.parties, cards.Yields tag identifier j (held j)) (k : Nat) :
    ∃ cards' log, collectAll t tag identifier k cards = ⟨.ok places, cards', log⟩ := by
  have hslots : ∀ i y, ((List.range t.parties).map held)[i]? = some y →
      cards.Yields tag identifier (0 + i) y := by
    intro i y hy
    rw [List.getElem?_map] at hy
    obtain ⟨j, hj, rfl⟩ := Option.map_eq_some_iff.1 hy
    obtain ⟨hlt, rfl⟩ := List.getElem?_eq_some_iff.1 hj
    rw [List.length_range] at hlt
    rw [Nat.zero_add, List.getElem_range]
    exact hyields i hlt
  have hrun := (collectFrom_yields k ((List.range t.parties).map held) filled_start hslots
    places).2 (filled_of_placed hapart hplaces)
  rw [List.length_map, List.length_range] at hrun
  rw [collectAll, Proc.get_bind_apply, if_neg (by omega), hlen, ← hrun]
  exact ⟨_, _, rfl⟩

theorem collectPresent_yields (hapart : Apart t held) {places : List (Option IndexedBlob)}
    (hplaces : Placed t held t.parties places) {cards : Cards}
    (hlen : cards.tokens.length = t.parties)
    (hyields : ∀ j < t.parties, cards.Yields tag identifier j (held j)) (k : Nat) :
    ∃ cards' log, collectPresent t tag identifier k cards
      = ⟨.ok (places.filterMap id), cards', log⟩ := by
  obtain ⟨cards', log, h⟩ := collectAll_yields hapart hplaces hlen hyields k
  rw [collectPresent, Proc.bind_apply_ok h]
  exact ⟨cards', _, rfl⟩

end ThresholdKeys
