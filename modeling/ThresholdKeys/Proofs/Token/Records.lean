import Mathlib.Data.List.Nodup
import ThresholdKeys.Proofs.Der.Sizes
import ThresholdKeys.Token.Records

/-!
# Records as a map

Records in the order of their identifiers, one for each, are a map from identifiers to records:
`lookup?` is the view, inserting and erasing change it under one identifier (`lookup?_insert`,
`lookup?_erase`), and records with the same view are the same (`Sorted.ext`). So whatever was
inserted or erased is taken back by erasing or inserting it (`Sorted.erase_insert`,
`Sorted.insert_erase`), and what was encoded is read back (`Sorted.ofDer_toDer`).
-/

namespace ThresholdKeys

/-! ## The order of identifiers -/

namespace Bytes

theorem before_irrefl (a : Bytes) : a.before a = false := by
  induction a with
  | nil => rfl
  | cons x a ih => simp [before, ih]

theorem before_trans {a b c : Bytes} (hab : a.before b = true) (hbc : b.before c = true) :
    a.before c = true := by
  induction a generalizing b c with
  | nil =>
    cases c with
    | nil => cases b <;> simp [before] at hbc
    | cons z c => rfl
  | cons x a ih =>
    cases b with
    | nil => simp [before] at hab
    | cons y b =>
      cases c with
      | nil => simp [before] at hbc
      | cons z c =>
        simp only [before, Bool.or_eq_true, decide_eq_true_eq, Bool.and_eq_true] at hab hbc ⊢
        rcases hab with hxy | ⟨rfl, hab⟩
        · rcases hbc with hyz | ⟨rfl, -⟩
          · exact .inl (UInt8.lt_trans hxy hyz)
          · exact .inl hxy
        · rcases hbc with hxz | ⟨rfl, hbc⟩
          · exact .inl hxz
          · exact .inr ⟨rfl, ih hab hbc⟩

theorem not_before_of_before {a b : Bytes} (h : a.before b = true) : ¬ b.before a = true := by
  intro hback
  have hself := before_trans h hback
  rw [before_irrefl] at hself
  cases hself

/-- Of two different identifiers one comes first. -/
theorem before_of_not_before {a b : Bytes} (hne : a ≠ b) (h : a.before b = false) :
    b.before a = true := by
  induction a generalizing b with
  | nil =>
    cases b with
    | nil => exact absurd rfl hne
    | cons y b => simp [before] at h
  | cons x a ih =>
    cases b with
    | nil => rfl
    | cons y b =>
      simp only [before, Bool.or_eq_false_iff, decide_eq_false_iff_not, Bool.and_eq_false_iff] at h
      simp only [before, Bool.or_eq_true, decide_eq_true_eq, Bool.and_eq_true]
      obtain ⟨hxy, hab⟩ := h
      rcases UInt8.lt_or_eq_of_le (UInt8.not_lt.1 hxy) with hyx | rfl
      · exact .inl hyx
      · refine .inr ⟨rfl, ih (fun hab' => hne (by rw [hab'])) (hab.resolve_left (by simp))⟩

end Bytes

namespace Records

/-! ## The view -/

variable {rs : Records} {r : Record} {identifier : Bytes}

theorem lookup?_cons (s : Record) (rs : Records) (identifier : Bytes) :
    lookup? (s :: rs) identifier
      = if s.identifier = identifier then some s else rs.lookup? identifier := by
  rw [lookup?, List.find?_cons]
  by_cases h : s.identifier = identifier
  · simp [h]
  · simp [h, lookup?]

theorem identifier_of_lookup? (h : rs.lookup? identifier = some r) : r.identifier = identifier := by
  simpa using List.find?_some h

/-- Inserting changes what is kept under the identifier of the record. -/
theorem lookup?_insert (r : Record) (rs : Records) (identifier : Bytes) :
    (insert r rs).lookup? identifier
      = if r.identifier = identifier then some r else rs.lookup? identifier := by
  induction rs with
  | nil => rw [insert, lookup?_cons]
  | cons s rest ih =>
    unfold insert
    split
    · next heq =>
      rw [lookup?_cons, lookup?_cons, ← heq]
      by_cases h : r.identifier = identifier
      · rw [if_pos h, if_pos h]
      · rw [if_neg h, if_neg h, if_neg h]
    · next hne =>
      split
      · rw [lookup?_cons]
      · rw [lookup?_cons, lookup?_cons, ih]
        by_cases h : s.identifier = identifier
        · rw [if_pos h, if_pos h, if_neg (by rw [← h]; exact hne)]
        · rw [if_neg h, if_neg h]

/-- Erasing changes what is kept under the identifier. -/
theorem lookup?_erase (rs : Records) (erased identifier : Bytes) :
    (rs.erase erased).lookup? identifier
      = if erased = identifier then none else rs.lookup? identifier := by
  induction rs with
  | nil => simp [erase, lookup?]
  | cons s rest ih =>
    rw [erase] at ih ⊢
    rw [lookup?_cons, List.filter_cons]
    by_cases hs : s.identifier = erased
    · simp only [hs, ne_eq, not_true_eq_false, decide_false, Bool.false_eq_true, if_false]
      rw [ih]
      by_cases h : erased = identifier
      · rw [if_pos h, if_pos h]
      · rw [if_neg h, if_neg h, if_neg h]
    · simp only [hs, ne_eq, not_false_eq_true, decide_true, if_true]
      rw [lookup?_cons, ih]
      by_cases h : s.identifier = identifier
      · rw [if_pos h, if_pos h, if_neg (by rw [← h]; exact Ne.symm hs)]
      · rw [if_neg h, if_neg h]

theorem lookup?_insert_self (r : Record) (rs : Records) :
    (insert r rs).lookup? r.identifier = some r := by rw [lookup?_insert, if_pos rfl]

theorem lookup?_erase_self (rs : Records) (identifier : Bytes) :
    (rs.erase identifier).lookup? identifier = none := by rw [lookup?_erase, if_pos rfl]

theorem insert_ne (hfree : rs.lookup? r.identifier = none) : insert r rs ≠ rs := by
  intro h
  have hself := lookup?_insert_self r rs
  rw [h, hfree] at hself
  cases hself

/-- A record under a free identifier is one more. -/
theorem length_insert (hfree : rs.lookup? r.identifier = none) :
    (insert r rs).length = rs.length + 1 := by
  induction rs with
  | nil => rfl
  | cons s rest ih =>
    rw [lookup?_cons] at hfree
    split at hfree
    · cases hfree
    · next hne =>
      rw [insert, if_neg (Ne.symm hne)]
      split
      · rfl
      · rw [List.length_cons, ih hfree, List.length_cons]

theorem erase_ne (h : rs.lookup? identifier = some r) : rs.erase identifier ≠ rs := by
  intro hsame
  have hself := lookup?_erase_self rs identifier
  rw [hsame, h] at hself
  cases hself

/-! ## Sorted records -/

/-- Each identifier comes before the later ones. -/
def Sorted (rs : Records) : Prop := rs.Pairwise fun r s => r.identifier.before s.identifier = true

theorem mem_insert {s : Record} (h : s ∈ insert r rs) : s = r ∨ s ∈ rs := by
  induction rs with
  | nil => exact .inl (List.mem_singleton.1 h)
  | cons t rest ih =>
    unfold insert at h
    split at h
    · exact (List.mem_cons.1 h).imp_right (List.mem_cons_of_mem t)
    · split at h
      · exact List.mem_cons.1 h
      · rcases List.mem_cons.1 h with rfl | h
        · exact .inr List.mem_cons_self
        · exact (ih h).imp_right (List.mem_cons_of_mem t)

namespace Sorted

theorem nil : Sorted [] := List.Pairwise.nil

theorem insert (h : Sorted rs) (r : Record) : Sorted (insert r rs) := by
  induction rs with
  | nil => exact List.pairwise_singleton _ r
  | cons s rest ih =>
    obtain ⟨hs, hrest⟩ := List.pairwise_cons.1 h
    unfold Records.insert
    split
    · next heq => exact List.pairwise_cons.2 ⟨fun t ht => heq ▸ hs t ht, hrest⟩
    · next hne =>
      split
      · next hbefore =>
        refine List.pairwise_cons.2 ⟨?_, h⟩
        intro t ht
        rcases List.mem_cons.1 ht with rfl | ht
        · exact hbefore
        · exact Bytes.before_trans hbefore (hs t ht)
      · next hnot =>
        have hfirst : s.identifier.before r.identifier = true :=
          Bytes.before_of_not_before hne (by simpa using hnot)
        refine List.pairwise_cons.2 ⟨?_, ih hrest⟩
        intro t ht
        rcases mem_insert ht with rfl | ht
        · exact hfirst
        · exact hs t ht

theorem erase (h : Sorted rs) (identifier : Bytes) : Sorted (rs.erase identifier) := h.filter _

theorem nodup (h : Sorted rs) : rs.Nodup :=
  h.imp fun {r s} hrs heq => by rw [heq, Bytes.before_irrefl] at hrs; cases hrs

/-- The view of sorted records shows each of them. -/
theorem lookup?_eq_some_iff (h : Sorted rs) :
    rs.lookup? identifier = some r ↔ r ∈ rs ∧ r.identifier = identifier := by
  induction rs with
  | nil => simp [lookup?]
  | cons s rest ih =>
    obtain ⟨hs, hrest⟩ := List.pairwise_cons.1 h
    rw [lookup?_cons, List.mem_cons]
    by_cases hid : s.identifier = identifier
    · rw [if_pos hid]
      constructor
      · rintro ⟨⟩
        exact ⟨.inl rfl, hid⟩
      · rintro ⟨rfl | hr, hrid⟩
        · rfl
        · have hlater := hs r hr
          rw [hid, hrid, Bytes.before_irrefl] at hlater
          cases hlater
    · rw [if_neg hid, ih hrest]
      constructor
      · rintro ⟨hr, hrid⟩
        exact ⟨.inr hr, hrid⟩
      · rintro ⟨rfl | hr, hrid⟩
        · exact absurd hrid hid
        · exact ⟨hr, hrid⟩

/-- Sorted records with the same view are the same. -/
theorem ext {rs' : Records} (h : Sorted rs) (h' : Sorted rs')
    (hview : ∀ identifier, rs.lookup? identifier = rs'.lookup? identifier) : rs = rs' := by
  have hmem : ∀ r, r ∈ rs ↔ r ∈ rs' := by
    intro r
    have hiff : rs.lookup? r.identifier = some r ↔ r ∈ rs ∧ r.identifier = r.identifier :=
      h.lookup?_eq_some_iff
    rw [hview, h'.lookup?_eq_some_iff] at hiff
    simpa using hiff.symm
  have hperm : rs.Perm rs' := (List.perm_ext_iff_of_nodup h.nodup h'.nodup).2 hmem
  refine hperm.eq_of_pairwise ?_ h h'
  intro r s _ _ hrs hsr
  exact absurd hsr (Bytes.not_before_of_before hrs)

/-- What was inserted under a free identifier is taken back. -/
theorem erase_insert (h : Sorted rs) (hfree : rs.lookup? r.identifier = none) :
    (Records.insert r rs).erase r.identifier = rs := by
  refine ((h.insert r).erase _).ext h ?_
  intro identifier
  rw [lookup?_erase, lookup?_insert]
  by_cases hid : r.identifier = identifier
  · rw [if_pos hid, ← hid, hfree]
  · rw [if_neg hid, if_neg hid]

/-- What was erased is put back. -/
theorem insert_erase (h : Sorted rs) (hr : rs.lookup? identifier = some r) :
    Records.insert r (rs.erase identifier) = rs := by
  have hid := identifier_of_lookup? hr
  refine ((h.erase _).insert r).ext h ?_
  intro other
  rw [lookup?_insert, lookup?_erase, hid]
  by_cases hother : identifier = other
  · rw [if_pos hother, ← hother, hr]
  · rw [if_neg hother, if_neg hother]

end Sorted

/-! ## Encoding -/

open Der

theorem length_recordItem (r : Record) : (recordItem r).encode.length
    = (element sequenceTag (element octetStringTag r.identifier ++ (element octetStringTag r.tag ++
      (element integerTag (integerContent r.index) ++
        (element octetStringTag r.blob ++ []))))).length := by
  simp only [recordItem, Item.encode, encodeAll]

theorem reads_recordItem (hindex : r.index < 2 ^ 32)
    (hlen : (recordItem r).encode.length < lengthLimit) :
    Reads recordReader (recordItem r).encode r := by
  have hinner := hlen
  rw [length_recordItem] at hinner
  simp only [length_element, List.length_append] at hinner
  unfold recordReader
  refine reads_sequence ?_ hlen
  simp only [encodeAll]
  refine (reads_octetString (by omega)).bind ((reads_octetString (by omega)).bind
    ((reads_smallInteger (by omega)).bind ((reads_octetString (by omega)).bind ?_)))
  rw [if_pos hindex]
  exact Reads.pure r

/-- An encoding contains those of the records. -/
theorem length_recordItem_lt (h : r ∈ rs) : (recordItem r).encode.length < rs.toDer.length := by
  have hcontent : (recordItem r).encode.length ≤ (encodeAll (rs.map recordItem)).length := by
    induction rs with
    | nil => cases h
    | cons s rest ih =>
      rw [List.map_cons, encodeAll, List.length_append]
      rcases List.mem_cons.1 h with rfl | h
      · exact Nat.le_add_right _ _
      · exact Nat.le_add_left_of_le (ih h)
  have hle := le_length_element sequenceTag (encodeAll (rs.map recordItem))
  rw [toDer, Item.encode]
  omega

/-- A record that comes after all others is put at the end. -/
theorem insert_of_last (h : ∀ s ∈ rs, s.identifier.before r.identifier = true) :
    insert r rs = rs ++ [r] := by
  induction rs with
  | nil => rfl
  | cons s rest ih =>
    have hs := h s List.mem_cons_self
    have hne : r.identifier ≠ s.identifier := by
      intro heq
      rw [heq, Bytes.before_irrefl] at hs
      cases hs
    have hrest : insert r rest = rest ++ [r] := ih fun t ht => h t (List.mem_cons_of_mem s ht)
    rw [insert, if_neg hne, if_neg (Bytes.not_before_of_before hs), hrest]
    rfl

/-- Inserting sorted records one after the other gives them back. -/
theorem Sorted.foldl_insert {kept : Records} (h : Sorted (kept ++ rs)) :
    rs.foldl (fun kept r => Records.insert r kept) kept = kept ++ rs := by
  induction rs generalizing kept with
  | nil => rw [List.append_nil]; rfl
  | cons r rest ih =>
    have hassoc : kept ++ r :: rest = (kept ++ [r]) ++ rest := by simp
    have hlast : Records.insert r kept = kept ++ [r] := by
      refine insert_of_last ?_
      intro s hs
      exact (List.pairwise_append.1 h).2.2 s hs r List.mem_cons_self
    rw [List.foldl_cons, hlast, ih (hassoc ▸ h), hassoc]

/-- **Sorted records are read back** from their encoding. -/
theorem Sorted.ofDer_toDer (h : Sorted rs) (hindex : ∀ r ∈ rs, r.index < 2 ^ 32)
    (hlen : rs.toDer.length < lengthLimit) : ofDer rs.toDer = .ok rs := by
  have hitems : ∀ r ∈ rs, Reads recordReader (recordItem r).encode r ∧
      (recordItem r).encode ≠ [] := by
    intro r hr
    have hr' := length_recordItem_lt hr
    exact ⟨reads_recordItem (hindex r hr) (Nat.lt_trans hr' hlen), List.cons_ne_nil _ _⟩
  have hcontent : (encodeAll (rs.map recordItem)).length < lengthLimit := by
    have hle := le_length_element sequenceTag (encodeAll (rs.map recordItem))
    rw [toDer, Item.encode] at hlen
    omega
  have hreads : Reads (Reader.inSequence (Reader.all recordReader)) rs.toDer rs :=
    (readsAll_all hitems).inSequence hcontent
  have hnil : Sorted ([] ++ rs) := h
  have hfold := hnil.foldl_insert
  rw [ofDer, decode_of_reads hreads, Outcome.ok_bind, hfold]
  rfl

end Records

end ThresholdKeys
