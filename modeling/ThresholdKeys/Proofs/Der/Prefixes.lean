import ThresholdKeys.Proofs.Der.Trees

/-!
# No encoding is the beginning of another

An element announces its own end, so where one encoding ends in a string of octets is known from the
string, and so is the tree: two trees in front of anything have the same octets only if they are the
same tree (`Entry.item_inj`).

As everywhere, a content has to be shorter than `2 ^ 64` octets. It is asked of the outermost
elements only.
-/

namespace ThresholdKeys.Der

/-- The octets of an element give its tag, its content and what follows it. -/
theorem element_append_inj {tag tag' : UInt8} {content content' rest rest' : Bytes}
    (hc : content.length < lengthLimit) (hc' : content'.length < lengthLimit)
    (h : element tag content ++ rest = element tag' content' ++ rest') :
    tag = tag' ∧ content = content' ∧ rest = rest' := by
  have htag : tag = tag' := (List.cons.inj h).1
  have hsplit := splitElement_element hc tag rest
  rw [h, htag, splitElement_element hc' tag' rest'] at hsplit
  cases hsplit
  exact ⟨htag, rfl, rfl⟩

/-- Numbers with the same content are the same. -/
theorem integerContent_inj {m n : Nat} (h : integerContent m = integerContent n) : m = n := by
  rw [← toNat_integerContent m, h, toNat_integerContent]

/-- Texts with the same octets are the same. -/
theorem ofText_inj {s t : String} (h : Bytes.ofText s = Bytes.ofText t) : s = t := by
  have hs := text?_ofText s
  rw [h, text?_ofText t] at hs
  exact (Option.some.inj hs).symm

/-- The octets of a list are none only for the list without elements. -/
theorem encodeAll_cons_ne_nil (e : Entry) (rest : List Entry) :
    encodeAll (itemsOf (e :: rest)) ≠ [] := by
  rw [itemsOf, encodeAll, e.encode_item]
  exact List.cons_ne_nil _ _

mutual

/-- A tree is known from its tag and its content. -/
theorem Entry.item_eq (e e' : Entry) (h : e.content.length < lengthLimit) (htag : e.tag = e'.tag)
    (hcontent : e.content = e'.content) : e.item = e'.item := by
  -- calls with different tags aside, nine pairs are left
  cases e <;> cases e' <;>
    simp [Entry.tag, sequenceTag, integerTag, octetStringTag, bitStringTag, utf8StringTag,
      identifierTag, nullTag] at htag
  case octetString.octetString | identifier.identifier | bitString.bitString =>
    cases hcontent
    rfl
  case utf8String.utf8String => exact congrArg Item.utf8String (ofText_inj hcontent)
  case null.null => rfl
  case sequence.sequence es es' =>
    rw [Entry.item, Entry.item, itemsOf_eq es es' h hcontent]
  all_goals exact congrArg Item.integer (integerContent_inj hcontent)

/-- A list of trees is known from its octets. -/
theorem itemsOf_eq : (es es' : List Entry) → (encodeAll (itemsOf es)).length < lengthLimit →
    encodeAll (itemsOf es) = encodeAll (itemsOf es') → itemsOf es = itemsOf es'
  | [], [], _, _ => rfl
  | [], e' :: rest', _, h => absurd h.symm (encodeAll_cons_ne_nil e' rest')
  | e :: rest, [], _, h => absurd h (encodeAll_cons_ne_nil e rest)
  | e :: rest, e' :: rest', hlen, h => by
    have he : e.content.length < lengthLimit :=
      Nat.lt_trans (length_content_lt List.mem_cons_self) hlen
    have he' : e'.content.length < lengthLimit :=
      Nat.lt_trans (length_content_lt List.mem_cons_self) (h ▸ hlen)
    simp only [itemsOf, encodeAll] at h hlen
    rw [e.encode_item, e'.encode_item] at h
    obtain ⟨htag, hcontent, hrest⟩ := element_append_inj he he' h
    rw [List.length_append] at hlen
    rw [itemsOf, itemsOf, e.item_eq e' he htag hcontent, itemsOf_eq rest rest' (by omega) hrest]

end

/-- **Trees are known from their octets**: with anything behind it, the encoding of a tree gives the
tree and what is behind it. -/
theorem Entry.item_inj {e e' : Entry} {rest rest' : Bytes} (he : e.content.length < lengthLimit)
    (he' : e'.content.length < lengthLimit)
    (h : e.item.encode ++ rest = e'.item.encode ++ rest') : e.item = e'.item ∧ rest = rest' := by
  rw [e.encode_item, e'.encode_item] at h
  obtain ⟨htag, hcontent, hrest⟩ := element_append_inj he he' h
  exact ⟨e.item_eq e' he htag hcontent, hrest⟩

end ThresholdKeys.Der
