import ThresholdKeys.Proofs.Der.Elements

/-!
# Reading what was written

`Reads r b v`: in front of anything, the reader `r` takes exactly the octets `b` and returns `v`.
Readers of elements read the encodings of their values (`reads_integer` and the others), readers in
sequence read encodings in sequence (`Reads.bind`, `reads_sequence`), and what reads a whole
string decodes it (`decode_of_reads`). `ReadsAll r b v` is the same where nothing follows, for
readers that look whether they are at the end.

A length field has at most eight length octets, so every content has to be shorter than `2 ^ 64`.
`length_element` gives the bound for the inner elements from the bound for the whole.
-/

namespace ThresholdKeys.Der

/-! ## Length fields -/

/-- The longest content that a length field can announce, and one more. -/
def lengthLimit : Nat := 2 ^ 64

theorem lengthField_announces {n : Nat} (hn : n < lengthLimit) : LengthField (lengthField n) n := by
  by_cases h : n < 0x80
  · have hnat : (UInt8.ofNat n).toNat = n := by
      rw [UInt8.toNat_ofNat']
      omega
    have hfield := LengthField.short (UInt8.ofNat n) (UInt8.lt_iff_toNat_lt.2 (by rwa [hnat]))
    rw [lengthField, if_pos h]
    rwa [hnat] at hfield
  · have h8 : byteLength n ≤ 8 := byteLength_le_iff.2 (by unfold lengthLimit at hn; omega)
    have h1 : ¬ byteLength n ≤ 0 := by
      rw [byteLength_le_iff]
      omega
    have hfield := LengthField.long (Bytes.ofNat n) (by rw [Bytes.length_ofNat]; omega)
      (by rwa [Bytes.length_ofNat]) (by rw [Bytes.toNat_ofNat]; omega)
    rw [lengthField, if_neg h]
    rwa [Bytes.length_ofNat, Bytes.toNat_ofNat] at hfield

theorem isElement_element {content : Bytes} (hc : content.length < lengthLimit) (tag : UInt8) :
    IsElement tag (element tag content) content :=
  ⟨lengthField content.length, lengthField_announces hc, rfl⟩

theorem splitElement_element {content : Bytes} (hc : content.length < lengthLimit) (tag : UInt8)
    (rest : Bytes) : splitElement tag (element tag content ++ rest) = .ok (content, rest) :=
  splitElement_eq_ok_iff.2 ⟨element tag content, isElement_element hc tag, rfl⟩

theorem length_element (tag : UInt8) (content : Bytes) :
    (element tag content).length = 1 + (lengthField content.length).length + content.length := by
  simp only [element, List.length_cons, List.length_append]
  omega

/-! ## Readers -/

/-- In front of anything, the reader takes exactly the octets `b` and returns `v`. -/
def Reads {α : Type} (r : Reader α) (b : Bytes) (v : α) : Prop :=
  ∀ k rest, r k (b ++ rest) = ⟨.ok v, rest, []⟩

namespace Reads

variable {α β : Type} {r : Reader α} {f : α → Reader β} {b b' : Bytes} {v : α} {w : β}

theorem pure (v : α) : Reads (Pure.pure v) [] v := fun _ _ => rfl

theorem lift (v : α) : Reads (liftM (Outcome.ok v : Outcome DerError α)) [] v := fun _ _ => rfl

theorem bind (h : Reads r b v) (h' : Reads (f v) b' w) : Reads (r >>= f) (b ++ b') w := by
  intro k rest
  rw [List.append_assoc, Proc.bind_apply_ok (h k (b' ++ rest)), h' k rest]
  rfl

/-- A step that reads nothing more. -/
theorem bind_nil (h : Reads r b v) (h' : Reads (f v) [] w) : Reads (r >>= f) b w := by
  have := h.bind h'
  rwa [List.append_nil] at this

end Reads

theorem reads_element {content : Bytes} (hc : content.length < lengthLimit) (tag : UInt8) :
    Reads (Reader.element tag) (element tag content) content := by
  intro k rest
  unfold Reader.element
  rw [splitElement_element hc]

/-! ## Elements -/

theorem integerContent_cons (n : Nat) :
    ∃ top rest, integerContent n = top :: rest ∧ top < 0x80 := by
  refine ⟨_, _, Bytes.fixed_succ_front _ n, ?_⟩
  have hn := lt_two_pow_bitLength n
  have hpow : 2 ^ bitLength n ≤ 128 * 256 ^ (bitLength n / 8) := by
    rw [show (128 : Nat) = 2 ^ 7 from rfl, show (256 : Nat) = 2 ^ 8 from rfl, ← Nat.pow_mul,
      ← Nat.pow_add]
    exact Nat.pow_le_pow_right (by decide) (by omega)
  have hdiv : n / 256 ^ (bitLength n / 8) < 128 :=
    (Nat.div_lt_iff_lt_mul (Nat.pow_pos (by decide))).2 (by omega)
  rw [UInt8.lt_iff_toNat_lt, UInt8.toNat_ofNat', Nat.mod_eq_of_lt (by omega)]
  exact hdiv

@[simp] theorem toNat_integerContent (n : Nat) : Bytes.toNat (integerContent n) = n := by
  refine Bytes.toNat_fixed_of_lt (byteLength_le_iff.1 ?_)
  unfold byteLength
  omega

theorem reads_integer {n : Nat} (hn : (integerContent n).length < lengthLimit) :
    Reads Reader.integer (Item.integer n).encode n := by
  rw [Item.encode]
  refine (reads_element hn integerTag).bind_nil ?_
  obtain ⟨top, rest, hcons, htop⟩ := integerContent_cons n
  have hval := toNat_integerContent n
  rw [hcons] at hval ⊢
  dsimp only
  rw [if_pos htop, hval]
  exact Reads.pure n

theorem reads_smallInteger {n : Nat} (hn : n < 2 ^ 64) :
    Reads Reader.smallInteger (Item.integer n).encode n := by
  have hlen : (integerContent n).length < lengthLimit := by
    have hb : bitLength n ≤ 64 := bitLength_le_iff.2 hn
    rw [integerContent, Bytes.length_fixed, lengthLimit]
    omega
  refine (reads_integer hlen).bind_nil ?_
  rw [if_pos hn]
  exact Reads.pure n

theorem reads_octetString {content : Bytes} (hc : content.length < lengthLimit) :
    Reads Reader.octetString (Item.octetString content).encode content := by
  rw [Item.encode]
  exact reads_element hc octetStringTag

theorem reads_bitString {content : Bytes} (hc : content.length + 1 < lengthLimit) :
    Reads Reader.bitString (Item.bitString content).encode content := by
  rw [Item.encode]
  refine (reads_element (by simpa using hc) bitStringTag).bind_nil ?_
  exact Reads.pure content

theorem text?_ofText (s : String) : Bytes.text? (Bytes.ofText s) = some s := by
  unfold Bytes.text? Bytes.ofText String.fromUTF8?
  exact dif_pos s.isValidUTF8

theorem reads_utf8String {s : String} (hs : (Bytes.ofText s).length < lengthLimit) :
    Reads Reader.utf8String (Item.utf8String s).encode s := by
  rw [Item.encode]
  refine (reads_element hs utf8StringTag).bind_nil ?_
  rw [text?_ofText]
  exact Reads.pure s

theorem reads_identifier {content : Bytes} (hc : content.length < lengthLimit) :
    Reads (Reader.identifier content) (Item.identifier content).encode () := by
  rw [Item.encode]
  refine (reads_element hc identifierTag).bind_nil ?_
  rw [if_pos rfl]
  exact Reads.pure ()

theorem reads_null : Reads Reader.null Item.null.encode () := by
  rw [Item.encode]
  exact (reads_element (by decide) nullTag).bind_nil (Reads.pure ())

/-! ## Whole contents -/

/-- Where nothing follows, the reader takes exactly the octets `b` and returns `v`. -/
def ReadsAll {α : Type} (r : Reader α) (b : Bytes) (v : α) : Prop := ∀ k, r k b = ⟨.ok v, [], []⟩

section Whole

variable {α β : Type} {r : Reader α} {f : α → Reader β} {b b' : Bytes} {v : α} {w : β}

theorem Reads.readsAll (h : Reads r b v) : ReadsAll r b v := by
  intro k
  have h' := h k []
  rwa [List.append_nil] at h'

theorem Reads.bind_readsAll (h : Reads r b v) (h' : ReadsAll (f v) b' w) :
    ReadsAll (r >>= f) (b ++ b') w := by
  intro k
  rw [Proc.bind_apply_ok (h k b'), h' k]
  rfl

/-- A reader that has read a whole string finds nothing left over. -/
theorem ReadsAll.complete (h : ReadsAll r b v) (k : Nat) :
    (do let value ← r; Reader.finish; return value : Reader α) k b = ⟨.ok v, [], []⟩ := by
  rw [Proc.bind_apply_ok (h k)]
  rfl

/-- A sequence is read with what reads its content. -/
theorem ReadsAll.inSequence {items : List Item} (h : ReadsAll r (encodeAll items) v)
    (hlen : (encodeAll items).length < lengthLimit) :
    Reads (Reader.inSequence r) (Item.sequence items).encode v := by
  rw [Item.encode]
  refine (reads_element hlen sequenceTag).bind_nil ?_
  intro k rest
  rw [Proc.apart, h.complete k]
  rfl

theorem ReadsAll.decode (h : ReadsAll r b v) : decode r b = .ok v := by
  rw [Der.decode, Proc.run, h.complete 0]

end Whole

/-- Before an element, not everything has been read. -/
theorem isEmpty_cons (x : UInt8) (b : Bytes) (k : Nat) :
    Reader.isEmpty k (x :: b) = ⟨.ok false, x :: b, []⟩ := rfl

/-- Elements that are not empty are read until nothing is left, in enough rounds. -/
theorem readsAll_upTo {α : Type} {reader : Reader α} {item : α → Item} {l : List α}
    (h : ∀ a ∈ l, Reads reader (item a).encode a ∧ (item a).encode ≠ []) {rounds : Nat}
    (hrounds : l.length ≤ rounds) :
    ReadsAll (Reader.upTo reader rounds) (encodeAll (l.map item)) l := by
  induction l generalizing rounds with
  | nil => cases rounds <;> exact fun _ => rfl
  | cons a rest ih =>
    cases rounds with
    | zero => simp at hrounds
    | succ rounds =>
      obtain ⟨hread, hne⟩ := h a List.mem_cons_self
      have hrest := ih (fun b hb => h b (List.mem_cons_of_mem a hb))
        (Nat.le_of_succ_le_succ hrounds)
      have hboth : ReadsAll (do
          let value ← reader
          let others ← Reader.upTo reader rounds
          return value :: others) ((item a).encode ++ encodeAll (rest.map item)) (a :: rest) := by
        refine hread.bind_readsAll ?_
        intro k
        rw [Proc.bind_apply_ok (hrest k)]
        rfl
      obtain ⟨x, tail, hcons⟩ := List.exists_cons_of_ne_nil hne
      intro k
      have hwhole := hboth k
      rw [List.map_cons, encodeAll]
      rw [hcons, List.cons_append] at hwhole ⊢
      rw [Reader.upTo, Proc.bind_apply_ok (isEmpty_cons x _ k)]
      exact hwhole

/-- There are no more elements than octets. -/
theorem length_le_length_encodeAll {items : List Item} (h : ∀ item ∈ items, item.encode ≠ []) :
    items.length ≤ (encodeAll items).length := by
  induction items with
  | nil => exact Nat.zero_le _
  | cons item rest ih =>
    have hrest := ih fun i hi => h i (List.mem_cons_of_mem item hi)
    have hpos := List.length_pos_iff.2 (h item List.mem_cons_self)
    rw [encodeAll, List.length_append, List.length_cons]
    omega

/-- Elements that are not empty are read until nothing is left. -/
theorem readsAll_all {α : Type} {reader : Reader α} {item : α → Item} {l : List α}
    (h : ∀ a ∈ l, Reads reader (item a).encode a ∧ (item a).encode ≠ []) :
    ReadsAll (Reader.all reader) (encodeAll (l.map item)) l := by
  have hlen : (l.map item).length ≤ (encodeAll (l.map item)).length := by
    refine length_le_length_encodeAll fun i hi => ?_
    obtain ⟨a, ha, rfl⟩ := List.mem_map.1 hi
    exact (h a ha).2
  rw [List.length_map] at hlen
  intro k
  rw [Reader.all, Proc.get_bind_apply]
  exact readsAll_upTo h hlen k

/-- A sequence is read with what reads its items; the bound is that of the whole. -/
theorem reads_sequence {α : Type} {body : Reader α} {items : List Item} {v : α}
    (h : Reads body (encodeAll items) v)
    (hlen : (Item.sequence items).encode.length < lengthLimit) :
    Reads (Reader.inSequence body) (Item.sequence items).encode v := by
  rw [Item.encode, length_element] at hlen
  exact h.readsAll.inSequence (by omega)

theorem decode_of_reads {α : Type} {r : Reader α} {der : Bytes} {v : α} (h : Reads r der v) :
    decode r der = .ok v := h.readsAll.decode

end ThresholdKeys.Der
