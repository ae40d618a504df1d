import ThresholdKeys.Der.Reader
import ThresholdKeys.Proofs.Octets

/-!
# What an element is

`LengthField field n` and `IsElement tag octets content` are the grammar of elements: a tag, a field
that announces the length of the content, and the content. A reader of elements accepts exactly what
follows this grammar (`splitElement_eq_ok_iff`), and a length, announced by at most eight octets,
fits into a machine word all the time it is put together (`toNat_accumulated`).

`ReadsElement tag refused r` says how the reader `r` of one element may end. If there is no element
with the tag in front, the refusal is structural and nothing is consumed. If there is one, exactly
that element is consumed, whether its content is a value or is refused for a cause in `refused`. The
typed readers are all readers of one element with a judgement on its content behind it
(`ReadsElement.bind`).
-/

namespace ThresholdKeys

/-- A cause that says that no element with the expected tag stands here. -/
inductive DerError.IsStructural : DerError → Prop
  | truncated : IsStructural truncated
  | unexpectedTag (expected found : UInt8) : IsStructural (unexpectedTag expected found)
  | badLength : IsStructural badLength

namespace Der

/-! ## Length fields -/

/-- The octets announce a length: below 128 in one octet, else in one to eight octets behind their
number. Zeros in front of the length are allowed. -/
inductive LengthField : Bytes → Nat → Prop
  | short (first : UInt8) (h : first < 0x80) : LengthField [first] first.toNat
  | long (octets : Bytes) (hpos : 1 ≤ octets.length) (hle : octets.length ≤ 8)
      (hmin : 0x80 ≤ Bytes.toNat octets) :
      LengthField (UInt8.ofNat (0x80 + octets.length) :: octets) (Bytes.toNat octets)

/-- The octets are an element with this tag and this content. -/
def IsElement (tag : UInt8) (octets content : Bytes) : Prop :=
  ∃ field, LengthField field content.length ∧ octets = tag :: (field ++ content)

theorem LengthField.exists_cons {field : Bytes} {n : Nat} (h : LengthField field n) :
    ∃ first tail, field = first :: tail := by
  cases h <;> exact ⟨_, _, rfl⟩

/-- The first octet of a long field says how many octets follow. -/
theorem toNat_longForm {count : Nat} (h : count ≤ 8) :
    (UInt8.ofNat (0x80 + count)).toNat = 0x80 + count := by
  rw [UInt8.toNat_ofNat']
  omega

theorem readLength_short {first : UInt8} (h : first < 0x80) (rest : Bytes) :
    readLength first rest = .ok (first.toNat, rest) := by
  rw [readLength, if_pos h]

theorem readLength_long {octets : Bytes} (hpos : 1 ≤ octets.length) (hle : octets.length ≤ 8)
    (hmin : 0x80 ≤ Bytes.toNat octets) (rest : Bytes) :
    readLength (UInt8.ofNat (0x80 + octets.length)) (octets ++ rest)
      = .ok (Bytes.toNat octets, rest) := by
  have hfirst := toNat_longForm hle
  have hlong : ¬ UInt8.ofNat (0x80 + octets.length) < 0x80 := by
    rw [UInt8.lt_iff_toNat_lt, hfirst]
    exact Nat.not_lt.2 (Nat.le_add_right _ _)
  rw [readLength, if_neg hlong]
  dsimp only
  rw [hfirst, Nat.add_sub_cancel_left, List.take_left, List.drop_left,
    if_neg (by rw [List.length_append]; omega), if_neg (by omega)]

/-- A length is read from a field for it, and from nothing else. -/
theorem readLength_eq_ok_iff {first : UInt8} {der rest : Bytes} {n : Nat} :
    readLength first der = .ok (n, rest) ↔
      ∃ octets, der = octets ++ rest ∧ LengthField (first :: octets) n := by
  constructor
  · intro h
    unfold readLength at h
    split at h
    · next hshort =>
      cases h
      exact ⟨[], rfl, .short first hshort⟩
    · next hlong =>
      dsimp only at h
      split at h
      · cases h
      · next hcount =>
        split at h
        · cases h
        · next hmin =>
          rw [Outcome.ok.injEq, Prod.mk.injEq] at h
          obtain ⟨rfl, rfl⟩ := h
          have hfirst : 0x80 ≤ first.toNat :=
            Nat.not_lt.1 fun hlt => hlong (UInt8.lt_iff_toNat_lt.2 hlt)
          have hlen : (der.take (first.toNat - 0x80)).length = first.toNat - 0x80 :=
            List.length_take_of_le (by omega)
          have hfield := LengthField.long (der.take (first.toNat - 0x80)) (by omega)
            (by omega) (by omega)
          rw [hlen, Nat.add_sub_cancel' hfirst, UInt8.ofNat_toNat] at hfield
          exact ⟨_, (List.take_append_drop _ _).symm, hfield⟩
  · rintro ⟨octets, rfl, hfield⟩
    cases hfield with
    | short _ h => exact readLength_short h rest
    | long _ hpos hle hmin => exact readLength_long hpos hle hmin rest

/-- What is no length field is refused for its length. -/
theorem readLength_cases (first : UInt8) (der : Bytes) :
    (∃ n rest, readLength first der = .ok (n, rest)) ∨
      readLength first der = .error .badLength := by
  unfold readLength
  split
  · exact .inl ⟨_, _, rfl⟩
  · dsimp only
    split
    · exact .inr rfl
    · split
      · exact .inr rfl
      · exact .inl ⟨_, _, rfl⟩

/-! ## The length in a machine word -/

/-- Puts an octet behind a length in a word of 64 binary digits. -/
def shiftIn (length : UInt64) (octet : UInt8) : UInt64 := length <<< 8 ||| octet.toUInt64

/-- The number that length octets are put together to in a word. -/
def accumulated (octets : Bytes) : UInt64 := octets.foldl shiftIn 0

theorem toNat_lt_word {octets : Bytes} (h : octets.length ≤ 8) : Bytes.toNat octets < 2 ^ 64 :=
  calc Bytes.toNat octets
      < 256 ^ octets.length := Bytes.toNat_lt octets
    _ ≤ 256 ^ 8 := Nat.pow_le_pow_right (by decide) h
    _ = 2 ^ 64 := by decide

/-- An octet is put behind a length that leaves room for it. -/
theorem toNat_shiftIn {length : UInt64} (h : length.toNat < 2 ^ 56) (octet : UInt8) :
    (shiftIn length octet).toNat = length.toNat * 256 + octet.toNat := by
  have hoctet : octet.toNat < 2 ^ 8 := octet.toNat_lt
  have hshift : length.toNat <<< 8 = length.toNat * 256 := Nat.shiftLeft_eq _ 8
  rw [shiftIn, UInt64.toNat_or, UInt64.toNat_shiftLeft, UInt8.toNat_toUInt64,
    show (8 : UInt64).toNat % 64 = 8 from rfl, hshift, Nat.mod_eq_of_lt (by omega), ← hshift,
    ← Nat.shiftLeft_add_eq_or_of_lt hoctet]

/-- Octets are put behind a length as long as the whole fits into the word. -/
theorem toNat_foldl_shiftIn (octets : Bytes) {length : UInt64}
    (h : length.toNat * 256 ^ octets.length + Bytes.toNat octets < 2 ^ 64) :
    (octets.foldl shiftIn length).toNat
      = length.toNat * 256 ^ octets.length + Bytes.toNat octets := by
  induction octets generalizing length with
  | nil => simp
  | cons octet rest ih =>
    have hpow : 1 ≤ 256 ^ rest.length := Nat.one_le_pow _ _ (by decide)
    have hroom : length.toNat * 256 ≤ length.toNat * 256 ^ (rest.length + 1) :=
      Nat.mul_le_mul_left _ (Nat.pow_succ' ▸ Nat.le_mul_of_pos_right 256 hpow)
    have hsum : length.toNat * 256 ^ (rest.length + 1)
          + (octet.toNat * 256 ^ rest.length + Bytes.toNat rest)
        = (length.toNat * 256 + octet.toNat) * 256 ^ rest.length + Bytes.toNat rest := by
      rw [Nat.pow_succ', ← Nat.mul_assoc, Nat.add_mul, Nat.add_assoc]
    rw [List.length_cons, Bytes.toNat_cons] at h ⊢
    have hstep := toNat_shiftIn (by omega : length.toNat < 2 ^ 56) octet
    rw [List.foldl_cons, ih (by rw [hstep]; omega), hstep, hsum]

/-- Eight octets fit into a word, so nothing is shifted out of it. -/
theorem toNat_accumulated {octets : Bytes} (h : octets.length ≤ 8) :
    (accumulated octets).toNat = Bytes.toNat octets := by
  have hfits : (0 : UInt64).toNat * 256 ^ octets.length + Bytes.toNat octets < 2 ^ 64 := by
    simpa using toNat_lt_word h
  simpa [accumulated] using toNat_foldl_shiftIn octets hfits

/-! ## Elements -/

theorem splitElement_cons (tag first : UInt8) (der : Bytes) :
    splitElement tag (tag :: first :: der) = (readLength first der >>= fun (length, rest) =>
      if rest.length < length then .error .truncated
      else .ok (rest.take length, rest.drop length)) := by
  rw [splitElement, if_pos rfl]

/-- Exactly the elements with the tag are split off. -/
theorem splitElement_eq_ok_iff {tag : UInt8} {der content rest : Bytes} :
    splitElement tag der = .ok (content, rest) ↔
      ∃ octets, IsElement tag octets content ∧ der = octets ++ rest := by
  constructor
  · intro h
    match der, h with
    | x :: first :: der, h =>
      by_cases htag : x = tag
      · rw [htag, splitElement_cons] at h
        obtain ⟨⟨n, after⟩, hread, htake⟩ := Outcome.bind_eq_ok.1 h
        obtain ⟨octets, rfl, hfield⟩ := readLength_eq_ok_iff.1 hread
        dsimp only at htake
        split at htake
        · cases htake
        · next hlen =>
          cases htake
          have hn : (after.take n).length = n := List.length_take_of_le (by omega)
          refine ⟨_, ⟨first :: octets, by rw [hn]; exact hfield, rfl⟩, ?_⟩
          simp [htag]
      · rw [splitElement, if_neg htag] at h
        cases h
    | [x], h =>
      rw [splitElement] at h
      split at h <;> cases h
  · rintro ⟨octets, ⟨field, hfield, rfl⟩, rfl⟩
    obtain ⟨first, tail, rfl⟩ := hfield.exists_cons
    have hread : readLength first (tail ++ (content ++ rest)) = _ :=
      readLength_eq_ok_iff.2 ⟨tail, rfl, hfield⟩
    rw [List.cons_append, List.cons_append, List.cons_append, List.append_assoc, splitElement_cons,
      hread, Outcome.ok_bind]
    dsimp only
    rw [if_neg (by simp), List.take_left, List.drop_left]

/-- Where no element with the tag stands, the refusal says so. -/
theorem splitElement_cases (tag : UInt8) (der : Bytes) :
    (∃ content rest, splitElement tag der = .ok (content, rest)) ∨
      ∃ e, e.IsStructural ∧ splitElement tag der = .error e := by
  match der with
  | [] => exact .inr ⟨_, .truncated, rfl⟩
  | x :: der =>
    by_cases htag : x = tag
    · subst htag
      cases der with
      | nil => exact .inr ⟨_, .truncated, if_pos rfl⟩
      | cons first der =>
        rw [splitElement_cons]
        rcases readLength_cases first der with ⟨n, rest, hread⟩ | hread
        · rw [hread, Outcome.ok_bind]
          dsimp only
          split
          · exact .inr ⟨_, .truncated, rfl⟩
          · exact .inl ⟨_, _, rfl⟩
        · exact .inr ⟨_, .badLength, by rw [hread, Outcome.error_bind]⟩
    · exact .inr ⟨_, .unexpectedTag tag x, if_neg htag⟩

/-! ## Readers of one element -/

/-- How the reading of one element with this tag ends: with a value or with a refusal of the content
behind the element, or with nothing consumed because there is no such element. -/
inductive ElementEnd {α : Type} (tag : UInt8) (refused : DerError → Prop) (der : Bytes) :
    Run Bytes DerError α → Prop
  | value {v : α} {octets content rest : Bytes} (h : IsElement tag octets content)
      (hder : der = octets ++ rest) : ElementEnd tag refused der ⟨.ok v, rest, []⟩
  | refusal {e : DerError} {octets content rest : Bytes} (he : refused e)
      (h : IsElement tag octets content) (hder : der = octets ++ rest) :
      ElementEnd tag refused der ⟨.error e, rest, []⟩
  | noElement {e : DerError} (he : e.IsStructural)
      (h : ∀ octets content rest, IsElement tag octets content → der ≠ octets ++ rest) :
      ElementEnd tag refused der ⟨.error e, der, []⟩

/-- Whatever is to be read, the reader ends as a reader of one element does. -/
def ReadsElement {α : Type} (tag : UInt8) (refused : DerError → Prop) (r : Reader α) : Prop :=
  ∀ k der, ElementEnd tag refused der (r k der)

/-- A step that reads nothing: it returns a value, or it refuses for such a cause. -/
def Judges {α : Type} (refused : DerError → Prop) (r : Reader α) : Prop :=
  ∀ k der, (∃ v, r k der = ⟨.ok v, der, []⟩) ∨ ∃ e, refused e ∧ r k der = ⟨.error e, der, []⟩

section Readers

variable {α β : Type} {tag : UInt8} {refused refused' : DerError → Prop} {r : Reader α}
  {f : α → Reader β}

theorem Judges.pure (v : α) : Judges refused (Pure.pure v : Reader α) := fun _ _ => .inl ⟨v, rfl⟩

theorem Judges.throw {e : DerError} (h : refused e) : Judges refused (throw e : Reader α) :=
  fun _ _ => .inr ⟨e, h, rfl⟩

theorem Judges.ite {p : Prop} [Decidable p] {r r' : Reader α} (h : Judges refused r)
    (h' : Judges refused r') : Judges refused (if p then r else r') := by
  split
  · exact h
  · exact h'

theorem element_eq_ok_iff {k : Nat} {der content rest : Bytes} {log : List LogRecord} :
    Reader.element tag k der = ⟨.ok content, rest, log⟩ ↔
      (∃ octets, IsElement tag octets content ∧ der = octets ++ rest) ∧ log = [] := by
  rw [← splitElement_eq_ok_iff]
  unfold Reader.element
  split
  all_goals
    next hsplit => simp [hsplit, eq_comm, and_assoc]

theorem readsElement_element (tag : UInt8) :
    ReadsElement tag (fun _ => False) (Reader.element tag) := by
  intro k der
  unfold Reader.element
  rcases splitElement_cases tag der with ⟨content, rest, hsplit⟩ | ⟨e, he, hsplit⟩
  · obtain ⟨octets, helement, hder⟩ := splitElement_eq_ok_iff.1 hsplit
    rw [hsplit]
    exact .value helement hder
  · rw [hsplit]
    refine .noElement he fun octets content rest helement hder => ?_
    rw [splitElement_eq_ok_iff.2 ⟨octets, helement, hder⟩] at hsplit
    cases hsplit

/-- A judgement on what one element held consumes nothing more. -/
theorem ReadsElement.bind (h : ReadsElement tag refused r) (hf : ∀ v, Judges refused' (f v))
    (hmono : ∀ e, refused e → refused' e) : ReadsElement tag refused' (r >>= f) := by
  intro k der
  have hr := h k der
  generalize hrun : r k der = run at hr
  cases hr with
  | @value v octets content rest helement hder =>
    rw [Proc.bind_apply_ok hrun]
    rcases hf v k rest with ⟨w, hw⟩ | ⟨e, he, hw⟩
    · rw [hw]
      exact .value helement hder
    · rw [hw]
      exact .refusal he helement hder
  | refusal he helement hder =>
    rw [Proc.bind_apply_error hrun]
    exact .refusal (hmono _ he) helement hder
  | noElement he hnone =>
    rw [Proc.bind_apply_error hrun]
    exact .noElement he hnone

/-- The same behind a reader that leaves the content alone. -/
theorem readsElement_judged {f : Bytes → Reader β} (hf : ∀ content, Judges refused (f content)) :
    ReadsElement tag refused (Reader.element tag >>= f) :=
  (readsElement_element tag).bind hf fun _ h => h.elim

end Readers

namespace Reader

theorem readsElement_integer : ReadsElement integerTag (· = .badValue) integer := by
  refine readsElement_judged fun content => ?_
  cases content with
  | nil => exact .throw rfl
  | cons top rest => exact .ite (.pure _) (.throw rfl)

theorem readsElement_smallInteger : ReadsElement integerTag (· = .badValue) smallInteger :=
  readsElement_integer.bind (fun _ => .ite (.pure _) (.throw rfl)) fun _ h => h

theorem readsElement_bitString : ReadsElement bitStringTag (· = .badValue) bitString := by
  refine readsElement_judged fun content => ?_
  split
  · exact .pure _
  · exact .throw rfl

theorem readsElement_utf8String : ReadsElement utf8StringTag (· = .badValue) utf8String := by
  refine readsElement_judged fun content => ?_
  split
  · exact .pure _
  · exact .throw rfl

theorem readsElement_identifier (expected : Bytes) :
    ReadsElement identifierTag (· = .unknownAlgorithm) (identifier expected) :=
  readsElement_judged fun _ => .ite (.pure _) (.throw rfl)

theorem readsElement_null : ReadsElement nullTag (· = .badValue) null := by
  refine readsElement_judged fun content => ?_
  split
  · exact .pure _
  · exact .throw rfl

end Reader

/-- **Exactly the elements are read**, from every string of octets. An element is accepted exactly
if it follows the grammar. While its length is put together, it fits into a word of 64 binary
digits, where nothing is lost. A reader whose refusal is structural has consumed nothing; one that
refuses the content has consumed that element and nothing else. -/
theorem elements_read_exactly (k : Nat) (der : Bytes) :
    (∀ tag content rest, Reader.element tag k der = ⟨.ok content, rest, []⟩ ↔
      ∃ octets, IsElement tag octets content ∧ der = octets ++ rest) ∧
    (∀ (first : UInt8) (after octets : Bytes), first.toNat - 0x80 ≤ 8 →
      octets <+: after.take (first.toNat - 0x80) →
        Bytes.toNat octets < 2 ^ 64 ∧ (accumulated octets).toNat = Bytes.toNat octets) ∧
    (∀ tag, ElementEnd tag (fun _ => False) der (Reader.element tag k der)) ∧
    ElementEnd octetStringTag (fun _ => False) der (Reader.octetString k der) ∧
    ElementEnd sequenceTag (fun _ => False) der (Reader.sequence k der) ∧
    ElementEnd integerTag (· = .badValue) der (Reader.integer k der) ∧
    ElementEnd integerTag (· = .badValue) der (Reader.smallInteger k der) ∧
    ElementEnd utf8StringTag (· = .badValue) der (Reader.utf8String k der) ∧
    (∀ expected, ElementEnd identifierTag (· = .unknownAlgorithm) der
      (Reader.identifier expected k der)) ∧
    ElementEnd nullTag (· = .badValue) der (Reader.null k der) ∧
    ElementEnd bitStringTag (· = .badValue) der (Reader.bitString k der) := by
  refine ⟨fun tag content rest => ?_, fun first after octets hcount hoctets => ?_,
    fun tag => readsElement_element tag k der, readsElement_element octetStringTag k der,
    readsElement_element sequenceTag k der, Reader.readsElement_integer k der,
    Reader.readsElement_smallInteger k der, Reader.readsElement_utf8String k der,
    fun expected => Reader.readsElement_identifier expected k der,
    Reader.readsElement_null k der, Reader.readsElement_bitString k der⟩
  · rw [element_eq_ok_iff, and_iff_left rfl]
  · have hlen : octets.length ≤ 8 := by
      have hle := hoctets.length_le
      rw [List.length_take] at hle
      omega
    exact ⟨toNat_lt_word hlen, toNat_accumulated hlen⟩

/-- A length just below `2 ^ 64` is announced in eight octets; what it announces is not there, and
nothing is consumed. -/
example : Reader.octetString 0 [0x04, 0x88, 0xff, 0xff, 0xff, 0xff, 0xff, 0xff, 0xff, 0xff, 0x01]
    = ⟨.error .truncated,
        [0x04, 0x88, 0xff, 0xff, 0xff, 0xff, 0xff, 0xff, 0xff, 0xff, 0x01], []⟩ := rfl

end Der

end ThresholdKeys
