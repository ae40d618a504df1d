import ThresholdKeys.Proofs.Der.Sizes

/-!
# Trees of elements are read back

An `Entry` is a tree as it is written, call by call; `Entry.read` reads with the matching calls and
`readList` asks before each element, and after the last one, whether everything has been read. What
was written is what is read, at every node: a list is at its end after its last element and not
before, and no reader has octets left over (`decode_encodeAll`).

The one bound is that of a length field: every content is shorter than `2 ^ 64` octets. It is asked
of the outermost elements, since a content contains those of the elements inside it.
-/

namespace ThresholdKeys.Der

/-! ## Writing and reading -/

/-- A tree as it is written, one call for each node. -/
inductive Entry where
  | integer (value : Nat)
  /-- A number of 64 binary digits. -/
  | smallInteger (value : UInt64)
  | octetString (content : Bytes)
  | bitString (content : Bytes)
  | utf8String (text : String)
  | identifier (content : Bytes)
  | null
  | sequence (entries : List Entry)

mutual

/-- What the calls write. -/
def Entry.item : Entry → Item
  | .integer value => .integer value
  | .smallInteger value => .integer value.toNat
  | .octetString content => .octetString content
  | .bitString content => .bitString content
  | .utf8String text => .utf8String text
  | .identifier content => .identifier content
  | .null => .null
  | .sequence entries => .sequence (itemsOf entries)

/-- What calls in sequence write. -/
def itemsOf : List Entry → List Item
  | [] => []
  | entry :: rest => entry.item :: itemsOf rest

end

/-- What a reader finds in a tree. -/
inductive Finding where
  | number (value : Nat)
  | octets (content : Bytes)
  | text (value : String)
  /-- An element that has the one content it may have. -/
  | expected
  /-- The elements of a list, each with the answer whether everything had been read before it, and
  the answer after the last one. -/
  | list (elements : List (Bool × Finding)) (atEnd : Bool)

mutual

/-- Reads a tree with the calls that match those it was written with. -/
def Entry.read : Entry → Reader Finding
  | .integer _ => do return .number (← Reader.integer)
  | .smallInteger _ => do return .number (← Reader.smallInteger)
  | .octetString _ => do return .octets (← Reader.octetString)
  | .bitString _ => do return .octets (← Reader.bitString)
  | .utf8String _ => do return .text (← Reader.utf8String)
  | .identifier content => do
    Reader.identifier content
    return .expected
  | .null => do
    Reader.null
    return .expected
  | .sequence entries => Reader.inSequence do
    let elements ← readEach entries
    let atEnd ← Reader.isEmpty
    return .list elements atEnd

/-- Reads trees one after the other; before each, asks whether everything has been read. -/
def readEach : List Entry → Reader (List (Bool × Finding))
  | [] => return []
  | entry :: rest => do
    let empty ← Reader.isEmpty
    let found ← entry.read
    let others ← readEach rest
    return (empty, found) :: others

end

/-- Reads trees one after the other up to the end. -/
def readList (entries : List Entry) : Reader Finding := do
  let elements ← readEach entries
  let atEnd ← Reader.isEmpty
  return .list elements atEnd

mutual

/-- What was written. -/
def Entry.finding : Entry → Finding
  | .integer value => .number value
  | .smallInteger value => .number value.toNat
  | .octetString content => .octets content
  | .bitString content => .octets content
  | .utf8String text => .text text
  | .identifier _ => .expected
  | .null => .expected
  | .sequence entries => .list (findingsOf entries) true

/-- What was written one after the other, where no list is at its end before an element. -/
def findingsOf : List Entry → List (Bool × Finding)
  | [] => []
  | entry :: rest => (false, entry.finding) :: findingsOf rest

end

/-! ## Contents -/

/-- The tag of the outermost element. -/
def Entry.tag : Entry → UInt8
  | .integer _ => integerTag
  | .smallInteger _ => integerTag
  | .octetString _ => octetStringTag
  | .bitString _ => bitStringTag
  | .utf8String _ => utf8StringTag
  | .identifier _ => identifierTag
  | .null => nullTag
  | .sequence _ => sequenceTag

/-- The content of the outermost element. -/
def Entry.content : Entry → Bytes
  | .integer value => integerContent value
  | .smallInteger value => integerContent value.toNat
  | .octetString content => content
  | .bitString content => 0 :: content
  | .utf8String text => Bytes.ofText text
  | .identifier content => content
  | .null => []
  | .sequence entries => encodeAll (itemsOf entries)

theorem Entry.encode_item (e : Entry) : e.item.encode = element e.tag e.content := by
  cases e <;> rw [Entry.item, Item.encode] <;> rfl

/-- A content contains the contents of the elements in it. -/
theorem length_content_lt {es : List Entry} {e : Entry} (h : e ∈ es) :
    e.content.length < (encodeAll (itemsOf es)).length := by
  induction es with
  | nil => cases h
  | cons head rest ih =>
    rw [itemsOf, encodeAll, List.length_append]
    rcases List.mem_cons.1 h with rfl | h
    · have hle := le_length_element e.tag e.content
      rw [e.encode_item]
      omega
    · have hlt := ih h
      omega

/-! ## Reading back -/

/-- Before an element, not everything has been read. -/
theorem Entry.isEmpty_before (e : Entry) (rest : Bytes) (k : Nat) :
    Reader.isEmpty k (e.item.encode ++ rest) = ⟨.ok false, e.item.encode ++ rest, []⟩ := by
  rw [e.encode_item]
  rfl

/-- After the last element, everything has been read. -/
theorem Reads.list {elements : Reader (List (Bool × Finding))} {b : Bytes}
    {found : List (Bool × Finding)} (h : Reads elements b found) :
    ReadsAll (do
      let found ← elements
      let atEnd ← Reader.isEmpty
      return Finding.list found atEnd) b (.list found true) := by
  have hend : ReadsAll (do
      let atEnd ← Reader.isEmpty
      return Finding.list found atEnd) [] (.list found true) := fun _ => rfl
  have hwhole := h.bind_readsAll (f := fun found => do
    let atEnd ← Reader.isEmpty
    return Finding.list found atEnd) hend
  rwa [List.append_nil] at hwhole

mutual

theorem Entry.reads : (e : Entry) → e.content.length < lengthLimit →
    Reads e.read e.item.encode e.finding
  | .integer _, h => (reads_integer h).bind_nil (Reads.pure _)
  | .smallInteger value, _ => (reads_smallInteger value.toNat_lt).bind_nil (Reads.pure _)
  | .octetString _, h => (reads_octetString h).bind_nil (Reads.pure _)
  | .bitString _, h => (reads_bitString h).bind_nil (Reads.pure _)
  | .utf8String _, h => (reads_utf8String h).bind_nil (Reads.pure _)
  | .identifier _, h => (reads_identifier h).bind_nil (Reads.pure _)
  | .null, _ => reads_null.bind_nil (Reads.pure _)
  | .sequence entries, h => by
    rw [Entry.read, Entry.item, Entry.finding]
    have hinner : ∀ e ∈ entries, e.content.length < lengthLimit := fun e he =>
      Nat.lt_trans (length_content_lt he) h
    exact (reads_each entries hinner).list.inSequence h

theorem reads_each : (es : List Entry) → (∀ e ∈ es, e.content.length < lengthLimit) →
    Reads (readEach es) (encodeAll (itemsOf es)) (findingsOf es)
  | [], _ => Reads.pure []
  | e :: rest, h => by
    have hread := e.reads (h e List.mem_cons_self)
    have hrest := reads_each rest fun e' he' => h e' (List.mem_cons_of_mem _ he')
    have hboth := hread.bind (f := fun found => do
      let others ← readEach rest
      return (false, found) :: others) (hrest.bind_nil (Reads.pure _))
    -- the question is answered before the element is read, and consumes nothing
    intro k tail
    have hempty := e.isEmpty_before (encodeAll (itemsOf rest) ++ tail) k
    rw [← List.append_assoc] at hempty
    rw [readEach, itemsOf, encodeAll, findingsOf, Proc.bind_apply_ok hempty, hboth k tail]
    rfl

end

/-- **Reading undoes writing**, for trees of every shape: each node is found as it was written, each
list ends after its last element and not before, and nothing is left over. -/
theorem decode_encodeAll (entries : List Entry)
    (h : ∀ e ∈ entries, e.content.length < lengthLimit) :
    decode (readList entries) (encodeAll (itemsOf entries))
      = .ok (.list (findingsOf entries) true) :=
  (reads_each entries h).list.decode

/-- A tree with contents around the end of the short form, numbers that need a leading zero, and
lists in lists. -/
def borderTree : List Entry :=
  [.integer 0, .sequence [.smallInteger 0x8000000000000000, .sequence [], .null],
    .octetString (List.replicate 127 1), .bitString (List.replicate 127 2),
    .sequence [.utf8String "élection", .identifier rsaIdentifier, .integer 128]]

theorem decode_encodeAll_borderTree :
    (∀ e ∈ borderTree, e.content.length < lengthLimit) ∧
      decode (readList borderTree) (encodeAll (itemsOf borderTree)) = .ok (.list
        [(false, .number 0),
          (false, .list [(false, .number 0x8000000000000000), (false, .list [] true),
            (false, .expected)] true),
          (false, .octets (List.replicate 127 1)), (false, .octets (List.replicate 127 2)),
          (false, .list [(false, .text "élection"), (false, .expected), (false, .number 128)]
            true)] true) := by
  have h : ∀ e ∈ borderTree, e.content.length < lengthLimit := by decide +kernel
  exact ⟨h, decode_encodeAll borderTree h⟩

end ThresholdKeys.Der
