import ThresholdKeys.Der.Reader

/-!
# What a token keeps

A token keeps blobs under identifiers, each with an authorization tag and the index of the share
that it holds. Records are kept in the order of their identifiers, one for each. A blob is written
once: storing under an identifier that is taken is refused, and reading and removing take the tag
that it was stored with.
-/

namespace ThresholdKeys

/-- A blob that was read from a token, with the index of its share. -/
structure IndexedBlob where
  index : Nat
  blob : Bytes
  deriving DecidableEq, Repr

/-- What a token keeps under an identifier. -/
structure Record where
  identifier : Bytes
  tag : Bytes
  index : Nat
  blob : Bytes
  deriving DecidableEq, Repr

/-- Whether a string of octets comes before another one in the order of dictionaries. -/
def Bytes.before : Bytes → Bytes → Bool
  | [], [] => false
  | [], _ :: _ => true
  | _ :: _, [] => false
  | x :: a, y :: b => x < y || (x = y && before a b)

/-- The records of a token. -/
abbrev Records : Type := List Record

namespace Records

/-- The record with an identifier. -/
def lookup? (rs : Records) (identifier : Bytes) : Option Record :=
  rs.find? (·.identifier = identifier)

/-- Puts a record in its place; one with the same identifier is replaced. -/
def insert (r : Record) : Records → Records
  | [] => [r]
  | s :: rest =>
    if r.identifier = s.identifier then r :: rest
    else if r.identifier.before s.identifier then r :: s :: rest
    else s :: insert r rest

/-- Drops the record with an identifier. -/
def erase (rs : Records) (identifier : Bytes) : Records := rs.filter (·.identifier ≠ identifier)

/-- The records with a new one. -/
def store (rs : Records) (r : Record) : Outcome TokenError Records :=
  match rs.lookup? r.identifier with
  | some _ => .error .alreadyExists
  | none => .ok (insert r rs)

/-- The blob under an identifier. -/
def get (rs : Records) (tag identifier : Bytes) : Outcome TokenError IndexedBlob :=
  match rs.lookup? identifier with
  | none => .error .notFound
  | some r => if r.tag = tag then .ok ⟨r.index, r.blob⟩ else .error .wrongTag

/-- The records without the one under an identifier, or nothing if there is none. -/
def remove (rs : Records) (tag identifier : Bytes) : Outcome TokenError (Option Records) :=
  match rs.lookup? identifier with
  | none => .ok none
  | some r => if r.tag = tag then .ok (some (rs.erase identifier)) else .error .wrongTag

/-! ## Encoding -/

open Der

/-- A record as an element. -/
def recordItem (r : Record) : Item :=
  .sequence [.octetString r.identifier, .octetString r.tag, .integer r.index, .octetString r.blob]

/-- The encoding of records: one sequence of them all. -/
def toDer (rs : Records) : Bytes := (Item.sequence (rs.map recordItem)).encode

/-- Reads a record. The index has to fit into 32 bits. -/
def recordReader : Reader Record := Reader.inSequence do
  let identifier ← Reader.octetString
  let tag ← Reader.octetString
  let index ← Reader.smallInteger
  let blob ← Reader.octetString
  if index < 2 ^ 32 then return ⟨identifier, tag, index, blob⟩ else throw .badValue

/-- The records that a string of octets encodes; of those with one identifier the last counts. -/
def ofDer (der : Bytes) : Outcome DerError Records := do
  let rs ← decode (Reader.inSequence (Reader.all recordReader)) der
  return rs.foldl (fun kept r => insert r kept) []

end Records

end ThresholdKeys
