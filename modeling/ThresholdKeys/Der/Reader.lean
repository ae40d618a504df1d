import ThresholdKeys.Cause
import ThresholdKeys.Der.Item
import ThresholdKeys.Procedure

/-!
# Elements of DER, read

A reader is a procedure on the octets that are still unread. It takes one element after the other:
if the tag or the length of an element is wrong, nothing is consumed; if its content is no value of
its type, the element is consumed and the reading refused. `decode` reads a whole string and
refuses what is left over.
-/

namespace ThresholdKeys.Der

/-- A procedure on unread octets. -/
abbrev Reader (α : Type) : Type := Proc Bytes DerError α

/-- The length that a field announces, given the first octet of the field, and what follows the
field. The long form has one to eight length octets and is only for lengths from 128 on. -/
def readLength (first : UInt8) (rest : Bytes) : Outcome DerError (Nat × Bytes) :=
  if first < 0x80 then .ok (first.toNat, rest)
  else
    let count := first.toNat - 0x80
    let length := Bytes.toNat (rest.take count)
    if count = 0 ∨ 8 < count ∨ rest.length < count then .error .badLength
    else if length < 0x80 then .error .badLength
    else .ok (length, rest.drop count)

/-- Splits off the content of an element with the tag that is expected. -/
def splitElement (expected : UInt8) : Bytes → Outcome DerError (Bytes × Bytes)
  | [] => .error .truncated
  | tag :: rest =>
    if tag = expected then
      match rest with
      | [] => .error .truncated
      | first :: rest => do
        let (length, rest) ← readLength first rest
        if rest.length < length then .error .truncated
        else .ok (rest.take length, rest.drop length)
    else .error (.unexpectedTag expected tag)

namespace Reader

/-- Reads an element; on failure nothing is consumed. -/
def element (expected : UInt8) : Reader Bytes := fun _ der =>
  match splitElement expected der with
  | .ok (content, rest) => ⟨.ok content, rest, []⟩
  | .error e => ⟨.error e, der, []⟩
  | .fault => ⟨.fault, der, []⟩
  | .stalled => ⟨.stalled, der, []⟩

/-- Reads an integer that is not negative. -/
def integer : Reader Nat := do
  let content ← element integerTag
  match content with
  | [] => throw .badValue
  | top :: _ => if top < 0x80 then return Bytes.toNat content else throw .badValue

/-- Reads an integer below `2 ^ 64`. -/
def smallInteger : Reader Nat := do
  let value ← integer
  if value < 2 ^ 64 then return value else throw .badValue

/-- Reads an octet string. -/
def octetString : Reader Bytes := element octetStringTag

/-- Reads a bit string without unused bits. -/
def bitString : Reader Bytes := do
  match ← element bitStringTag with
  | 0 :: content => return content
  | _ => throw .badValue

/-- Reads a text. -/
def utf8String : Reader String := do
  match Bytes.text? (← element utf8StringTag) with
  | some text => return text
  | none => throw .badValue

/-- Reads an object identifier that has to be the expected one. -/
def identifier (expected : Bytes) : Reader Unit := do
  let content ← element identifierTag
  if content = expected then return () else throw .unknownAlgorithm

/-- Reads a null. -/
def null : Reader Unit := do
  match ← element nullTag with
  | [] => return ()
  | _ => throw .badValue

/-- Reads the content of a sequence. -/
def sequence : Reader Bytes := element sequenceTag

/-- Whether everything has been read. -/
def isEmpty : Reader Bool := do return (← get).isEmpty

/-- Refuses octets that are left over. -/
def finish : Reader Unit := do
  match ← get with
  | [] => return ()
  | _ => throw .trailingData

/-- Reads a sequence with a reader for its content, which has to read all of it. -/
def inSequence {α : Type} (body : Reader α) : Reader α := do
  let content ← sequence
  Proc.apart content do
    let value ← body
    finish
    return value

/-- Reads elements until nothing is left, at most `rounds` of them. -/
def upTo {α : Type} (reader : Reader α) : (rounds : Nat) → Reader (List α)
  | 0 => do
    if ← isEmpty then return []
    else Proc.lift .stalled
  | rounds + 1 => do
    if ← isEmpty then return []
    else
      let value ← reader
      let rest ← upTo reader rounds
      return value :: rest

/-- Reads elements until nothing is left. As every element takes up octets, there are no more of
them than octets. -/
def all {α : Type} (reader : Reader α) : Reader (List α) := do
  let rest ← get
  upTo reader rest.length

end Reader

/-- Reads a whole string of octets. -/
def decode {α : Type} (reader : Reader α) (der : Bytes) : Outcome DerError α :=
  (Proc.run (do
    let value ← reader
    Reader.finish
    return value) 0 der).outcome

end ThresholdKeys.Der
