import ThresholdKeys.Bytes

/-!
# Elements of DER, written

Keys, shares, ciphertexts and proofs are trees of the few element types below. `Item.encode` writes
a tree: every element is its tag, its length in the shortest form and its content, so that equal
trees, and only equal ones, have equal encodings as long as nothing is inserted `raw`.
-/

namespace ThresholdKeys.Der

/-! ## Tags and identifiers -/

def integerTag : UInt8 := 0x02
def bitStringTag : UInt8 := 0x03
def octetStringTag : UInt8 := 0x04
def nullTag : UInt8 := 0x05
def identifierTag : UInt8 := 0x06
def utf8StringTag : UInt8 := 0x0c
def sequenceTag : UInt8 := 0x30

/-- The content of the identifier 1.2.840.113549.1.1.1, RSA encryption. -/
def rsaIdentifier : Bytes := [0x2a, 0x86, 0x48, 0x86, 0xf7, 0x0d, 0x01, 0x01, 0x01]

/-- The content of the identifier 1.3.6.1.4.1.3029.2.1, ElGamal modulo a prime. -/
def elGamalIdentifier : Bytes := [0x2b, 0x06, 0x01, 0x04, 0x01, 0x97, 0x55, 0x02, 0x01]

/-! ## Elements -/

/-- The length field for `n` octets of content: one octet below 128, else the number of length
octets with the top bit set and the length octets themselves. -/
def lengthField (n : Nat) : Bytes :=
  if n < 0x80 then [UInt8.ofNat n]
  else UInt8.ofNat (0x80 + byteLength n) :: Bytes.ofNat n

/-- An element with its tag and content. -/
def element (tag : UInt8) (content : Bytes) : Bytes :=
  tag :: (lengthField content.length ++ content)

/-- The content of an integer: the shortest form whose top bit is clear. -/
def integerContent (n : Nat) : Bytes := Bytes.fixed (bitLength n / 8 + 1) n

/-- A tree of elements. -/
inductive Item where
  /-- A number that is not negative. -/
  | integer (value : Nat)
  | octetString (content : Bytes)
  /-- A bit string without unused bits. -/
  | bitString (content : Bytes)
  | utf8String (text : String)
  /-- An object identifier, given by its content. -/
  | identifier (content : Bytes)
  | null
  /-- Octets that are an encoding already. -/
  | raw (encoded : Bytes)
  | sequence (items : List Item)

mutual

/-- The encoding of a tree. -/
def Item.encode : Item → Bytes
  | .integer value => element integerTag (integerContent value)
  | .octetString content => element octetStringTag content
  | .bitString content => element bitStringTag (0 :: content)
  | .utf8String text => element utf8StringTag (Bytes.ofText text)
  | .identifier content => element identifierTag content
  | .null => element nullTag []
  | .raw encoded => encoded
  | .sequence items => element sequenceTag (encodeAll items)

/-- The encodings of a list of trees, one after the other. -/
def encodeAll : List Item → Bytes
  | [] => []
  | item :: rest => item.encode ++ encodeAll rest

end

end ThresholdKeys.Der
