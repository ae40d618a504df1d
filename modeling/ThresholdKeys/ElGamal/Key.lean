import ThresholdKeys.Der.Reader
import ThresholdKeys.ElGamal.Group

/-!
# ElGamal keys

An election has parameters: a group, a generator and an identifier. Its public key is a residue, its
private key an exponent below the order of the group. The same type holds the key of the election
and the shares of it.

The types hold what the constructors check, so that every key that exists has a public key and an
encoding that is read back.
-/

namespace ThresholdKeys.ElGamal

open Der

/-- A group with a generator, and the election that they are for. -/
structure Parameters where
  group : Group
  generator : Nat
  electionId : String
  generates : group.isGenerator generator = true
  deriving DecidableEq

namespace Parameters

/-- The parameters, if the generator is one. -/
def of (group : Group) (generator : Nat) (electionId : String) :
    Outcome ArithmeticError Parameters :=
  if h : group.isGenerator generator = true then .ok ⟨group, generator, electionId, h⟩
  else .error .notElement

/-- Parameters with a new group of `bits` binary digits and a random generator, the square of a
random number. -/
def generate (bits : Nat) (electionId : String) : Proc Source ArithmeticError Parameters := do
  let group ← Group.generate bits 100000
  Proc.search do
    let root ← randomNonzeroBelow group.modulus
    let generator := group.pow root 2
    return if h : group.isGenerator generator = true then some ⟨group, generator, electionId, h⟩
      else none

/-- The parameters as an element: the algorithm, and the modulus, the generator and the election. -/
def item (ps : Parameters) : Item :=
  .sequence [.identifier elGamalIdentifier,
    .sequence [.integer ps.group.modulus, .integer ps.generator, .utf8String ps.electionId]]

/-- The encoding of the parameters. -/
def toDer (ps : Parameters) : Bytes := ps.item.encode

/-- Reads parameters and checks them, apart from the primes. -/
def reader : Reader Parameters := do
  let (p, generator, electionId) ← Reader.inSequence do
    Reader.identifier elGamalIdentifier
    Reader.inSequence do
      let p ← Reader.integer
      let generator ← Reader.integer
      let electionId ← Reader.utf8String
      return (p, generator, electionId)
  let group ← (Group.ofTrusted p).mapError fun _ => DerError.badValue
  (of group generator electionId).mapError fun _ => DerError.badValue

/-- The parameters that a string of octets encodes. -/
def ofDer (der : Bytes) : Outcome DerError Parameters := decode reader der

end Parameters

/-- A public key: a residue. -/
structure PublicKey where
  parameters : Parameters
  key : Nat
  isResidue : parameters.group.isResidue key = true
  deriving DecidableEq

namespace PublicKey

/-- The public key, if it is a residue. -/
def of (parameters : Parameters) (key : Nat) : Outcome ArithmeticError PublicKey :=
  if h : parameters.group.isResidue key = true then .ok ⟨parameters, key, h⟩
  else .error .notElement

/-- The key as an element: its parameters and the residue. -/
def item (pk : PublicKey) : Item := .sequence [pk.parameters.item, .integer pk.key]

/-- The encoding of the key. -/
def toDer (pk : PublicKey) : Bytes := pk.item.encode

/-- The key that a string of octets encodes. -/
def ofDer (der : Bytes) : Outcome DerError PublicKey := do
  let (parameters, key) ← decode (Reader.inSequence do
    let parameters ← Parameters.reader
    let key ← Reader.integer
    return (parameters, key)) der
  (of parameters key).mapError fun _ => DerError.badValue

end PublicKey

/-- A private key, or a share of one: an exponent below the order of the group. -/
structure PrivateKey where
  parameters : Parameters
  secret : Nat
  secret_lt : secret < parameters.group.order
  deriving DecidableEq

namespace PrivateKey

/-- The private key, if the exponent is in range. -/
def of (parameters : Parameters) (secret : Nat) : Outcome ArithmeticError PrivateKey :=
  if h : secret < parameters.group.order then .ok ⟨parameters, secret, h⟩ else .error .notElement

/-- The public key that belongs to a private one. -/
def publicKey (sk : PrivateKey) : PublicKey where
  parameters := sk.parameters
  key := sk.parameters.group.pow sk.parameters.generator sk.secret
  isResidue := by
    have h := sk.parameters.generates
    rw [Group.isGenerator, Bool.and_eq_true] at h
    exact Group.isResidue_pow h.2 _

/-- The key as an element: a version, the parameters and the exponent. -/
def item (sk : PrivateKey) : Item :=
  .sequence [.integer 0, sk.parameters.item, .integer sk.secret]

/-- The encoding of the key. -/
def toDer (sk : PrivateKey) : Bytes := sk.item.encode

/-- The key that a string of octets encodes. -/
def ofDer (der : Bytes) : Outcome DerError PrivateKey := do
  let (parameters, secret) ← decode (Reader.inSequence do
    let version ← Reader.smallInteger
    if version ≠ 0 then throw .badValue
    else
      let parameters ← Parameters.reader
      let secret ← Reader.integer
      return (parameters, secret)) der
  (of parameters secret).mapError fun _ => DerError.badValue

end PrivateKey

end ThresholdKeys.ElGamal
