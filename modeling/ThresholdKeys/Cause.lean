import ThresholdKeys.Bytes

/-!
# Causes of failure

What can be refused, layer by layer, and the text that says so. A cause of a lower layer is carried
inside one of the layer above; `ProtocolError.ofArithmetic` and `ProtocolError.ofSharing` restate
causes at the top so that entropy failures and share counts are reported in one way only.
-/

namespace ThresholdKeys

/-- Why a source gave no entropy. -/
inductive EntropyError where
  /-- It could not be set up: no sources, or an unreadable seed. -/
  | notReady
  /-- It is finite and has run dry. -/
  | exhausted
  /-- The device behind it reported an error. -/
  | readFailed
  /-- It was closed. -/
  | closed
  deriving DecidableEq, Repr

/-- The text of the cause. -/
def EntropyError.message : EntropyError → String
  | notReady => "entropy source could not be initialized"
  | exhausted => "finite entropy source is exhausted"
  | readFailed => "entropy source read failed"
  | closed => "entropy source is closed"

/-- Why a computation with numbers was refused. -/
inductive ArithmeticError where
  /-- The value has no inverse modulo the modulus. -/
  | notInvertible
  /-- A modulus or a bound is zero or of the wrong shape. -/
  | badModulus
  /-- The value is outside the group. -/
  | notElement
  /-- The value is in the group and not a quadratic residue. -/
  | notResidue
  /-- A plaintext does not fit the group. -/
  | messageTooLong
  /-- A decrypted block is not a padded message. -/
  | badPadding
  /-- A search for a prime gave up. -/
  | searchGaveUp
  /-- The point is not one of the interpolation points. -/
  | unknownIndex
  /-- The source failed while sampling. -/
  | entropy (cause : EntropyError)
  deriving DecidableEq, Repr

/-- The text of the cause. -/
def ArithmeticError.message : ArithmeticError → String
  | notInvertible => "value is not invertible"
  | badModulus => "invalid modulus"
  | notElement => "value is not a group element"
  | notResidue => "value is not a quadratic residue"
  | messageTooLong => "message does not fit the group"
  | badPadding => "invalid plaintext padding"
  | searchGaveUp => "search for a suitable prime gave up"
  | unknownIndex => "index is not part of the interpolation set"
  | entropy e => "entropy failure: " ++ e.message

/-- Why a DER encoding was refused. -/
inductive DerError where
  /-- The input ends inside an element. -/
  | truncated
  /-- Another element stands here. -/
  | unexpectedTag (expected found : UInt8)
  /-- The length field is malformed, indefinite or not in its short form. -/
  | badLength
  /-- Octets are left over after the last element. -/
  | trailingData
  /-- The algorithm identifier is not the expected one. -/
  | unknownAlgorithm
  /-- The content is no value of its type. -/
  | badValue
  deriving DecidableEq, Repr

/-- The text of the cause. -/
def DerError.message : DerError → String
  | truncated => "DER input truncated"
  | unexpectedTag expected found =>
    "expected DER tag 0x" ++ Bytes.hex [expected] ++ ", found 0x" ++ Bytes.hex [found]
  | badLength => "invalid DER length"
  | trailingData => "trailing data after DER element"
  | unknownAlgorithm => "unknown algorithm identifier"
  | badValue => "invalid DER value"

/-- Why a secret could not be shared or put together again. -/
inductive SharingError where
  /-- Too few parties for the threshold, or one of them is zero. -/
  | badParameters (parties threshold : Nat)
  /-- A share index is zero. -/
  | badIndex (index : Nat)
  /-- Two shares carry the same index. -/
  | duplicateIndex (index : Nat)
  /-- There are not enough shares. -/
  | tooFewShares (available required : Nat)
  /-- A quorum is empty or larger than the list of holders. -/
  | badQuorumSize (quorum holders : Nat)
  /-- The interpolation failed. -/
  | arithmetic (cause : ArithmeticError)
  deriving DecidableEq, Repr

/-- The text of the cause. -/
def SharingError.message : SharingError → String
  | badParameters parties threshold =>
    s!"invalid threshold parameters: {parties} parties, threshold {threshold}"
  | badIndex index => s!"invalid share index {index}"
  | duplicateIndex index => s!"duplicate share index {index}"
  | tooFewShares available required => s!"{available} shares available, {required} required"
  | badQuorumSize quorum holders => s!"quorum of {quorum} cannot be drawn from {holders} holders"
  | arithmetic e => e.message

/-- Why a token refused a call. -/
inductive TokenError where
  /-- Nothing is stored under the identifier. -/
  | notFound
  /-- The identifier is taken; blobs are written once. -/
  | alreadyExists
  /-- The blob was stored under another authorization tag. -/
  | wrongTag
  /-- The token could not be reached this time. -/
  | communication
  /-- The PIN does not open the token. -/
  | pinRejected
  /-- The storage behind the token failed. -/
  | storage
  /-- The contents of the token cannot be parsed. -/
  | corrupted
  /-- There is no token in the slot. -/
  | unknownSlot (slot : Nat)
  deriving DecidableEq, Repr

/-- The text of the cause. -/
def TokenError.message : TokenError → String
  | notFound => "blob not found on token"
  | alreadyExists => "blob already exists on token"
  | wrongTag => "authorization tag mismatch"
  | communication => "token communication failure"
  | pinRejected => "token PIN rejected"
  | storage => "token storage failure"
  | corrupted => "token contents corrupted"
  | unknownSlot slot => s!"no token in slot {slot}"

/-- Whether the same call may succeed when it is repeated. -/
def TokenError.isTransient : TokenError → Bool
  | communication => true
  | _ => false

/-- What is wrong with the parameters of a protocol. -/
inductive ParameterProblem where
  | noHonestMajority
  | smallModulus
  | emptyTag
  | emptyIdentifier
  | sharedIdentifier
  | moreTokensThanParties
  | exponentDividesFactorial
  deriving DecidableEq, Repr

/-- The text of the problem. -/
def ParameterProblem.message : ParameterProblem → String
  | noHonestMajority => "parties must be at least 2·threshold − 1"
  | smallModulus => "RSA modulus too small"
  | emptyTag => "empty share authorization tag"
  | emptyIdentifier => "empty share identifier"
  | sharedIdentifier => "decryption and signing shares share an identifier"
  | moreTokensThanParties => "more tokens than parties"
  | exponentDividesFactorial => "public exponent divides parties!"

/-- A list of indices as it is written in texts: in brackets, with commas. -/
def indexList (indices : List Nat) : String :=
  "[" ++ String.intercalate ", " (indices.map toString) ++ "]"

/-- Why a threshold protocol ended without a result. -/
inductive ProtocolError where
  /-- Its parameters or its configuration cannot be used. -/
  | badParameters (problem : ParameterProblem)
  /-- There are fewer tokens than parties. -/
  | tooFewTokens (available required : Nat)
  /-- There are fewer readable shares than the threshold. -/
  | tooFewShares (available required : Nat)
  /-- The shares belong to different keys. -/
  | parameterMismatch
  /-- A computation was refused. -/
  | arithmetic (cause : ArithmeticError)
  /-- A token failed, repeated attempts included. -/
  | token (cause : TokenError)
  /-- A quorum is empty or larger than the list of holders. -/
  | badQuorumSize (quorum holders : Nat)
  /-- The source of entropy failed. -/
  | entropy (cause : EntropyError)
  /-- A blob read from a token does not parse. -/
  | malformedShare (cause : DerError)
  /-- A ciphertext or a public key from the caller does not parse. -/
  | malformedInput (cause : DerError)
  /-- A share carries an index that no party has. -/
  | indexMismatch (index : Nat)
  /-- Two shares carry the same index. -/
  | duplicateShare (index : Nat)
  /-- The combined signature does not verify. -/
  | signatureRejected
  /-- A quorum failed its rehearsal. -/
  | quorumRejected (indices : List Nat)
  deriving DecidableEq, Repr

namespace ProtocolError

/-- The text of the cause. -/
def message : ProtocolError → String
  | badParameters problem => "invalid parameters: " ++ problem.message
  | tooFewTokens available required => s!"{available} tokens available, {required} required"
  | tooFewShares available required => s!"{available} shares available, {required} required"
  | parameterMismatch => "shares belong to different keys"
  | arithmetic e => "arithmetic error: " ++ e.message
  | token e => "card communication error: " ++ e.message
  | badQuorumSize quorum holders => s!"quorum of {quorum} cannot be drawn from {holders} holders"
  | entropy e => "entropy error: " ++ e.message
  | malformedShare e => "malformed share: " ++ e.message
  | malformedInput e => "malformed input: " ++ e.message
  | indexMismatch index => s!"share index {index} out of range"
  | duplicateShare index => s!"share index {index} appears twice"
  | signatureRejected => "combined signature does not verify"
  | quorumRejected indices => "quorum " ++ indexList indices ++ " failed rehearsal"

/-- A refused computation seen from a protocol. -/
def ofArithmetic : ArithmeticError → ProtocolError
  | .entropy e => entropy e
  | e => arithmetic e

/-- A sharing failure seen from a protocol. -/
def ofSharing : SharingError → ProtocolError
  | .badParameters _ _ => badParameters .noHonestMajority
  | .badIndex index => indexMismatch index
  | .duplicateIndex index => duplicateShare index
  | .tooFewShares available required => tooFewShares available required
  | .badQuorumSize quorum holders => badQuorumSize quorum holders
  | .arithmetic e => ofArithmetic e

end ProtocolError

end ThresholdKeys
