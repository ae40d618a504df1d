import ThresholdKeys.Rsa.Key
import ThresholdKeys.Token.Cards

/-!
# Settings of a ceremony

The settings that generation, decryption and signing have in common.
-/

namespace ThresholdKeys

/-- The settings of a ceremony. -/
structure Config where
  /-- The authorization tag of every share. -/
  shareTag : Bytes
  /-- The identifier of the decryption share on a token. -/
  decryptionIdentifier : Bytes
  /-- The identifier of the signing share on a token. -/
  signingIdentifier : Bytes
  /-- The binary digits of the RSA modulus. -/
  modulusBits : Nat
  /-- Whether every decryption comes with a proof. -/
  decryptWithProof : Bool
  /-- The policy for calls to tokens. -/
  retry : RetryPolicy
  deriving DecidableEq, Repr

namespace Config

/-- The usual settings. -/
def standard : Config where
  shareTag := [0x01]
  decryptionIdentifier := Bytes.ofText "DEC"
  signingIdentifier := Bytes.ofText "SIGN"
  modulusBits := 3072
  decryptWithProof := true
  retry := .standard

/-- Refuses settings under which shares could not be told apart or would be too small. -/
def validate (c : Config) : Outcome ProtocolError Unit :=
  if c.shareTag.isEmpty then .error (.badParameters .emptyTag)
  else if c.decryptionIdentifier.isEmpty ∨ c.signingIdentifier.isEmpty then
    .error (.badParameters .emptyIdentifier)
  else if c.decryptionIdentifier = c.signingIdentifier then
    .error (.badParameters .sharedIdentifier)
  else if c.modulusBits < Rsa.minModulusBits then .error (.badParameters .smallModulus)
  else .ok ()

/-- An empty set of tokens under the policy of the settings. -/
def cards (c : Config) : Cards := .empty c.retry

end Config

end ThresholdKeys
