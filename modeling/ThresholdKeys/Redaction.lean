import ThresholdKeys.ElGamal.Key
import ThresholdKeys.Rsa.Key
import ThresholdKeys.Sharing.Polynomial
import ThresholdKeys.Text.Quoted
import ThresholdKeys.Token.Records

/-!
# Secrets in texts and in memory

Values that hold a secret have a text for diagnosis which tells what they are and leaves the secret
out: it depends on sizes, indices and names alone. A secret number can be wiped, which overwrites
its octets with zeros.
-/

namespace ThresholdKeys

/-- What stands in a text in place of a secret. -/
def redacted : String := quote "***SENSITIVE***"

/-- A value in a text: its kind and its named fields in braces. -/
def describeFields (kind : String) (fields : List (String × String)) : String :=
  kind ++ " \x7b "
    ++ String.intercalate ", " (fields.map fun (name, value) => name ++ ": " ++ value) ++ " \x7d"

/-- A secret number. -/
structure Secret where
  value : Nat

namespace Secret

/-- The number with all its octets overwritten by zeros. -/
def wipe (s : Secret) : Secret := ⟨Bytes.toNat (List.replicate (byteLength s.value) 0)⟩

/-- The text of a secret number. -/
def text (_ : Secret) : String := "SecretInt(" ++ redacted ++ ")"

/-- A wiped number is zero. -/
theorem value_wipe (s : Secret) : s.wipe.value = 0 := by
  show Bytes.toNat (List.replicate (byteLength s.value) 0) = 0
  generalize byteLength s.value = n
  induction n with
  | zero => rfl
  | succ n ih => rw [List.replicate_succ', Bytes.toNat_concat, ih]; rfl

end Secret

/-- The text of a share. -/
def Share.text (s : Share) : String :=
  describeFields "SecretShare"
    [("index", toString s.index), ("bits", toString (bitLength s.value)), ("value", redacted)]

/-- The text of a blob from a token. -/
def IndexedBlob.text (b : IndexedBlob) : String :=
  describeFields "IndexedBlob"
    [("index", toString b.index), ("length", toString b.blob.length), ("blob", redacted)]

/-- The text of a sharing polynomial. -/
def Polynomial.text (f : Polynomial) : String :=
  describeFields "Polynomial" [("degree", toString f.degree), ("coefficients", redacted)]

/-- The text of a private key. -/
def ElGamal.PrivateKey.text (sk : ElGamal.PrivateKey) : String :=
  describeFields "ElGamalPrivateKey"
    [("election_id", quote sk.parameters.electionId), ("key", redacted)]

/-- The text of a share of a signing key. -/
def Rsa.KeyShare.text (share : Rsa.KeyShare) : String :=
  describeFields "RsaKeyShare"
    [("modulus_bits", toString share.publicKey.bits), ("exponent", redacted)]

end ThresholdKeys
