import ThresholdKeys.Proofs.Der.Keys
import ThresholdKeys.Proofs.ElGamal.RoundTrip
import ThresholdKeys.Proofs.Entropy.Draws

/-!
# Every format is read back

There are seven formats, four with parameters of ElGamal or of RSA inside them. The readers check
again what the constructors have checked: the shape of the modulus, the generator, the residue, the
range of an exponent, the version. Since the types hold these checks, what a reader is given by a
writer passes all of them: `Format.every_format_read_back`.

Two values reach a writer without having passed the check of a reader, the public key computed from
a private one and the modulus of a group that was searched for. The first is a residue because the
generator is (`PrivateKey.publicKey`), the second has the shape of a safe prime because the order
that was drawn is odd (`ofTrusted_of_randomPrime`).
-/

namespace ThresholdKeys

open Der

/-- The modulus that a search for a group ends with has the shape of one, so the search is never
refused at its end. -/
theorem Group.ofTrusted_of_randomPrime {bits k q : Nat} {s : Source}
    (h : (randomPrime bits k s).outcome = .ok q) :
    ∃ G, ofTrusted (2 * q + 1) = .ok G ∧ G.modulus = 2 * q + 1 ∧ G.order = q := by
  have hends := randomPrime_ends bits k s
  rw [h] at hends
  obtain ⟨hbits, hshape, -⟩ := hends
  have hlarge := hshape.large hbits
  exact ofTrusted_double hshape.odd (by omega)

/-- What the octets of keys, shares, ciphertexts and proofs are. -/
inductive Format where
  | parameters
  | electionKey
  /-- The key of an election, or a share of one. -/
  | privateKey
  | ciphertext
  | proof
  | signingKey
  | signingShare

namespace Format

/-- The values of a format. -/
def Value : Format → Type
  | parameters => ElGamal.Parameters
  | electionKey => ElGamal.PublicKey
  | privateKey => ElGamal.PrivateKey
  | ciphertext => ElGamal.Ciphertext
  | proof => ElGamal.Proof
  | signingKey => Rsa.PublicKey
  | signingShare => Rsa.KeyShare

/-- The encoding of a value. -/
def toDer : (F : Format) → F.Value → Bytes
  | parameters => ElGamal.Parameters.toDer
  | electionKey => ElGamal.PublicKey.toDer
  | privateKey => ElGamal.PrivateKey.toDer
  | ciphertext => ElGamal.Ciphertext.toDer
  | proof => ElGamal.Proof.toDer
  | signingKey => Rsa.PublicKey.toDer
  | signingShare => Rsa.KeyShare.toDer

/-- The value that a string of octets encodes. -/
def ofDer : (F : Format) → Bytes → Outcome DerError F.Value
  | parameters => ElGamal.Parameters.ofDer
  | electionKey => ElGamal.PublicKey.ofDer
  | privateKey => ElGamal.PrivateKey.ofDer
  | ciphertext => ElGamal.Ciphertext.ofDer
  | proof => ElGamal.Proof.ofDer
  | signingKey => Rsa.PublicKey.ofDer
  | signingShare => Rsa.KeyShare.ofDer

/-- **Every encoding decodes to its value**, as long as a length field can announce it. That covers
the public key of every private one, and no search for a group ends with a modulus that is then
refused. -/
theorem every_format_read_back :
    (∀ (F : Format) (v : F.Value), (F.toDer v).length < lengthLimit →
      F.ofDer (F.toDer v) = .ok v) ∧
    (∀ sk : ElGamal.PrivateKey, sk.publicKey.toDer.length < lengthLimit →
      ElGamal.PublicKey.ofDer sk.publicKey.toDer = .ok sk.publicKey) ∧
    (∀ (bits k : Nat) (s : Source) (q : Nat), (randomPrime bits k s).outcome = .ok q →
      ∃ G, Group.ofTrusted (2 * q + 1) = .ok G ∧ G.modulus = 2 * q + 1 ∧ G.order = q) := by
  refine ⟨fun F v h => ?_, fun sk h => ElGamal.PublicKey.ofDer_toDer h,
    fun bits k s q h => Group.ofTrusted_of_randomPrime h⟩
  cases F with
  | parameters => exact ElGamal.Parameters.ofDer_toDer h
  | electionKey => exact ElGamal.PublicKey.ofDer_toDer h
  | privateKey => exact ElGamal.PrivateKey.ofDer_toDer h
  | ciphertext => exact ElGamal.Ciphertext.ofDer_toDer h
  | proof => exact ElGamal.Proof.ofDer_toDer h
  | signingKey => exact Rsa.PublicKey.ofDer_toDer h
  | signingShare => exact Rsa.KeyShare.ofDer_toDer h

/-- A private key whose modulus has the shape of a safe prime and is 7 times 13. -/
def compositeKey : ElGamal.PrivateKey where
  parameters :=
    { group := ⟨91, by decide, by decide⟩
      generator := 16
      electionId := "élection"
      generates := by decide }
  secret := 44
  secret_lt := by decide

/-- The keys modulo 91, and the order of a group drawn from two octets. -/
theorem every_format_read_back_compositeKey :
    ¬ compositeKey.parameters.group.modulus.Prime ∧
    privateKey.ofDer (privateKey.toDer compositeKey) = .ok compositeKey ∧
    ElGamal.PublicKey.ofDer compositeKey.publicKey.toDer = .ok compositeKey.publicKey ∧
    (randomPrime 16 1 (.ofBytes [0xc0, 0x05])).outcome = .ok 49157 ∧
    ∃ G, Group.ofTrusted (2 * 49157 + 1) = .ok G ∧ G.modulus = 2 * 49157 + 1
      ∧ G.order = 49157 := by
  obtain ⟨hformats, hpublic, hgroups⟩ := every_format_read_back
  have hdraw : (randomPrime 16 1 (.ofBytes [0xc0, 0x05])).outcome = .ok 49157 := by
    decide +kernel
  refine ⟨?_, hformats privateKey compositeKey (by decide +kernel),
    hpublic compositeKey (by decide +kernel), hdraw, hgroups _ _ _ _ hdraw⟩
  show ¬ Nat.Prime 91
  norm_num

end Format

end ThresholdKeys
