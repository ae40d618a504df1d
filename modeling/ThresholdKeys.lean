import ThresholdKeys.Procedure
import ThresholdKeys.Number.Euclid
import ThresholdKeys.Number.Prime
import ThresholdKeys.Hash.Sha256
import ThresholdKeys.Hash.Blake3
import ThresholdKeys.Sealing.Box
import ThresholdKeys.Sealing.Scrypt
import ThresholdKeys.Der.Reader
import ThresholdKeys.Entropy.Drain
import ThresholdKeys.Entropy.Sampling
import ThresholdKeys.Sharing.Polynomial
import ThresholdKeys.Sharing.Interpolation
import ThresholdKeys.Sharing.Quorum
import ThresholdKeys.ElGamal.Proof
import ThresholdKeys.Rsa.Combination
import ThresholdKeys.Token.Cards
import ThresholdKeys.Ceremony.Rehearsal
import ThresholdKeys.Redaction
import ThresholdKeys.Proofs.Sharing.Secrecy
import ThresholdKeys.Proofs.ElGamal.Completeness
import ThresholdKeys.Proofs.ElGamal.Soundness
import ThresholdKeys.Proofs.ElGamal.Membership
import ThresholdKeys.Proofs.Rsa.ThresholdSigning
import ThresholdKeys.Proofs.Ceremony.Rehearsal
import ThresholdKeys.Proofs.ElGamal.Transcript
import ThresholdKeys.Proofs.Der.Shortest
import ThresholdKeys.Proofs.Ceremony.WriteOnce
import ThresholdKeys.Proofs.Token.Persistence
import ThresholdKeys.Proofs.Sharing.Exponents
import ThresholdKeys.Proofs.Ceremony.Reading
import ThresholdKeys.Proofs.Ceremony.Acceptance
import ThresholdKeys.Proofs.Ceremony.Readable
import ThresholdKeys.Proofs.Sharing.Exactness
import ThresholdKeys.Proofs.Ceremony.Exposure
import ThresholdKeys.Proofs.ElGamal.Squares
import ThresholdKeys.Proofs.Entropy.Delivery
import ThresholdKeys.Proofs.Number.Primality
import ThresholdKeys.Proofs.Entropy.Uniformity
import ThresholdKeys.Proofs.Ceremony.Moduli
import ThresholdKeys.Proofs.Entropy.Generators
import ThresholdKeys.Proofs.Entropy.Pools
import ThresholdKeys.Proofs.Entropy.Closing
import ThresholdKeys.Proofs.Number.Units
import ThresholdKeys.Proofs.Number.Rounds
