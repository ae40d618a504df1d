import ThresholdKeys.Ceremony.Rehearsal
import ThresholdKeys.Proofs.ElGamal.Soundness

/-!
# The trial of a quorum

A quorum passes its trial if it puts the private key of the election together, whatever is drawn
(`quorumDecrypts_of_key`), and fails it if it puts another one together (`quorumDecrypts_of_other`).
The quorums are tried in their order, and the first one that fails ends the rehearsal
(`tryQuorums_outcome`).

The probes have eleven octets as long as their numbers have one digit, and with the padding they
need blocks of fourteen.
-/

namespace ThresholdKeys

open ElGamal

variable {t : Threshold} {withProof : Bool} {n k : Nat} {s s' : Source} {log : List LogRecord}

/-! ## Draws -/

/-- The nonce of a proof, where there is one. -/
def nonceDraw (G : Group) (withProof : Bool) : Proc Source ArithmeticError Unit :=
  if withProof then (randomBelow G.order) >>= fun _ => return () else return ()

/-- The random numbers of a trial: the exponent that blinds the probe, and the nonce. -/
def trialDraws (G : Group) (withProof : Bool) : Proc Source ArithmeticError Unit := do
  let _ ← randomNonzeroBelow G.order
  nonceDraw G withProof

/-- The random numbers of so many trials. A source that does not fail gives them. -/
def rehearsalDraws (G : Group) (withProof : Bool) :
    (trials : Nat) → Proc Source ArithmeticError Unit
  | 0 => return ()
  | trials + 1 => do
    trialDraws G withProof
    rehearsalDraws G withProof trials

/-! ## Probes -/

theorem length_probe (hn : n < 10) : (probe n).length = 11 := by
  interval_cases n <;> decide

theorem probe_fits (hn : n < 10) {length : Nat} (hlen : 14 ≤ length) :
    (probe n).length + 3 ≤ length := by
  rw [length_probe hn]
  exact hlen

/-- A probe is encrypted with the exponent that is drawn. -/
theorem encrypt_probe (pk : PublicKey) (hp : pk.parameters.group.modulus.Prime)
    (hlen : 14 ≤ pk.parameters.group.messageLength) (hn : n < 10) {r : Nat}
    (hdraw : randomNonzeroBelow pk.parameters.group.order k s = ⟨.ok r, s', log⟩) :
    ∃ encoded, pk.parameters.group.isResidue encoded = true ∧
      pk.parameters.group.decode encoded
        = .ok (Bytes.toNat (Block.assemble (probe n) pk.parameters.group.messageLength)) ∧
      pk.encrypt (probe n) k s = ⟨.ok (blinded pk encoded r), s', log⟩ := by
  have hfits := probe_fits hn hlen
  obtain ⟨encoded, hencode, hresidue, hdecode⟩ := Group.decode_encode hp
    (Block.toNat_assemble hfits).1 (Block.toNat_assemble_le_order hfits)
  exact ⟨encoded, hresidue, hdecode, encrypt_apply pk hfits hencode hdraw⟩

/-! ## Trials -/

/-- Putting a key together only writes a record. -/
theorem RecoveredKey.ofBlobs_apply {blobs : List IndexedBlob} {key : PrivateKey}
    (h : recover t blobs = .ok key) (withProof : Bool) (k : Nat) (s : Source) :
    ∃ log, (ofBlobs t withProof blobs : Proc Source ProtocolError RecoveredKey) k s
      = ⟨.ok ⟨key, withProof⟩, s, log⟩ := by
  rw [ofBlobs, h]
  exact ⟨_, rfl⟩

/-- A key decrypts an encoded ciphertext, and the proof is accepted where there is one. -/
theorem RecoveredKey.decrypt_apply {key : PrivateKey} {ct : Ciphertext} {message : Bytes}
    (hder : Ciphertext.ofDer ct.toDer = .ok ct) (hdecrypt : key.decrypt ct = .ok message)
    (hdraw : nonceDraw key.parameters.group withProof k s = ⟨.ok (), s', log⟩) :
    ∃ proof log', (RecoveredKey.mk key withProof).decrypt ct.toDer k s
        = ⟨.ok ⟨message, proof⟩, s', log'⟩ ∧
      ∀ accepted, proof = some accepted → accepted.verify key.publicKey ct message = .ok true := by
  rw [RecoveredKey.decrypt, hder, Outcome.mapError_ok, Proc.liftM_ok_bind]
  unfold nonceDraw at hdraw
  cases withProof with
  | true =>
    obtain ⟨nonce, s₁, log₁, log₂, hnonce, hend⟩ := Proc.bind_eq_ok hdraw
    obtain rfl : s₁ = s' := congrArg Run.state hend
    have hrun := provableDecrypt_apply hdecrypt hnonce
    refine ⟨_, _, Proc.mapError_apply hrun ProtocolError.ofArithmetic, ?_⟩
    intro accepted haccepted
    cases haccepted
    exact verifyWith_answer hdecrypt nonce _
  | false =>
    obtain rfl : s = s' := congrArg Run.state hdraw
    dsimp only
    rw [if_neg (by decide), hdecrypt, Outcome.mapError_ok, Proc.liftM_ok_bind]
    exact ⟨none, [], rfl, by simp⟩

/-- A trial that comes to a verdict if its draws succeed. One that is passed leaves the source after
them. -/
def TrialEnds (G : Group) (withProof : Bool) (trial : Proc Source ProtocolError Bool)
    (passed : Bool) : Prop :=
  ∀ k s s' log, trialDraws G withProof k s = ⟨.ok (), s', log⟩ →
    ∃ s'' log', trial k s = ⟨.ok passed, s'', log'⟩ ∧ (passed = true → s'' = s')

/-- **A quorum that has the key passes.** -/
theorem quorumDecrypts_of_key {blobs : List IndexedBlob} {key : PrivateKey}
    (hrecover : RecoveredKey.recover t blobs = .ok key)
    (hp : key.parameters.group.modulus.Prime)
    (hsize : key.parameters.toDer.length < Der.addressLimit)
    (hlen : 14 ≤ key.parameters.group.messageLength) (hn : n < 10) :
    TrialEnds key.parameters.group withProof
      (quorumDecrypts key.publicKey t withProof n blobs) true := by
  intro k s s' log hdraws
  obtain ⟨r, s₁, log₁, log₂, hblind, hnonce⟩ := Proc.bind_eq_ok hdraws
  obtain ⟨encoded, hresidue, hdecode, hencrypt⟩ :=
    encrypt_probe key.publicKey hp hlen hn hblind
  have hdecrypt := decrypt_blinded key hp (probe_fits hn hlen) hresidue hdecode r
  have hder : Ciphertext.ofDer (blinded key.publicKey encoded r).toDer
      = .ok (blinded key.publicKey encoded r) :=
    Ciphertext.ofDer_toDer (Ciphertext.length_toDer_lt hsize (Group.pow_lt _ _) (Group.mul_lt _ _))
  obtain ⟨proof, log₃, hrun, haccepted⟩ := RecoveredKey.decrypt_apply hder hdecrypt hnonce
  obtain ⟨log₄, hof⟩ := RecoveredKey.ofBlobs_apply hrecover withProof k s₁
  rw [quorumDecrypts, Proc.bind_apply_ok (Proc.mapError_apply hencrypt ProtocolError.ofArithmetic),
    Proc.bind_apply_ok hof]
  dsimp only
  rw [if_neg (fun h => h rfl), Proc.bind_apply_ok (Proc.attempt_apply_ok hrun)]
  dsimp only
  rw [if_neg (fun h => h rfl)]
  cases proof with
  | none => exact ⟨s', _, rfl, fun _ => rfl⟩
  | some accepted =>
    dsimp only
    rw [haccepted accepted rfl]
    exact ⟨s', _, rfl, fun _ => rfl⟩

/-- **A quorum that has another key fails.** -/
theorem quorumDecrypts_of_other {blobs : List IndexedBlob} {pk : PublicKey} {key : PrivateKey}
    (hrecover : RecoveredKey.recover t blobs = .ok key) (hother : key.publicKey ≠ pk)
    (hp : pk.parameters.group.modulus.Prime) (hlen : 14 ≤ pk.parameters.group.messageLength)
    (hn : n < 10) :
    TrialEnds pk.parameters.group withProof (quorumDecrypts pk t withProof n blobs) false := by
  intro k s s' log hdraws
  obtain ⟨r, s₁, log₁, log₂, hblind, -⟩ := Proc.bind_eq_ok hdraws
  obtain ⟨encoded, -, -, hencrypt⟩ := encrypt_probe pk hp hlen hn hblind
  obtain ⟨log₃, hof⟩ := RecoveredKey.ofBlobs_apply hrecover withProof k s₁
  have hne : (RecoveredKey.mk key withProof).publicKey ≠ pk := hother
  rw [quorumDecrypts, Proc.bind_apply_ok (Proc.mapError_apply hencrypt ProtocolError.ofArithmetic),
    Proc.bind_apply_ok hof]
  dsimp only
  rw [if_pos hne]
  -- the public keys are compared before anything is decrypted, so no nonce is drawn
  exact ⟨s₁, _, rfl, fun h => absurd h (by decide)⟩

/-! ## The quorums in their order -/

/-- **The first quorum that fails its trial is reported**, and without one the rehearsal goes on.
The induction is on the quorums that are left; `bad` is the verdict on each of them. -/
theorem tryQuorums_outcome {kind : String} {G : Group}
    {passes : Nat → List IndexedBlob → Proc Source ProtocolError Bool}
    {bad : List IndexedBlob → Bool} {quorums : List (List IndexedBlob)}
    (hpasses : ∀ n < 10, ∀ quorum ∈ quorums,
      TrialEnds G withProof (passes n quorum) (!bad quorum))
    (hn : n + quorums.length ≤ 10) {trials : Nat} (htrials : quorums.length ≤ trials)
    (hdraws : (rehearsalDraws G withProof trials k s).outcome = .ok ()) :
    (tryQuorums kind passes n quorums k s).outcome = match quorums.find? bad with
      | none => .ok ()
      | some quorum => .error (.quorumRejected (quorumIndices quorum)) := by
  induction quorums generalizing n trials s with
  | nil => rfl
  | cons quorum rest ih =>
    rw [List.length_cons] at hn htrials
    obtain ⟨trials, rfl⟩ : ∃ left, trials = left + 1 := ⟨trials - 1, by omega⟩
    obtain ⟨s', log, hfirst, hrest⟩ : ∃ s' log, trialDraws G withProof k s = ⟨.ok (), s', log⟩ ∧
        (rehearsalDraws G withProof trials k s').outcome = .ok () := by
      obtain ⟨_, hfirst, hrest⟩ := Proc.outcome_bind_eq_ok.1 hdraws
      exact ⟨_, _, by rw [← hfirst], hrest⟩
    obtain ⟨s'', log', hverdict, hpassed⟩ :=
      hpasses n (by omega) quorum List.mem_cons_self k s s' log hfirst
    rw [tryQuorums, Proc.bind_apply_ok hverdict]
    cases hbad : bad quorum with
    | true =>
      rw [List.find?_cons_of_pos hbad]
      rfl
    | false =>
      rw [List.find?_cons_of_neg (by rw [hbad]; decide)]
      obtain rfl := hpassed (by rw [hbad]; rfl)
      exact ih (fun n hn q hq => hpasses n hn q (List.mem_cons_of_mem _ hq)) (by omega) (by omega)
        hrest

end ThresholdKeys
