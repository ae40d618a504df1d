import ThresholdKeys.Sharing.Threshold
import ThresholdKeys.Token.Cards

/-!
# Shares on tokens

Before a ceremony's shares can be used they are collected: one blob from each token, put in the
place of its share index. Tokens that have none, or cannot be reached, are passed over. Storing
goes the other way, share by share in the order of the slots, and stops at the first token that
refuses.
-/

namespace ThresholdKeys

/-- Whether a token that refuses for this cause is passed over. -/
def TokenError.meansAbsent : TokenError → Bool
  | .notFound | .communication | .wrongTag => true
  | _ => false

/-- Collects from `count` slots, the first of them number `slot`, into the places `found`. -/
def collectFrom (t : Threshold) (tag identifier : Bytes) :
    (count slot : Nat) → (found : List (Option IndexedBlob)) →
      Proc Cards ProtocolError (List (Option IndexedBlob))
  | 0, _, found => return found
  | count + 1, slot, found => do
    match ← (Cards.read slot tag identifier).attempt with
    | .error e =>
      if e.meansAbsent then do
        Proc.note .warn (s!"Token in slot {slot}: " ++ e.message ++ ", share skipped")
        collectFrom t tag identifier count (slot + 1) found
      else throw (.token e)
    | .ok blob =>
      if !t.isIndex blob.index then throw (.indexMismatch blob.index)
      else match found[blob.index - 1]? with
        | none => Proc.lift .fault
        | some (some _) => throw (.duplicateShare blob.index)
        | some none =>
          collectFrom t tag identifier count (slot + 1) (found.set (blob.index - 1) (some blob))

/-- The blobs on all tokens: one place for each party, with the blob of its share if a token had
it. -/
def collectAll (t : Threshold) (tag identifier : Bytes) :
    Proc Cards ProtocolError (List (Option IndexedBlob)) := do
  let cards ← get
  if t.parties < cards.tokens.length then throw (.badParameters .moreTokensThanParties)
  else collectFrom t tag identifier cards.tokens.length 0 (List.replicate t.parties none)

/-- The blobs that are there, in the order of their indices. -/
def present (found : List (Option IndexedBlob)) : List IndexedBlob := found.filterMap id

/-- Collects the blobs that are there. -/
def collectPresent (t : Threshold) (tag identifier : Bytes) :
    Proc Cards ProtocolError (List IndexedBlob) := do
  return present (← collectAll t tag identifier)

/-- Refuses fewer shares than the threshold. -/
def requireThreshold (available : Nat) (t : Threshold) : Outcome ProtocolError Unit :=
  if available < t.threshold then .error (.tooFewShares available t.threshold) else .ok ()

theorem requireThreshold_eq_ok_iff {available : Nat} {t : Threshold} :
    requireThreshold available t = .ok () ↔ t.threshold ≤ available := by
  rw [requireThreshold, ← Nat.not_lt]
  split
  · next h => simp [h]
  · next h => simp [h]

/-- What the shares read so far have in common is the value, if there are any. -/
theorem any_ne_eq_false_iff {α : Type} [DecidableEq α] {common : Option α} {value : α} :
    common.any (fun x => decide (x ≠ value)) = false ↔ ∀ x ∈ common, x = value := by
  cases common with
  | none => simp
  | some x => simp

/-- Refuses fewer tokens than parties. -/
def requireTokens (t : Threshold) : Proc Cards ProtocolError Unit := do
  let cards ← get
  if cards.tokens.length < t.parties then
    throw (.tooFewTokens cards.tokens.length t.parties)
  else return ()

/-- Stores shares on the tokens from a slot on, each in the form that `form` gives it. -/
def storeShares (form : Share → Outcome ProtocolError Bytes) (tag identifier : Bytes) :
    (slot : Nat) → List Share → Proc Cards ProtocolError Unit
  | _, [] => return ()
  | slot, share :: rest => do
    let blob ← form share
    (Cards.store slot ⟨identifier, tag, share.index, blob⟩).mapError .token
    storeShares form tag identifier (slot + 1) rest

end ThresholdKeys
