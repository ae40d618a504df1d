import ThresholdKeys.Token.Records

/-!
# Tokens in memory

A token that never leaves the machine. It can be made to fail: its next calls, or all of them, end
with a communication failure and without effect.
-/

namespace ThresholdKeys

/-- A token in memory: its records, the number of calls that are still to fail, whether it cannot
be reached at all, and the number of calls made so far, failed ones included. -/
structure MemoryToken where
  id : String
  records : Records
  pendingFailures : Nat
  unreachable : Bool
  calls : Nat
  deriving DecidableEq, Repr

namespace MemoryToken

/-- An empty token whose first `failures` calls fail. -/
def empty (id : String) (failures : Nat) : MemoryToken := ⟨id, [], failures, false, 0⟩

/-- An empty token that fails every call. -/
def outOfReach (id : String) : MemoryToken := ⟨id, [], 0, true, 0⟩

/-- Takes up a call. -/
def connect : Proc MemoryToken TokenError Unit := fun _ t =>
  let t := { t with calls := t.calls + 1 }
  if t.unreachable then ⟨.error .communication, t, []⟩
  else match t.pendingFailures with
    | 0 => ⟨.ok (), t, []⟩
    | n + 1 => ⟨.error .communication, { t with pendingFailures := n }, []⟩

/-! ## Once the token is reached -/

/-- What a store does once the token is reached. -/
def storeReached (r : Record) : Proc MemoryToken TokenError Unit := do
  let t ← get
  let records ← t.records.store r
  set { t with records := records }

/-- What a read does once the token is reached. -/
def readReached (tag identifier : Bytes) : Proc MemoryToken TokenError IndexedBlob := do
  let t ← get
  t.records.get tag identifier

/-- What a removal does once the token is reached. -/
def removeReached (tag identifier : Bytes) : Proc MemoryToken TokenError Bool := do
  let t ← get
  match ← (t.records.remove tag identifier : Outcome TokenError (Option Records)) with
  | none => return false
  | some records => do
    set { t with records := records }
    return true

/-! ## Calls -/

/-- Stores a blob. -/
def store (r : Record) : Proc MemoryToken TokenError Unit := do
  connect
  storeReached r

/-- Reads a blob. -/
def read (tag identifier : Bytes) : Proc MemoryToken TokenError IndexedBlob := do
  connect
  readReached tag identifier

/-- Removes a blob; whether there was one. -/
def remove (tag identifier : Bytes) : Proc MemoryToken TokenError Bool := do
  connect
  removeReached tag identifier

end MemoryToken

end ThresholdKeys
