import ThresholdKeys.Token.Memory
import ThresholdKeys.Token.Retry
import ThresholdKeys.Token.Sealed

/-!
# The tokens of a ceremony

The tokens that take part stand in numbered slots, in the order in which they were inserted. Every
call to one of them is repeated as the retry policy says, and changes no other slot.
-/

namespace ThresholdKeys

/-- A token of any kind. -/
inductive Token where
  | memory (token : MemoryToken)
  | sealed (token : SealedToken)
  /-- A token that refuses every call for the same cause. -/
  | failing (id : String) (cause : TokenError)

namespace Token

/-- The name of the token. -/
def id : Token → String
  | memory t => t.id
  | sealed t => t.id
  | failing id _ => id

/-- A call to a token, by its kind. -/
def dispatch {α : Type} (onMemory : Proc MemoryToken TokenError α)
    (onSealed : Proc SealedToken TokenError α) : Proc Token TokenError α := fun patience token =>
  match token with
  | memory t =>
    let r := onMemory patience t
    ⟨r.outcome, memory r.state, r.log⟩
  | sealed t =>
    let r := onSealed patience t
    ⟨r.outcome, sealed r.state, r.log⟩
  | failing id cause => ⟨.error cause, failing id cause, []⟩

/-- Stores a blob. -/
def store (r : Record) : Proc Token TokenError Unit :=
  dispatch (MemoryToken.store r) (SealedToken.store r)

/-- Reads a blob. -/
def read (tag identifier : Bytes) : Proc Token TokenError IndexedBlob :=
  dispatch (MemoryToken.read tag identifier) (SealedToken.read tag identifier)

/-- Removes a blob; whether there was one. -/
def remove (tag identifier : Bytes) : Proc Token TokenError Bool :=
  dispatch (MemoryToken.remove tag identifier) (SealedToken.remove tag identifier)

end Token

/-- The tokens of a ceremony, by slot, and the policy for calls to them. -/
structure Cards where
  tokens : List Token
  retry : RetryPolicy

/-- An identifier as it is written in the log: as a text if it is one. -/
def describe (identifier : Bytes) : String := identifier.text?.getD identifier.hex

namespace Cards

/-- No tokens yet. -/
def empty (retry : RetryPolicy) : Cards := ⟨[], retry⟩

/-- Inserts a token in the next slot, which is returned. -/
def add {ε : Type} (token : Token) : Proc Cards ε Nat := do
  let cards ← get
  let slot := cards.tokens.length
  Proc.note .debug s!"Token {token.id} inserted in slot {slot}"
  set { cards with tokens := cards.tokens ++ [token] }
  return slot

/-- Puts another token into a slot; the one that was there is returned. -/
def replace (slot : Nat) (token : Token) : Proc Cards TokenError Token := do
  let cards ← get
  match cards.tokens[slot]? with
  | none => throw (.unknownSlot slot)
  | some old => do
    set { cards with tokens := cards.tokens.set slot token }
    return old

/-- A call to the token in a slot, repeated as the policy says. -/
def call {α : Type} (slot : Nat) (p : Proc Token TokenError α) : Proc Cards TokenError α :=
  fun patience cards =>
    match cards.tokens[slot]? with
    | none => ⟨.error (.unknownSlot slot), cards, []⟩
    | some token =>
      let r := cards.retry.run token.id p patience token
      ⟨r.outcome, { cards with tokens := cards.tokens.set slot r.state }, r.log⟩

/-- The name of the token in a slot, for the log; empty if there is none. -/
def label {ε : Type} (slot : Nat) : Proc Cards ε String := do
  let cards ← get
  return (cards.tokens[slot]?.map Token.id).getD ""

/-- Stores a blob on the token in a slot. -/
def store (slot : Nat) (r : Record) : Proc Cards TokenError Unit := do
  call slot (Token.store r)
  let label ← label slot
  Proc.note .debug s!"Token {label}: stored {describe r.identifier} (index {r.index})"

/-- Reads a blob from the token in a slot. -/
def read (slot : Nat) (tag identifier : Bytes) : Proc Cards TokenError IndexedBlob :=
  call slot (Token.read tag identifier)

/-- Removes a blob from the token in a slot; whether there was one. -/
def remove (slot : Nat) (tag identifier : Bytes) : Proc Cards TokenError Bool := do
  if ← call slot (Token.remove tag identifier) then do
    let label ← label slot
    Proc.note .info s!"Token {label}: removed {describe identifier}"
    return true
  else return false

end Cards

end ThresholdKeys
