import ThresholdKeys.Ceremony.Collection
import ThresholdKeys.Entropy.Source
import ThresholdKeys.Procedure

/-!
# What a ceremony works on

A ceremony has a source of entropy and a set of tokens. Its steps work on one of them or on both.
Both kinds of keys are generated in the same three steps (`generation`).
-/

namespace ThresholdKeys

/-- A source of entropy and the tokens. -/
structure Session where
  source : Source
  cards : Cards

namespace Session

variable {ε α : Type}

/-- A step that only draws entropy. -/
def onSource (p : Proc Source ε α) : Proc Session ε α :=
  p.within Session.source fun source s => { s with source := source }

/-- A step that only calls tokens. -/
def onCards (p : Proc Cards ε α) : Proc Session ε α :=
  p.within Session.cards fun cards s => { s with cards := cards }

end Session

/-- Generates a key: the tokens are counted, the key is drawn, and its shares are dealt. -/
def generation {α : Type} (t : Threshold) (draw : Proc Source ProtocolError α)
    (deal : α → Proc Cards ProtocolError Bytes) : Proc Session ProtocolError Bytes := do
  Session.onCards (requireTokens t)
  let a ← Session.onSource draw
  Session.onCards (deal a)

end ThresholdKeys
