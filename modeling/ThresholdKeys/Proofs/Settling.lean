import ThresholdKeys.Proofs.Der.Elements
import ThresholdKeys.Proofs.Entropy.Draws

/-!
# Computations that settle

A computation is *settled* if it ends with a value or with a refusal: no operation in it is applied
outside its domain, and nothing in it waits. This is a stronger property than that of
`Proofs.Endings`, which lets a search stall, and it says nothing on what the values and the causes
are. It passes from the steps to the whole; a later step has to settle only for the values that an
earlier one returns, which is how a check guards what comes after it.

The draws of random numbers are the only waits in this library that its callers cannot rule out. A
procedure that draws is therefore settled up to a stated reason to be stuck (`Outcome.Settles`).

All readers of elements settle, whatever the octets.
-/

namespace ThresholdKeys

namespace Outcome

/-- A value or a refusal, or a stall for a stated reason; never a fault. -/
inductive Settles {ε α : Type} (stuck : Prop) : Outcome ε α → Prop
  | ok (a : α) : Settles stuck (ok a)
  | error (e : ε) : Settles stuck (error e)
  | stalled (h : stuck) : Settles stuck stalled

/-- A value or a refusal. -/
abbrev Settled {ε α : Type} (o : Outcome ε α) : Prop := o.Settles False

variable {ε ε' α β : Type} {stuck : Prop}

theorem settled_ofOption (e : ε) (value : Option α) : (ofOption e value).Settled := by
  cases value with
  | none => exact .error e
  | some a => exact .ok a

namespace Settles

/-- A weaker reason to be stuck. -/
theorem mono {stuck' : Prop} {o : Outcome ε α} (h : o.Settles stuck) (hstuck : stuck → stuck') :
    o.Settles stuck' := by
  cases h with
  | ok a => exact .ok a
  | error e => exact .error e
  | stalled h => exact .stalled (hstuck h)

/-- What is settled has no need of a reason to be stuck. -/
theorem of_settled {o : Outcome ε α} (h : o.Settled) : o.Settles stuck := h.mono False.elim

theorem mapError {o : Outcome ε α} (h : o.Settles stuck) (f : ε → ε') :
    (o.mapError f).Settles stuck := by
  cases h with
  | ok a => exact .ok a
  | error e => exact .error (f e)
  | stalled h => exact .stalled h

/-- The second step has to settle for what the first one returns. -/
theorem bind {o : Outcome ε α} {f : α → Outcome ε β} (h : o.Settles stuck)
    (hf : ∀ a, o = Outcome.ok a → (f a).Settles stuck) : (o >>= f).Settles stuck := by
  cases h with
  | ok a => exact hf a rfl
  | error e => exact .error e
  | stalled h => exact .stalled h

/-- Both branches of a check settle. -/
theorem ite {p : Prop} [Decidable p] {o o' : Outcome ε α} (h : p → o.Settles stuck)
    (h' : ¬ p → o'.Settles stuck) : (if p then o else o').Settles stuck := by
  split
  · next hp => exact h hp
  · next hp => exact h' hp

/-- The same where a check leaves a proof behind. -/
theorem dite {p : Prop} [Decidable p] {o : p → Outcome ε α} {o' : ¬ p → Outcome ε α}
    (h : ∀ hp, (o hp).Settles stuck) (h' : ∀ hp, (o' hp).Settles stuck) :
    (if hp : p then o hp else o' hp).Settles stuck := by
  split
  · next hp => exact h hp
  · next hp => exact h' hp

/-- What never faults settles, unless it stalls. -/
theorem of_ends {Q : α → Prop} {P : ε → Prop} {o : Outcome ε α} (h : o.Ends Q P) :
    o.Settles (o = Outcome.stalled) := by
  cases o with
  | ok a => exact .ok a
  | error e => exact .error e
  | fault => exact h.elim
  | stalled => exact .stalled rfl

end Settles

end Outcome

namespace Proc

variable {σ τ ε ε' α β : Type} {stuck : Prop}

/-- However the procedure is run, it ends with a value or with a refusal. -/
def Settles (p : Proc σ ε α) : Prop := ∀ k s, (p k s).outcome.Settled

/-- The second step has to settle where the first one leads, in one run. -/
theorem settles_bind_run {p : Proc σ ε α} {f : α → Proc σ ε β} {k : Nat} {s : σ}
    (h : (p k s).outcome.Settles stuck)
    (hf : ∀ a, (p k s).outcome = .ok a → (f a k (p k s).state).outcome.Settles stuck) :
    ((p >>= f) k s).outcome.Settles stuck := by
  show (Proc.bind p f k s).outcome.Settles stuck
  unfold Proc.bind
  split
  · next a s' log hrun =>
    rw [hrun] at hf
    exact hf a rfl
  · next e s' log hrun => exact .error e
  · next s' log hrun =>
    rw [hrun] at h
    cases h
  · next s' log hrun =>
    rw [hrun] at h
    cases h with
    | stalled hstuck => exact .stalled hstuck

namespace Settles

theorem pure (a : α) : Settles (Pure.pure a : Proc σ ε α) := fun _ _ => .ok a

theorem throw (e : ε) : Settles (throw e : Proc σ ε α) := fun _ _ => .error e

theorem liftM {o : Outcome ε α} (h : o.Settled) : Settles (liftM o : Proc σ ε α) := fun _ _ => h

theorem get : Settles (MonadState.get : Proc σ ε σ) := fun _ s => .ok s

theorem note (level : Level) (text : String) : Settles (note level text : Proc σ ε Unit) :=
  fun _ _ => .ok ()

theorem bind {p : Proc σ ε α} {f : α → Proc σ ε β} (hp : Settles p) (hf : ∀ a, Settles (f a)) :
    Settles (p >>= f) := fun k s => settles_bind_run (hp k s) fun a _ => hf a k _

theorem ite {b : Prop} [Decidable b] {p p' : Proc σ ε α} (hp : Settles p) (hp' : Settles p') :
    Settles (if b then p else p') := by
  split
  · exact hp
  · exact hp'

theorem apart {p : Proc σ ε α} (hp : Settles p) (s : σ) : Settles (p.apart s : Proc τ ε α) :=
  fun k _ => hp k s

end Settles

end Proc

/-! ## Readers -/

namespace Der

theorem ElementEnd.settled {α : Type} {tag : UInt8} {refused : DerError → Prop} {der : Bytes}
    {run : Run Bytes DerError α} (h : ElementEnd tag refused der run) : run.outcome.Settled := by
  cases h with
  | value => exact .ok _
  | refusal => exact .error _
  | noElement => exact .error _

/-- A reader of one element settles. -/
theorem ReadsElement.settles {α : Type} {tag : UInt8} {refused : DerError → Prop} {r : Reader α}
    (h : ReadsElement tag refused r) : r.Settles := fun k der => (h k der).settled

namespace Reader

theorem integer_settles : integer.Settles := readsElement_integer.settles

theorem smallInteger_settles : smallInteger.Settles := readsElement_smallInteger.settles

theorem utf8String_settles : utf8String.Settles := readsElement_utf8String.settles

theorem identifier_settles (expected : Bytes) : (identifier expected).Settles :=
  (readsElement_identifier expected).settles

theorem finish_settles : finish.Settles := by
  refine Proc.Settles.get.bind fun rest => ?_
  split
  · exact .pure _
  · exact .throw _

/-- A sequence settles if the reader of its content does. -/
theorem inSequence_settles {α : Type} {body : Reader α} (h : body.Settles) :
    (inSequence body).Settles :=
  (readsElement_element sequenceTag).settles.bind fun content =>
    (h.bind fun _ => finish_settles.bind fun _ => .pure _).apart content

end Reader

/-- Decoding settles if the reader does. -/
theorem decode_settled {α : Type} {reader : Reader α} (h : reader.Settles) (der : Bytes) :
    (decode reader der).Settled :=
  (h.bind fun _ => Reader.finish_settles.bind fun _ => .pure _) 0 der

end Der

end ThresholdKeys
