/-!
# Outcomes

A computation of this library ends in one of four ways: with a value, with an error that is part
of its contract, with a *fault* (an arithmetic operation outside its domain: a remainder by zero,
a subtraction below zero, an index or a shift out of range), or *stalled* (a search or a wait did
not end within the rounds it was given). Faults and stalls are outcomes of their own so that
"never faults" is a statement about a function and not a property of its type.

`Outcome` is a lawful monad: the first end that is not a value is the end of the whole.
-/

namespace ThresholdKeys

/-- How a computation ends. -/
inductive Outcome (ε α : Type) where
  /-- It returned a value. -/
  | ok (value : α)
  /-- It was refused for a stated cause. -/
  | error (cause : ε)
  /-- It applied an arithmetic operation outside its domain. -/
  | fault
  /-- It did not end within the rounds it was given. -/
  | stalled
  deriving DecidableEq, Repr

namespace Outcome

variable {ε ε' α β : Type}

/-- Runs the second computation on the value of the first, if there is one. -/
def bind : Outcome ε α → (α → Outcome ε β) → Outcome ε β
  | ok a, f => f a
  | error e, _ => error e
  | fault, _ => fault
  | stalled, _ => stalled

instance : Monad (Outcome ε) where
  pure := ok
  bind := bind

instance : MonadExceptOf ε (Outcome ε) where
  throw := error
  tryCatch
    | error e, h => h e
    | o, _ => o

/-! ## Laws -/

@[simp] theorem pure_eq (a : α) : (pure a : Outcome ε α) = ok a := rfl

@[simp] theorem throw_eq (e : ε) : (throw e : Outcome ε α) = error e := rfl

@[simp] theorem ok_bind (a : α) (f : α → Outcome ε β) : (ok a >>= f) = f a := rfl

@[simp] theorem error_bind (e : ε) (f : α → Outcome ε β) : (error e >>= f) = error e := rfl

@[simp] theorem fault_bind (f : α → Outcome ε β) : (fault >>= f) = fault := rfl

@[simp] theorem stalled_bind (f : α → Outcome ε β) : (stalled >>= f) = stalled := rfl

instance : LawfulMonad (Outcome ε) := LawfulMonad.mk' (Outcome ε)
  (fun o => by cases o <;> rfl) (fun _ _ => rfl) (fun o _ _ => by cases o <;> rfl)

@[simp] theorem map_ok (f : α → β) (a : α) : (f <$> (ok a : Outcome ε α)) = ok (f a) := rfl

@[simp] theorem map_error (f : α → β) (e : ε) :
    (f <$> (error e : Outcome ε α)) = error e := rfl

/-- A last step that only computes returns a value where the computation before it does. -/
theorem map_eq_ok {f : α → β} {o : Outcome ε α} {b : β} :
    f <$> o = ok b ↔ ∃ a, o = ok a ∧ f a = b := by
  cases o <;> simp [Functor.map, bind]

theorem map_eq_error {f : α → β} {o : Outcome ε α} {e : ε} : f <$> o = error e ↔ o = error e := by
  cases o <;> simp [Functor.map, bind]

/-- A computation of two steps returns a value exactly if both do. -/
theorem bind_eq_ok {o : Outcome ε α} {f : α → Outcome ε β} {b : β} :
    (o >>= f) = ok b ↔ ∃ a, o = ok a ∧ f a = ok b := by
  cases o <;> simp

/-! ## Causes -/

/-- The same computation with its cause restated. -/
def mapError (f : ε → ε') : Outcome ε α → Outcome ε' α
  | ok a => ok a
  | error e => error (f e)
  | fault => fault
  | stalled => stalled

@[simp] theorem mapError_ok (f : ε → ε') (a : α) : (ok a).mapError f = ok a := rfl

@[simp] theorem mapError_error (f : ε → ε') (e : ε) :
    (error e : Outcome ε α).mapError f = error (f e) := rfl

@[simp] theorem mapError_fault (f : ε → ε') : (fault : Outcome ε α).mapError f = fault := rfl

@[simp] theorem mapError_stalled (f : ε → ε') :
    (stalled : Outcome ε α).mapError f = stalled := rfl

/-- Restating the cause keeps the values. -/
theorem mapError_eq_ok {f : ε → ε'} {o : Outcome ε α} {a : α} :
    o.mapError f = ok a ↔ o = ok a := by
  cases o <;> simp

/-- The value, if there is one. -/
def value? : Outcome ε α → Option α
  | ok a => some a
  | _ => none

/-- The value of an option, or a refusal. -/
def ofOption (e : ε) : Option α → Outcome ε α
  | some a => ok a
  | none => error e

end Outcome

end ThresholdKeys
