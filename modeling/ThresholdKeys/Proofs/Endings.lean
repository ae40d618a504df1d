import ThresholdKeys.Procedure

/-!
# How runs end

`Ends Q P` says of a computation that it never faults, that a value it returns has `Q` and that it
is refused only for causes with `P`. A search may still stall. The property passes from the steps of
a procedure to the whole, so what a procedure returns and what it can be refused for is read off the
procedures that it calls.
-/

namespace ThresholdKeys

/-- A value with `Q`, a refusal for a cause with `P`, or a stall; never a fault. -/
def Outcome.Ends {ε α : Type} (Q : α → Prop) (P : ε → Prop) : Outcome ε α → Prop
  | .ok a => Q a
  | .error e => P e
  | .fault => False
  | .stalled => True

/-- Less may be said of the value and of the cause. -/
theorem Outcome.Ends.mono {ε α : Type} {Q Q' : α → Prop} {P P' : ε → Prop} {o : Outcome ε α}
    (h : o.Ends Q P) (hQ : ∀ a, Q a → Q' a) (hP : ∀ e, P e → P' e) : o.Ends Q' P' := by
  cases o with
  | ok a => exact hQ a h
  | error e => exact hP e h
  | fault => exact h
  | stalled => trivial

theorem Outcome.Ends.mapError {ε ε' α : Type} {Q : α → Prop} {P : ε → Prop} {P' : ε' → Prop}
    {f : ε → ε'} {o : Outcome ε α} (h : o.Ends Q P) (hf : ∀ e, P e → P' (f e)) :
    (o.mapError f).Ends Q P' := by
  cases o with
  | ok a => exact h
  | error e => exact hf e h
  | fault => exact h
  | stalled => trivial

namespace Proc

variable {σ ε ε' α β : Type} {Q : α → Prop} {Q' : β → Prop} {P : ε → Prop}

/-- However the procedure is run, it ends so. -/
def Ends (Q : α → Prop) (P : ε → Prop) (p : Proc σ ε α) : Prop := ∀ k s, (p k s).outcome.Ends Q P

namespace Ends

theorem pure {a : α} (h : Q a) : Ends Q P (Pure.pure a : Proc σ ε α) := fun _ _ => h

theorem throw {e : ε} (h : P e) : Ends Q P (throw e : Proc σ ε α) := fun _ _ => h

/-- A step that only computes ends as the computation does. -/
theorem liftM {o : Outcome ε α} (h : o.Ends Q P) : Ends Q P (liftM o : Proc σ ε α) := fun _ _ => h

theorem note (level : Level) (text : String) :
    Ends (fun _ => True) P (note level text : Proc σ ε Unit) := fun _ _ => trivial

theorem mono {Q' : α → Prop} {P' : ε → Prop} {p : Proc σ ε α} (hp : Ends Q P p)
    (hQ : ∀ a, Q a → Q' a) (hP : ∀ e, P e → P' e) : Ends Q' P' p := fun k s => (hp k s).mono hQ hP

theorem bind {p : Proc σ ε α} {f : α → Proc σ ε β} (hp : Ends Q P p)
    (hf : ∀ a, Q a → Ends Q' P (f a)) : Ends Q' P (p >>= f) := by
  intro k s
  have h := hp k s
  show (Proc.bind p f k s).outcome.Ends Q' P
  unfold Proc.bind
  split
  · next a s' log hrun =>
    rw [hrun] at h
    exact hf a h k s'
  all_goals
    next hrun =>
      rw [hrun] at h
      exact h

theorem mapError {P' : ε' → Prop} {p : Proc σ ε α} {f : ε → ε'} (hp : Ends Q P p)
    (hf : ∀ e, P e → P' (f e)) : Ends Q P' (p.mapError f) := fun k s =>
  (hp k s).mapError hf

theorem searchFor {p : Proc σ ε (Option α)} (hp : Ends (fun found => ∀ a ∈ found, Q a) P p)
    (rounds : Nat) : Ends Q P (Proc.searchFor p rounds) := by
  induction rounds with
  | zero => exact fun _ _ => trivial
  | succ rounds ih =>
    refine hp.bind ?_
    intro found h
    cases found with
    | some a => exact pure (h a rfl)
    | none => exact ih

theorem search {p : Proc σ ε (Option α)} (hp : Ends (fun found => ∀ a ∈ found, Q a) P p) :
    Ends Q P (Proc.search p) := fun k s => hp.searchFor k k s

end Ends

/-! ## States -/

variable {I : σ → Prop}

/-- However the procedure is run, a state with the property is left with it. -/
def Keeps (I : σ → Prop) (p : Proc σ ε α) : Prop := ∀ k s, I s → I (p k s).state

namespace Keeps

theorem pure (a : α) : Keeps I (Pure.pure a : Proc σ ε α) := fun _ _ h => h

theorem throw (e : ε) : Keeps I (throw e : Proc σ ε α) := fun _ _ h => h

theorem lift (o : Outcome ε α) : Keeps I (Proc.lift o : Proc σ ε α) := fun _ _ h => h

theorem note (level : Level) (text : String) : Keeps I (note level text : Proc σ ε Unit) :=
  fun _ _ h => h

theorem attempt {p : Proc σ ε α} (hp : Keeps I p) :
    Keeps I (p.attempt : Proc σ ε' (Except ε α)) := by
  intro k s hs
  have h := hp k s hs
  unfold Proc.attempt
  split
  all_goals
    next hrun =>
      rw [hrun] at h
      exact h

theorem bind {p : Proc σ ε α} {f : α → Proc σ ε β} (hp : Keeps I p) (hf : ∀ a, Keeps I (f a)) :
    Keeps I (p >>= f) := by
  intro k s hs
  have h := hp k s hs
  show I (Proc.bind p f k s).state
  unfold Proc.bind
  split
  · next a s' log hrun =>
    rw [hrun] at h
    exact hf a k s' h
  all_goals
    next hrun =>
      rw [hrun] at h
      exact h

end Keeps

end Proc

end ThresholdKeys
