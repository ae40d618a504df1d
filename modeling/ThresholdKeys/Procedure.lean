import ThresholdKeys.Outcome

/-!
# Procedures

A procedure works on a state, may fail, and writes log records. Its state is kept when it fails:
a store that went through before a later one was refused stays stored, bytes drawn before a source
ran dry stay drawn. A procedure is also given a *patience*, the number of rounds that each of its
unbounded searches and waits may take before it is declared stalled; more patience never changes a
run that ended by itself.

* `Run σ ε α` is what a run leaves behind: an outcome, a state and the records written.
* `Proc σ ε α` is a procedure, a lawful monad.
* `Proc.within` runs a procedure on a part of a larger state, `Proc.attempt` turns its refusal
  into a value, and `Proc.search` repeats one until it finds something.
-/

namespace ThresholdKeys

/-- The urgency of a log record. -/
inductive Level where
  | debug
  | info
  | warn
  deriving DecidableEq, Repr

/-- One line of the log. -/
structure LogRecord where
  level : Level
  text : String
  deriving DecidableEq, Repr

/-- What a run of a procedure leaves behind. -/
structure Run (σ ε α : Type) where
  outcome : Outcome ε α
  state : σ
  log : List LogRecord

/-- A procedure on the state `σ` that may fail with `ε` and returns `α`: given its patience and a
state, it runs. -/
def Proc (σ ε α : Type) : Type := Nat → σ → Run σ ε α

namespace Proc

variable {σ τ ε ε' α β : Type}

/-- Runs a procedure with a patience on a state. -/
def run (p : Proc σ ε α) (patience : Nat) (s : σ) : Run σ ε α := p patience s

/-- A computation that leaves the state alone. -/
def lift (o : Outcome ε α) : Proc σ ε α := fun _ s => ⟨o, s, []⟩

/-- One procedure, then a second one that depends on its value; the records of both. -/
def bind (p : Proc σ ε α) (f : α → Proc σ ε β) : Proc σ ε β := fun patience s =>
  match p patience s with
  | ⟨.ok a, s', log⟩ =>
    let r := f a patience s'
    ⟨r.outcome, r.state, log ++ r.log⟩
  | ⟨.error e, s', log⟩ => ⟨.error e, s', log⟩
  | ⟨.fault, s', log⟩ => ⟨.fault, s', log⟩
  | ⟨.stalled, s', log⟩ => ⟨.stalled, s', log⟩

instance : Monad (Proc σ ε) where
  pure a := lift (.ok a)
  bind := bind

instance : MonadLift (Outcome ε) (Proc σ ε) where
  monadLift := lift

instance : MonadExceptOf ε (Proc σ ε) where
  throw e := lift (.error e)
  tryCatch p h := fun patience s =>
    match p patience s with
    | ⟨.error e, s', log⟩ =>
      let r := h e patience s'
      ⟨r.outcome, r.state, log ++ r.log⟩
    | r => r

instance : MonadStateOf σ (Proc σ ε) where
  get := fun _ s => ⟨.ok s, s, []⟩
  set s := fun _ _ => ⟨.ok (), s, []⟩
  modifyGet f := fun _ s => ⟨.ok (f s).1, (f s).2, []⟩

/-- Writes a log record. -/
def note (level : Level) (text : String) : Proc σ ε Unit := fun _ s => ⟨.ok (), s, [⟨level, text⟩]⟩

/-- The same procedure with its cause restated. -/
def mapError (f : ε → ε') (p : Proc σ ε α) : Proc σ ε' α := fun patience s =>
  let r := p patience s
  ⟨r.outcome.mapError f, r.state, r.log⟩

/-- Turns a refusal into a value. A fault or a stall goes through. -/
def attempt (p : Proc σ ε α) : Proc σ ε' (Except ε α) := fun patience s =>
  match p patience s with
  | ⟨.ok a, s', log⟩ => ⟨.ok (.ok a), s', log⟩
  | ⟨.error e, s', log⟩ => ⟨.ok (.error e), s', log⟩
  | ⟨.fault, s', log⟩ => ⟨.fault, s', log⟩
  | ⟨.stalled, s', log⟩ => ⟨.stalled, s', log⟩

/-- Runs a procedure on the part of a larger state that `view` shows and `update` replaces. -/
def within (view : τ → σ) (update : σ → τ → τ) (p : Proc σ ε α) : Proc τ ε α := fun patience t =>
  let r := p patience (view t)
  ⟨r.outcome, update r.state t, r.log⟩

/-- Runs a procedure on a state of its own, which is dropped afterwards. -/
def apart (s : σ) (p : Proc σ ε α) : Proc τ ε α := fun patience t =>
  let r := p patience s
  ⟨r.outcome, t, r.log⟩

/-- Repeats a procedure until it finds a value, for at most `rounds` rounds. -/
def searchFor (p : Proc σ ε (Option α)) : (rounds : Nat) → Proc σ ε α
  | 0 => lift .stalled
  | rounds + 1 => p.bind fun
    | some a => lift (.ok a)
    | none => searchFor p rounds

/-- Repeats a procedure until it finds a value, as long as patience lasts. -/
def search (p : Proc σ ε (Option α)) : Proc σ ε α := fun patience s =>
  searchFor p patience patience s

/-! ## Laws -/

theorem throw_apply (e : ε) (k : Nat) (s : σ) :
    (throw e : Proc σ ε α) k s = ⟨.error e, s, []⟩ := rfl

theorem note_apply (level : Level) (text : String) (k : Nat) (s : σ) :
    (note level text : Proc σ ε Unit) k s = ⟨.ok (), s, [⟨level, text⟩]⟩ := rfl

/-- A step that returned a value goes on in the state it left. -/
theorem bind_apply_ok {p : Proc σ ε α} {k : Nat} {s s' : σ} {a : α} {log : List LogRecord}
    (h : p k s = ⟨.ok a, s', log⟩) (f : α → Proc σ ε β) :
    (p >>= f) k s = ⟨(f a k s').outcome, (f a k s').state, log ++ (f a k s').log⟩ := by
  show bind p f k s = _
  simp [bind, h]

/-- A step that was refused ends the whole, in the state it left. -/
theorem bind_apply_error {p : Proc σ ε α} {k : Nat} {s s' : σ} {e : ε} {log : List LogRecord}
    (h : p k s = ⟨.error e, s', log⟩) (f : α → Proc σ ε β) :
    (p >>= f) k s = ⟨.error e, s', log⟩ := by
  show bind p f k s = _
  simp [bind, h]

/-- So does a step that stalled. -/
theorem bind_apply_stalled {p : Proc σ ε α} {k : Nat} {s s' : σ} {log : List LogRecord}
    (h : p k s = ⟨.stalled, s', log⟩) (f : α → Proc σ ε β) :
    (p >>= f) k s = ⟨.stalled, s', log⟩ := by
  show bind p f k s = _
  simp [bind, h]

/-- A procedure of two steps returns a value exactly if both do, and leaves the state of the second
one with the records of both. -/
theorem bind_eq_ok_iff {p : Proc σ ε α} {f : α → Proc σ ε β} {k : Nat} {s s' : σ} {b : β}
    {log : List LogRecord} : (p >>= f) k s = ⟨.ok b, s', log⟩ ↔
      ∃ a s₁ log₁ log₂, p k s = ⟨.ok a, s₁, log₁⟩ ∧ f a k s₁ = ⟨.ok b, s', log₂⟩ ∧
        log = log₁ ++ log₂ := by
  constructor
  · intro h
    change bind p f k s = _ at h
    unfold bind at h
    split at h
    · next a s₁ log₁ hp =>
      simp only [Run.mk.injEq] at h
      exact ⟨a, s₁, log₁, (f a k s₁).log, hp, by rw [← h.1, ← h.2.1], h.2.2.symm⟩
    all_goals simp at h
  · rintro ⟨a, s₁, log₁, log₂, hp, hf, rfl⟩
    rw [bind_apply_ok hp, hf]

/-- The same, if it does not matter whose the records are. -/
theorem bind_eq_ok {p : Proc σ ε α} {f : α → Proc σ ε β} {k : Nat} {s s' : σ} {b : β}
    {log : List LogRecord} (h : (p >>= f) k s = ⟨.ok b, s', log⟩) :
    ∃ a s₁ log₁ log₂, p k s = ⟨.ok a, s₁, log₁⟩ ∧ f a k s₁ = ⟨.ok b, s', log₂⟩ := by
  obtain ⟨a, s₁, log₁, log₂, hp, hf, -⟩ := bind_eq_ok_iff.1 h
  exact ⟨a, s₁, log₁, log₂, hp, hf⟩

/-- A search finds a value in its first round, or goes on where that round left off. -/
theorem searchFor_succ_eq_ok_iff {p : Proc σ ε (Option α)} {rounds k : Nat} {s s' : σ} {a : α}
    {log : List LogRecord} : searchFor p (rounds + 1) k s = ⟨.ok a, s', log⟩ ↔
      p k s = ⟨.ok (some a), s', log⟩ ∨
        ∃ s₁ log₁ log₂, p k s = ⟨.ok none, s₁, log₁⟩ ∧
          searchFor p rounds k s₁ = ⟨.ok a, s', log₂⟩ ∧ log = log₁ ++ log₂ := by
  change (p >>= fun
    | some a => lift (.ok a)
    | none => searchFor p rounds) k s = _ ↔ _
  rw [bind_eq_ok_iff]
  constructor
  · rintro ⟨found, s₁, log₁, log₂, hp, hrest, rfl⟩
    cases found with
    | some a' =>
      cases hrest
      exact .inl (by rw [hp, List.append_nil])
    | none => exact .inr ⟨s₁, log₁, log₂, hp, hrest, rfl⟩
  · rintro (hp | ⟨s₁, log₁, log₂, hp, hrest, rfl⟩)
    · exact ⟨some a, s', log, [], hp, rfl, (List.append_nil log).symm⟩
    · exact ⟨none, s₁, log₁, log₂, hp, hrest, rfl⟩

/-- The same of outcomes alone, for steps whose states and records do not matter. -/
theorem outcome_bind_eq_ok {p : Proc σ ε α} {f : α → Proc σ ε β} {k : Nat} {s : σ} {b : β} :
    ((p >>= f) k s).outcome = .ok b ↔
      ∃ a, (p k s).outcome = .ok a ∧ (f a k (p k s).state).outcome = .ok b := by
  show (bind p f k s).outcome = .ok b ↔ _
  unfold bind
  split <;> simp_all

/-- The same for a first step that only computes. -/
theorem outcome_liftM_bind_eq_ok {o : Outcome ε α} {f : α → Proc σ ε β} {k : Nat} {s : σ} {b : β} :
    (((liftM o : Proc σ ε α) >>= f) k s).outcome = .ok b ↔
      ∃ a, o = .ok a ∧ (f a k s).outcome = .ok b :=
  outcome_bind_eq_ok

/-- A step that looks at the state. -/
theorem get_bind_apply (f : σ → Proc σ ε α) (k : Nat) (s : σ) :
    ((get : Proc σ ε σ) >>= f) k s = f s k s := rfl

/-- A step that changes the state. -/
theorem modify_bind_apply (g : σ → σ) (f : PUnit → Proc σ ε α) (k : Nat) (s : σ) :
    ((modify g : Proc σ ε PUnit) >>= f) k s = f () k (g s) := rfl

/-- A value is not caught. -/
theorem tryCatch_apply_ok {p : Proc σ ε α} {k : Nat} {s s' : σ} {a : α} {log : List LogRecord}
    (h : p k s = ⟨.ok a, s', log⟩) (handler : ε → Proc σ ε α) :
    (tryCatch p handler) k s = ⟨.ok a, s', log⟩ := by
  simp [tryCatch, tryCatchThe, MonadExceptOf.tryCatch, h]

/-- A refusal is caught in the state that it left. -/
theorem tryCatch_apply_error {p : Proc σ ε α} {k : Nat} {s s' : σ} {e : ε} {log : List LogRecord}
    (h : p k s = ⟨.error e, s', log⟩) (handler : ε → Proc σ ε α) :
    (tryCatch p handler) k s
      = ⟨(handler e k s').outcome, (handler e k s').state, log ++ (handler e k s').log⟩ := by
  simp [tryCatch, tryCatchThe, MonadExceptOf.tryCatch, h]

theorem mapError_apply {p : Proc σ ε α} {k : Nat} {s s' : σ} {o : Outcome ε α}
    {log : List LogRecord} (h : p k s = ⟨o, s', log⟩) (f : ε → ε') :
    p.mapError f k s = ⟨o.mapError f, s', log⟩ := by
  simp [mapError, h]

/-- Restating the cause keeps the values. -/
theorem mapError_eq_ok {p : Proc σ ε α} {f : ε → ε'} {k : Nat} {s s' : σ} {a : α}
    {log : List LogRecord} (h : p.mapError f k s = ⟨.ok a, s', log⟩) :
    p k s = ⟨.ok a, s', log⟩ := by
  obtain ⟨houtcome, rfl, rfl⟩ := Run.mk.inj h
  rw [← Outcome.mapError_eq_ok.1 houtcome]

theorem attempt_apply_ok {p : Proc σ ε α} {k : Nat} {s s' : σ} {a : α} {log : List LogRecord}
    (h : p k s = ⟨.ok a, s', log⟩) :
    (attempt p : Proc σ ε' (Except ε α)) k s = ⟨.ok (.ok a), s', log⟩ := by
  simp [attempt, h]

theorem attempt_apply_error {p : Proc σ ε α} {k : Nat} {s s' : σ} {e : ε} {log : List LogRecord}
    (h : p k s = ⟨.error e, s', log⟩) :
    (attempt p : Proc σ ε' (Except ε α)) k s = ⟨.ok (.error e), s', log⟩ := by
  simp [attempt, h]

/-- After a last step that returns a value in every state, the whole ends as the step before it. -/
theorem outcome_bind_value {p : Proc σ ε α} {f : α → Proc σ ε β} {g : α → β} {k : Nat} {s : σ}
    (hf : ∀ a s', (f a k s').outcome = .ok (g a)) :
    ((p >>= f) k s).outcome = g <$> (p k s).outcome := by
  show (bind p f k s).outcome = _
  unfold bind
  split <;> simp_all [Functor.map, Outcome.bind]

/-- A last step that only computes. -/
theorem bind_pure_apply {p : Proc σ ε α} {k : Nat} {s s' : σ} {o : Outcome ε α}
    {log : List LogRecord} (h : p k s = ⟨o, s', log⟩) (f : α → β) :
    (p >>= fun a => pure (f a)) k s = ⟨f <$> o, s', log⟩ := by
  show bind p (fun a => lift (.ok (f a))) k s = _
  cases o <;> simp [bind, h, lift, Functor.map, Outcome.bind]

/-- A last step that only writes records and computes. -/
theorem bind_noting_apply {p : Proc σ ε α} {k : Nat} {s s' : σ} {o : Outcome ε α}
    {log : List LogRecord} (h : p k s = ⟨o, s', log⟩) {f : α → Proc σ ε β} {g : α → β}
    (hf : ∀ a, ∃ log', f a k s' = ⟨.ok (g a), s', log'⟩) :
    ∃ log', (p >>= f) k s = ⟨g <$> o, s', log'⟩ := by
  cases o with
  | ok a =>
    obtain ⟨log', hlast⟩ := hf a
    rw [bind_apply_ok h, hlast]
    exact ⟨_, rfl⟩
  | error e => exact ⟨log, bind_apply_error h f⟩
  | fault => exact ⟨log, by show bind p f k s = _; simp [bind, h, Functor.map, Outcome.bind]⟩
  | stalled => exact ⟨log, by show bind p f k s = _; simp [bind, h, Functor.map, Outcome.bind]⟩

/-- A lifted value is bound as it is. -/
@[simp] theorem liftM_ok_bind (a : α) (f : α → Proc σ ε β) :
    ((liftM (Outcome.ok a : Outcome ε α) : Proc σ ε α) >>= f) = f a := rfl

@[simp] theorem liftM_error_bind (e : ε) (f : α → Proc σ ε β) :
    ((liftM (Outcome.error e : Outcome ε α) : Proc σ ε α) >>= f) = throw e := rfl

instance : LawfulMonad (Proc σ ε) := LawfulMonad.mk' (Proc σ ε)
  (fun p => by
    funext k s
    show bind p (fun a => lift (.ok a)) k s = p k s
    unfold bind lift
    split <;> simp_all)
  (fun a f => by
    funext k s
    show bind (lift (.ok a)) f k s = f a k s
    simp [bind, lift])
  (fun p f g => by
    funext k s
    show bind (bind p f) g k s = bind p (fun a => bind (f a) g) k s
    unfold bind
    cases hp : p k s with
    | mk o s' log =>
      cases o with
      | ok a =>
        cases hf : f a k s' with
        | mk o' s'' log' => cases o' <;> simp [hf, List.append_assoc]
      | error e => simp
      | fault => simp
      | stalled => simp)

end Proc

end ThresholdKeys
