/-!
# Results with a log

A computation that writes records while it runs and ends with a value or an error.
The records written before an error are kept.
-/
namespace FilterQuery

/-- The outcome of a computation together with the records that it wrote, oldest first. -/
@[ext] structure Logged (ρ ε α : Type) where
  log : List ρ
  result : Except ε α

/-- The weight of a log record. -/
inductive Severity
  | trace
  | debug
  | warn
deriving DecidableEq, Repr

namespace Logged

variable {ρ σ ε ζ α β : Type}

protected def pure (a : α) : Logged ρ ε α := ⟨[], .ok a⟩

/-- Runs `f` on the value of `x`. The records of `f` follow those of `x`. -/
protected def bind (x : Logged ρ ε α) (f : α → Logged ρ ε β) : Logged ρ ε β :=
  match x.result with
  | .ok a => ⟨x.log ++ (f a).log, (f a).result⟩
  | .error e => ⟨x.log, .error e⟩

instance : Monad (Logged ρ ε) where
  pure := Logged.pure
  bind := Logged.bind

/-- Ends with the error `e`. -/
def fail (e : ε) : Logged ρ ε α := ⟨[], .error e⟩

/-- Writes one record. -/
def write (r : ρ) : Logged ρ ε Unit := ⟨[r], .ok ()⟩

/-- Ends as `x` says and writes nothing. -/
def ofExcept (x : Except ε α) : Logged ρ ε α := ⟨[], x⟩

/-- Rewrites the records with `f` and the error with `g`. -/
def lift (f : ρ → σ) (g : ε → ζ) (x : Logged ρ ε α) : Logged σ ζ α :=
  ⟨x.log.map f, x.result.mapError g⟩

@[simp] theorem log_pure (a : α) : (pure a : Logged ρ ε α).log = [] := rfl

@[simp] theorem result_pure (a : α) : (pure a : Logged ρ ε α).result = .ok a := rfl

@[simp] theorem log_write (r : ρ) : (write r : Logged ρ ε Unit).log = [r] := rfl

@[simp] theorem result_write (r : ρ) : (write r : Logged ρ ε Unit).result = .ok () := rfl

@[simp] theorem log_fail (e : ε) : (fail e : Logged ρ ε α).log = [] := rfl

@[simp] theorem result_fail (e : ε) : (fail e : Logged ρ ε α).result = .error e := rfl

@[simp] theorem log_lift (f : ρ → σ) (g : ε → ζ) (x : Logged ρ ε α) :
    (x.lift f g).log = x.log.map f := rfl

@[simp] theorem result_lift (f : ρ → σ) (g : ε → ζ) (x : Logged ρ ε α) :
    (x.lift f g).result = x.result.mapError g := rfl

theorem result_bind (x : Logged ρ ε α) (f : α → Logged ρ ε β) :
    (x >>= f).result = x.result.bind fun a => (f a).result := by
  change (Logged.bind x f).result = _
  unfold Logged.bind
  cases x.result <;> rfl

theorem log_bind_ok {x : Logged ρ ε α} {a : α} (h : x.result = .ok a) (f : α → Logged ρ ε β) :
    (x >>= f).log = x.log ++ (f a).log := by
  change (Logged.bind x f).log = _
  simp [Logged.bind, h]

theorem log_bind_error {x : Logged ρ ε α} {e : ε} (h : x.result = .error e)
    (f : α → Logged ρ ε β) : (x >>= f).log = x.log := by
  change (Logged.bind x f).log = _
  simp [Logged.bind, h]

theorem log_bind_pure (x : Logged ρ ε α) (f : α → β) :
    (x >>= fun a => pure (f a)).log = x.log := by
  cases h : x.result with
  | error e => rw [log_bind_error h]
  | ok a => rw [log_bind_ok h, log_pure, List.append_nil]

/-- A sequence succeeds exactly when both of its parts do. -/
theorem result_bind_eq_ok {x : Logged ρ ε α} {f : α → Logged ρ ε β} {b : β} :
    (x >>= f).result = .ok b ↔ ∃ a, x.result = .ok a ∧ (f a).result = .ok b := by
  rw [result_bind]
  cases x.result <;> simp [Except.bind]

theorem result_bind_eq_error {x : Logged ρ ε α} {f : α → Logged ρ ε β} {e : ε} :
    (x >>= f).result = .error e ↔
      x.result = .error e ∨ ∃ a, x.result = .ok a ∧ (f a).result = .error e := by
  rw [result_bind]
  cases x.result <;> simp [Except.bind]

theorem bind_eq_of_ok {x : Logged ρ ε α} {a : α} (h : x.result = .ok a)
    (f : α → Logged ρ ε β) : x >>= f = ⟨x.log ++ (f a).log, (f a).result⟩ := by
  change Logged.bind x f = _
  rw [Logged.bind, h]

theorem bind_eq_of_error {x : Logged ρ ε α} {e : ε} (h : x.result = .error e)
    (f : α → Logged ρ ε β) : x >>= f = ⟨x.log, .error e⟩ := by
  change Logged.bind x f = _
  rw [Logged.bind, h]

theorem bind_bind {γ : Type} (x : Logged ρ ε α) (f : α → Logged ρ ε β) (g : β → Logged ρ ε γ) :
    x >>= f >>= g = x >>= fun a => f a >>= g := by
  cases h : x.result with
  | error e =>
    rw [bind_eq_of_error h, bind_eq_of_error h]
    exact bind_eq_of_error rfl g
  | ok a =>
    rw [bind_eq_of_ok h, bind_eq_of_ok h]
    cases hf : (f a).result with
    | error e => rw [bind_eq_of_error rfl, bind_eq_of_error hf]
    | ok b => rw [bind_eq_of_ok rfl, bind_eq_of_ok hf, List.append_assoc]

theorem pure_bind (a : α) (f : α → Logged ρ ε β) : pure a >>= f = f a := rfl

theorem bind_pure (x : Logged ρ ε α) : (x >>= fun a => pure a) = x := by
  cases h : x.result with
  | error e =>
    rw [bind_eq_of_error h, ← h]
  | ok a =>
    rw [bind_eq_of_ok h, log_pure, List.append_nil, result_pure, ← h]

theorem bind_of_ok {x : Logged ρ ε α} {a : α} (h : x.result = .ok a) (f : α → Logged ρ ε β) :
    x >>= f = x >>= fun _ => f a := by
  rw [bind_eq_of_ok h, bind_eq_of_ok h]

theorem ofExcept_twice (x : Except ε Unit) (y : Logged ρ ε α) :
    (ofExcept x >>= fun _ => ofExcept x >>= fun _ => y) = ofExcept x >>= fun _ => y := by
  cases x <;> rfl

/-- The computation `x` with the records in `log` before its own. -/
def after (log : List ρ) (x : Logged ρ ε α) : Logged ρ ε α := ⟨log ++ x.log, x.result⟩

theorem after_write (log : List ρ) (r : ρ) (f : Unit → Logged ρ ε α) :
    after log (write r >>= f) = after (log ++ [r]) (f ()) := by
  rw [after, bind_eq_of_ok (result_write r), log_write, ← List.append_assoc, after]

/-- The same computation, whose value is known to be its result. -/
def attach : (x : Logged ρ ε α) → Logged ρ ε {a : α // x.result = .ok a}
  | ⟨log, .ok a⟩ => ⟨log, .ok ⟨a, rfl⟩⟩
  | ⟨log, .error e⟩ => ⟨log, .error e⟩

theorem attach_bind (x : Logged ρ ε α) (f : α → Logged ρ ε β) :
    (x.attach >>= fun a => f a.1) = x >>= f := by
  obtain ⟨log, result⟩ := x
  cases result <;> rfl

end Logged

end FilterQuery
