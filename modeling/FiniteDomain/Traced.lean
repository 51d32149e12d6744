import FiniteDomain.Event
import FiniteDomain.Fault

/-!
# Traced computations

A computation that may be refused and that reports events on the way. The events
up to a refusal are kept. The outcome is computed without looking at the events,
so what is said about it below holds whatever was reported.
-/

namespace FiniteDomain

/-- An outcome, and what was reported on the way to it. -/
structure Traced (α : Type) where
  outcome : Except Fault α
  events : List Event

namespace Traced

variable {α β : Type}

/-- An outcome without events. -/
def ofExcept (outcome : Except Fault α) : Traced α := ⟨outcome, []⟩

/-- A refusal. -/
def fail (fault : Fault) : Traced α := ⟨.error fault, []⟩

/-- Reports an event. -/
def note (event : Event) : Traced Unit := ⟨.ok (), [event]⟩

/-- Goes on with the outcome of `x`, unless it was refused. -/
def andThen (x : Traced α) (f : α → Traced β) : Traced β :=
  match x.outcome with
  | .error fault => ⟨.error fault, x.events⟩
  | .ok a =>
      let y := f a
      ⟨y.outcome, x.events ++ y.events⟩

instance : Monad Traced where
  pure a := ⟨.ok a, []⟩
  bind := andThen

@[simp]
theorem outcome_fail (fault : Fault) :
    (fail fault : Traced α).outcome = .error fault := rfl

@[simp]
theorem outcome_ofExcept (x : Except Fault α) : (ofExcept x).outcome = x := rfl

@[simp]
theorem outcome_note (event : Event) : (note event).outcome = .ok () := rfl

@[simp]
theorem outcome_bind (x : Traced α) (f : α → Traced β) :
    (x >>= f).outcome = x.outcome.bind fun a => (f a).outcome := by
  show (andThen x f).outcome = _
  unfold andThen
  cases x.outcome <;> rfl

end Traced

end FiniteDomain
