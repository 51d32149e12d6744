import FiniteDomain.Network.Basic
import FiniteDomain.Traced

/-!
# Postconditions

Two judgments in which the lemmas about computations are stated. `Returns` is total:
the computation is not refused, and its result is as described. `Phase.Ends` has one
description for a phase that passes and one for a phase that gets stuck, because what
a conflict means is as much a result as the network that is left.

Both compose. The rules for sequencing are all that a proof about a longer
computation needs to know of the shorter ones in it.
-/

namespace FiniteDomain

variable {α β : Type} {p p' : α → Prop} {q : β → Prop}

/-- The computation is not refused, and its result is as described. -/
def Returns (x : Except Fault α) (p : α → Prop) : Prop := ∃ a, x = .ok a ∧ p a

theorem Returns.ok {a : α} (h : p a) : Returns (.ok a) p := ⟨a, rfl, h⟩

theorem Returns.of_eq_ok {x : Except Fault α} {a : α} (hx : Returns x p) (h : x = .ok a) : p a := by
  obtain ⟨b, hb, hp⟩ := hx
  rw [h] at hb
  cases hb
  exact hp

theorem Returns.mono {x : Except Fault α} (hx : Returns x p) (h : ∀ a, p a → p' a) :
    Returns x p' := by
  obtain ⟨a, ha, hp⟩ := hx
  exact ⟨a, ha, h a hp⟩

theorem Returns.bind {x : Except Fault α} {f : α → Except Fault β} (hx : Returns x p)
    (hf : ∀ a, p a → Returns (f a) q) : Returns (x >>= f) q := by
  obtain ⟨a, ha, hp⟩ := hx
  obtain ⟨b, hb, hq⟩ := hf a hp
  refine ⟨b, ?_, hq⟩
  rw [ha]
  exact hb

namespace Traced

theorem returns_pure {a : α} (h : p a) : Returns (pure a : Traced α).outcome p := ⟨a, rfl, h⟩

theorem returns_bind {x : Traced α} {f : α → Traced β} (hx : Returns x.outcome p)
    (hf : ∀ a, p a → Returns (f a).outcome q) : Returns (x >>= f).outcome q := by
  rw [outcome_bind]
  exact hx.bind hf

/-- A sequence has a result if both of its parts have one. -/
theorem outcome_bind_eq_ok {x : Traced α} {f : α → Traced β} {b : β} :
    (x >>= f).outcome = .ok b ↔ ∃ a, x.outcome = .ok a ∧ (f a).outcome = .ok b := by
  rw [outcome_bind]
  cases x.outcome with
  | error fault => simp [Except.bind]
  | ok a => simp [Except.bind]

/-- A check that passes changes nothing. -/
theorem returns_check {x : Traced Unit} {f : Unit → Traced β} (hx : x.outcome = .ok ())
    (hf : Returns (f ()).outcome q) : Returns (x >>= f).outcome q :=
  returns_bind (p := fun _ => True) ⟨(), hx, trivial⟩ fun _ _ => hf

/-- Reporting an event changes nothing. -/
theorem returns_note {event : Event} {f : Unit → Traced β} (hf : Returns (f ()).outcome q) :
    Returns (note event >>= f).outcome q :=
  returns_check rfl hf

/-- What is returned may be returned along with something else. -/
theorem returns_pair {x : Traced α} (h : Returns x.outcome p) (b : β) :
    Returns (x >>= fun a => pure (a, b)).outcome fun r => p r.1 :=
  returns_bind h fun _ ha => returns_pure ha

end Traced

namespace Phase

variable {good good' : Network → Prop} {bad bad' : Conflict → Prop}

/-- A phase that passes leaves a `good` network, and one that gets stuck has a `bad` cause. -/
def Ends (phase : Phase) (good : Network → Prop) (bad : Conflict → Prop) : Prop :=
  match phase with
  | passed net => good net
  | stuck _ cause => bad cause

theorem Ends.mono {phase : Phase} (h : phase.Ends good bad) (hgood : ∀ net, good net → good' net)
    (hbad : ∀ cause, bad cause → bad' cause) : phase.Ends good' bad' := by
  cases phase with
  | passed net => exact hgood net h
  | stuck net cause => exact hbad cause h

theorem Ends.andThen {phase : Phase} {next : Network → Phase} (h : phase.Ends good bad)
    (hnext : ∀ net, good net → (next net).Ends good' bad')
    (hbad : ∀ cause, bad cause → bad' cause) :
    (phase.andThen next).Ends good' bad' := by
  cases phase with
  | passed net => exact hnext net h
  | stuck net cause => exact hbad cause h

end Phase

end FiniteDomain
