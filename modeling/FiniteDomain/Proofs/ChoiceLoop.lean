import FiniteDomain.Proofs.Confirmation
import Mathlib

/-!
# One step of choosing

The loop over the equations of a disjunction makes an attempt at each and looks at the
verdict of the attempt alone. A solution ends it, a refutation leaves everything as it
was, and an attempt that was left open is remembered. These are the equations by which
other files take the loop apart, so that none of them has to go into an attempt.

Two things can be said of a loop without knowing how its attempts end. It refutes
nothing but its own disjunction, and it refutes nothing once an attempt was left open.
-/

namespace FiniteDomain

namespace Formula

variable {settings : Settings} {mode : Mode} {scope : Scope} {xs : List Variable} {ahead : Bool}
  {deeper : List Equation → Traced Verdict} {f : Formula} {c : Clause} {chosen es : List Equation}
  {e : Equation} {undecided : Option (List (String × String))} {verdict : Verdict}

/-- What is found out about an equation on top of what was chosen. -/
def attempt (scope : Scope) (settings : Settings) (ahead : Bool)
    (deeper : List Equation → Traced Verdict) (chosen : List Equation) (e : Equation) :
    Traced Verdict :=
  followUp (outlook scope settings ahead (chosen ++ [e])) fun _ => deeper (chosen ++ [e])

theorem tryEquations_of_sat {s : Assignment}
    (h : (attempt scope settings ahead deeper chosen e).outcome = .ok (.sat s)) :
    (tryEquations scope settings ahead deeper c chosen (e :: es) undecided).outcome =
      .ok (.sat s) :=
  Traced.outcome_bind_eq_ok.2 ⟨(), rfl, Traced.outcome_bind_eq_ok.2 ⟨_, h, rfl⟩⟩

theorem tryEquations_of_unsat {cause : Conflict}
    (h : (attempt scope settings ahead deeper chosen e).outcome = .ok (.unsat cause)) :
    (tryEquations scope settings ahead deeper c chosen (e :: es) undecided).outcome =
      (tryEquations scope settings ahead deeper c chosen es undecided).outcome := by
  rw [tryEquations, Traced.outcome_bind]
  show ((attempt scope settings ahead deeper chosen e) >>= _).outcome = _
  rw [Traced.outcome_bind, h]
  rfl

theorem tryEquations_of_unknown {pairs : List (String × String)}
    (h : (attempt scope settings ahead deeper chosen e).outcome = .ok (.unknown pairs)) :
    (tryEquations scope settings ahead deeper c chosen (e :: es) undecided).outcome =
      (tryEquations scope settings ahead deeper c chosen es
        (undecided <|> some pairs)).outcome := by
  rw [tryEquations, Traced.outcome_bind]
  show ((attempt scope settings ahead deeper chosen e) >>= _).outcome = _
  rw [Traced.outcome_bind, h]
  rfl

/-- A loop that has come to an end has made an attempt at its first equation. -/
theorem exists_attempt
    (h : (tryEquations scope settings ahead deeper c chosen (e :: es) undecided).outcome =
      .ok verdict) :
    ∃ found, (attempt scope settings ahead deeper chosen e).outcome = .ok found := by
  obtain ⟨-, -, h⟩ := Traced.outcome_bind_eq_ok.1 h
  obtain ⟨found, hfound, -⟩ := Traced.outcome_bind_eq_ok.1 h
  exact ⟨found, hfound⟩

/-- A disjunction is refuted as a whole, and only if no attempt at it was left open. -/
theorem eq_of_tryEquations_unsat {cause : Conflict} :
    ∀ {undecided : Option (List (String × String))},
      (tryEquations scope settings ahead deeper c chosen es undecided).outcome =
        .ok (.unsat cause) → cause = .clause c ∧ undecided = none := by
  induction es with
  | nil =>
      intro undecided h
      cases undecided with
      | none =>
          cases h
          exact ⟨rfl, rfl⟩
      | some pairs => cases h
  | cons e es ih =>
      intro undecided h
      obtain ⟨found, hfound⟩ := exists_attempt h
      cases found with
      | sat s =>
          rw [tryEquations_of_sat hfound] at h
          cases h
      | unsat cause' =>
          rw [tryEquations_of_unsat hfound] at h
          exact ih h
      | unknown pairs =>
          rw [tryEquations_of_unknown hfound] at h
          have hnone := (ih h).2
          cases undecided <;> cases hnone

end Formula

end FiniteDomain
