import FiniteDomain.Proofs.SearchBudget
import Mathlib

/-!
# Asking for a witness does not change the search

A search that is asked for a witness makes the same choices as one that is only asked
whether there is a solution, since the mode is not looked at before a network has been
accepted. The verdict of the second is that of the first without the witness, and both
count the same number of values.

The converse would not hold of any network: reading a witness may be refused where
nobody asks for one. So the statement starts from the run that reads it.
-/

namespace FiniteDomain

/-- The verdict without the solution that was found. -/
def Verdict.withoutWitness : Verdict → Verdict
  | sat _ => sat .empty
  | unsat cause => unsat cause
  | unknown pairs => unknown pairs

namespace Network

variable {settings : Settings} {net : Network} {x : Nat} {r : Verdict × Nat} {verdict : Verdict}

/-- An answer that does not depend on the mode has no witness in it. -/
theorem refute_withoutWitness {cause : Conflict} {tried : Nat}
    (h : (refute cause >>= fun verdict => pure (verdict, tried)).outcome = .ok r) :
    (refute cause >>= fun verdict => pure (verdict, tried)).outcome =
      .ok (r.1.withoutWitness, r.2) := by
  cases h
  rfl

theorem accept_decide {tried : Nat}
    (h : (accept settings .witness net >>= fun verdict => pure (verdict, tried)).outcome = .ok r) :
    (accept settings .decide net >>= fun verdict => pure (verdict, tried)).outcome =
      .ok (r.1.withoutWitness, r.2) := by
  obtain ⟨verdict, haccept, hr⟩ := Traced.outcome_bind_eq_ok.1 h
  obtain ⟨found, -, hverdict⟩ := Traced.outcome_bind_eq_ok.1 haccept
  cases hverdict
  cases hr
  rfl

theorem tryValues_decide {deciding witnessing : Network → Nat → Traced (Verdict × Nat)}
    (hdeeper : ∀ {net tried r}, (witnessing net tried).outcome = .ok r →
      (deciding net tried).outcome = .ok (r.1.withoutWitness, r.2)) {vs : List Int} :
    ∀ {tried}, (tryValues settings witnessing net x vs tried).outcome = .ok r →
      (tryValues settings deciding net x vs tried).outcome =
        .ok (r.1.withoutWitness, r.2) := by
  induction vs with
  | nil =>
      intro tried h
      exact refute_withoutWitness h
  | cons v vs ih =>
      intro tried h
      -- The counts are equal so far, so one budget is spent exactly when the other is.
      by_cases haffords : settings.affords (tried + 1) = true
      · rw [tryValues_cons haffords] at h ⊢
        cases hfound : (witnessing (net.pin x v) (tried + 1)).outcome with
        | error fault =>
            rw [hfound] at h
            cases h
        | ok found =>
            rw [hfound] at h
            rw [hdeeper hfound]
            obtain ⟨verdict, tried'⟩ := found
            cases verdict with
            | unsat cause => exact ih h
            | sat s =>
                cases h
                rfl
            | unknown pairs =>
                cases h
                rfl
      · rw [tryValues_cons_spent haffords] at h ⊢
        cases h
        rfl

/-- The search that only decides ends like the one that finds a witness, and counts the same. -/
theorem search_decide {depth : Nat} :
    ∀ {net tried r}, (search settings .witness depth net tried).outcome = .ok r →
      (search settings .decide depth net tried).outcome = .ok (r.1.withoutWitness, r.2) := by
  induction depth with
  | zero =>
      intro net tried r h
      cases h
  | succ depth ih =>
      intro net tried r h
      rw [search] at h ⊢
      split at h
      · next hedgeless =>
          rw [if_pos hedgeless]
          exact accept_decide h
      · next hedges =>
          rw [if_neg hedges, Traced.outcome_bind]
          obtain ⟨phase, hphase, h⟩ := Traced.outcome_bind_eq_ok.1 h
          rw [hphase]
          cases phase with
          | stuck mid cause => exact refute_withoutWitness h
          | passed mid =>
              simp only [Except.bind] at h ⊢
              split at h
              · obtain ⟨-, -, h⟩ := Traced.outcome_bind_eq_ok.1 h
                exact accept_decide h
              · obtain ⟨-, -, h⟩ := Traced.outcome_bind_eq_ok.1 h
                exact tryValues_decide ih h

end Network

end FiniteDomain
