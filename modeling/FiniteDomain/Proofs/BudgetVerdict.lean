import FiniteDomain.Proofs.ClauseVerdict
import FiniteDomain.Proofs.SearchModes
import FiniteDomain.Proofs.TriedEvents
import Mathlib

/-!
# What a budget does to the verdict on a conjunction

A conjunction has a cost: the number of values that the search for it tries when nothing
stops it. A budget below the cost leaves the question open, and any other budget gives
the verdict that is given without one, down to the witness or the conflict. The cost is
what an unbounded solve reports, or nothing if there is nothing to search, and it does
not depend on whether a witness is asked for.

`Costs` says this of a computation that is given a budget. The phases before the search
do not look at the budget and report no count, so they can be put in front of a
computation without changing its cost.
-/

namespace FiniteDomain

variable {settings : Settings} {mode : Mode} {scope : Scope} {xs : List Variable}
  {verdict : Verdict} {cost : Nat}

/-- What a computation does with a budget that comes to a verdict after so many values. -/
structure Costs (cost : Nat) (verdict : Verdict) (run : Option Nat → Traced Verdict) : Prop where
  unbounded : (run none).outcome = .ok verdict
  covered : ∀ b, cost ≤ b → (run (some b)).outcome = .ok verdict
  exceeded : ∀ b, b < cost → ∃ pairs, (run (some b)).outcome = .ok (.unknown pairs)
  /-- The cost is what the search reports, if there is one. -/
  reported : (run none).triedCounts = [cost] ∨ (run none).triedCounts = [] ∧ cost = 0

namespace Costs

variable {α : Type} {run : Option Nat → Traced Verdict}

/-- What is refuted without a search costs nothing. -/
theorem refute (cause : Conflict) : Costs 0 (.unsat cause) fun _ => refute cause where
  unbounded := rfl
  covered _ _ := rfl
  exceeded b hb := absurd hb (Nat.not_lt_zero b)
  reported := Or.inr ⟨quiet_refute cause, rfl⟩

/-- A computation that comes first and does not search adds nothing to the cost. -/
theorem bind {x : Traced α} {a : α} {next : Option Nat → α → Traced Verdict}
    (h : Costs cost verdict fun budget => next budget a) (hquiet : x.Quiet)
    (hx : x.outcome = .ok a) : Costs cost verdict fun budget => x >>= next budget := by
  have hnext : ∀ budget, (x >>= next budget).outcome = (next budget a).outcome := by
    intro budget
    rw [Traced.outcome_bind, hx]
    rfl
  refine ⟨?_, ?_, ?_, ?_⟩
  · rw [hnext]
    exact h.unbounded
  · intro b hb
    rw [hnext]
    exact h.covered b hb
  · intro b hb
    rw [hnext]
    exact h.exceeded b hb
  · rw [hquiet.triedCounts_bind hx]
    exact h.reported

theorem note {event : Event} {next : Option Nat → Unit → Traced Verdict}
    (h : Costs cost verdict fun budget => next budget ()) (hevent : event.tried? = none) :
    Costs cost verdict fun budget => Traced.note event >>= next budget :=
  h.bind (Traced.quiet_note hevent) rfl

/-- A check that refuses none of the possible verdicts adds nothing to the cost. -/
theorem check {confirm : Verdict → Except Fault Unit} (h : Costs cost verdict run)
    (hverdict : confirm verdict = .ok ()) (hunknown : ∀ pairs, confirm (.unknown pairs) = .ok ()) :
    Costs cost verdict fun budget => do
      let verdict ← run budget
      .ofExcept (confirm verdict)
      return verdict := by
  have hchecked : ∀ {budget found}, (run budget).outcome = .ok found → confirm found = .ok () →
      (run budget >>= fun verdict =>
        Traced.ofExcept (confirm verdict) >>= fun _ => pure verdict).outcome = .ok found := by
    intro budget found hrun hconfirm
    rw [Traced.outcome_bind, hrun]
    simp only [Except.bind, Traced.outcome_bind, Traced.outcome_ofExcept, hconfirm]
    rfl
  refine ⟨?_, ?_, ?_, ?_⟩
  · exact hchecked h.unbounded hverdict
  · exact fun b hb => hchecked (h.covered b hb) hverdict
  · intro b hb
    obtain ⟨pairs, hpairs⟩ := h.exceeded b hb
    exact ⟨pairs, hchecked hpairs (hunknown pairs)⟩
  · rw [Traced.triedCounts_bind h.unbounded]
    have hquiet : (Traced.ofExcept (confirm verdict) >>= fun _ => pure verdict).Quiet :=
      (Traced.quiet_ofExcept _).bind fun _ => Traced.quiet_pure _
    rw [hquiet, List.append_nil]
    exact h.reported

end Costs

namespace Network

variable {net : Network} {depth : Nat}

/-- A finished search costs the values that it counted. -/
theorem search_costs
    (h : (net.search (settings.withBudget none) mode depth 0).outcome = .ok (verdict, cost)) :
    Costs cost verdict fun budget => do
      let (verdict, tried) ← net.search (settings.withBudget budget) mode depth 0
      .note (.tried tried)
      return verdict := by
  have htruncated := fun b => search_truncated (Nat.zero_le b) h
  refine ⟨?_, ?_, ?_, ?_⟩
  · rw [Traced.outcome_bind, h]
    rfl
  · intro b hb
    rw [Traced.outcome_bind, (htruncated b).1 hb]
    rfl
  · intro b hb
    obtain ⟨pairs, tried, hspent⟩ := (htruncated b).2 hb
    rw [Traced.outcome_bind, hspent]
    exact ⟨pairs, rfl⟩
  · rw [(quiet_search _ _ _).triedCounts_bind h]
    exact Or.inl rfl

/-- A network can be solved at some cost, which is the same whether or not a witness is asked
for. -/
theorem posed_costs (h : Posed scope net) (hv : net.AllViable) (hnames : DistinctNames scope.vars)
    (settings : Settings) :
    ∃ cost, ∀ mode, ∃ verdict,
      Costs cost verdict fun budget => net.solve (settings.withBudget budget) mode := by
  obtain ⟨phase, houtcome, hends⟩ := collapse_returns h.sound h.leader_eq
  cases phase with
  | stuck mid cause =>
      refine ⟨0, fun mode => ⟨.unsat cause, ?_⟩⟩
      refine Costs.note (Costs.bind ?_ (quiet_collapse net) houtcome) rfl
      exact Costs.refute cause
  | passed mid =>
      have hmid := hends.searchable h hv hnames
      -- The run that reads a witness returns, and the one that only decides follows from it.
      have hreturns : Returns (mid.search (settings.withBudget none) .witness
          (mid.distinct.edgeCount + 1) 0).outcome _ :=
        search_returns hmid (Or.inl (Nat.lt_succ_self _))
      obtain ⟨⟨verdict, cost⟩, hsearch, -⟩ := hreturns
      have hmode : ∀ mode, ∃ verdict, (mid.search (settings.withBudget none) mode
          (mid.distinct.edgeCount + 1) 0).outcome = .ok (verdict, cost) := by
        intro mode
        cases mode with
        | decide => exact ⟨_, search_decide hsearch⟩
        | witness => exact ⟨_, hsearch⟩
      refine ⟨cost, fun mode => ?_⟩
      obtain ⟨found, hfound⟩ := hmode mode
      refine ⟨found, Costs.note (Costs.bind ?_ (quiet_collapse net) houtcome) rfl⟩
      exact (search_costs hfound).note rfl

end Network

namespace Clause

variable {es : List Equation}

theorem solveEquations_costs (hd : scope.Declares xs) (hes : ∀ e ∈ es, e.Proper xs)
    (settings : Settings) :
    ∃ cost, ∀ mode, ∃ verdict, Costs cost verdict fun budget =>
      solveEquations scope (settings.withBudget budget) mode es := by
  obtain ⟨phase, himposed, hchecked⟩ := Network.pose_returns hd hes
  cases hphase : phase.andThen Network.check with
  | stuck net cause =>
      refine ⟨0, fun mode => ⟨.unsat cause, Costs.bind ?_ (Traced.quiet_ofExcept _) himposed⟩⟩
      rw [hphase]
      exact Costs.refute cause
  | passed net =>
      rw [hphase] at hchecked
      obtain ⟨cost, hcost⟩ :=
        Network.posed_costs hchecked.1 hchecked.2.1 hd.distinctNames settings
      refine ⟨cost, fun mode => ?_⟩
      obtain ⟨verdict, hverdict⟩ := hcost mode
      refine ⟨verdict, Costs.bind ?_ (Traced.quiet_ofExcept _) himposed⟩
      rw [hphase]
      exact hverdict

/--
A conjunction of proper equations has a cost, the number of values that an unbounded
search for it tries. It has a verdict that does not leave it open; that verdict is given
under every budget which covers the cost, and under a smaller budget the conjunction is
left open.
-/
theorem solve_costs {groups : List (List Variable)} (hscope : Scope.ofGroups groups = .ok scope)
    (hes : (allOf es).Proper groups.flatten) (settings : Settings) :
    ∃ cost, ∀ mode, ∃ verdict, verdict.status ≠ .unknown ∧ Costs cost verdict fun budget =>
      (allOf es).solve scope (settings.withBudget budget) mode := by
  have hd := Scope.declares_ofGroups hscope
  obtain ⟨cost, hcost⟩ := solveEquations_costs hd hes settings
  refine ⟨cost, fun mode => ?_⟩
  obtain ⟨verdict, hverdict⟩ := hcost mode
  have hanswers := (solveEquations_returns hd hes).of_eq_ok hverdict.unbounded
  -- Whether a verdict is confirmed does not depend on the budget, only on the verdict.
  have hconfirm : (allOf es).confirm (settings.withBudget none) mode verdict = .ok () :=
    confirm_eq_ok hanswers fun _ hσ => allHold_iff.2 hσ.2
  refine ⟨verdict, ?_, (hverdict.check hconfirm fun pairs => ?_).note rfl⟩
  · cases verdict with
    | sat s => simp [Verdict.status]
    | unsat cause => simp [Verdict.status]
    | unknown pairs => exact absurd rfl hanswers
  · cases mode <;> rfl

/-- Telling the corners of the triangle apart takes both values of one of them. -/
theorem solve_costs_bitTriangle :
    (∃ cause, (bitTriangle.solve bitScope { budget := some 2 } .witness).outcome =
      .ok (.unsat cause)) ∧
    ∃ pairs, (bitTriangle.solve bitScope { budget := some 1 } .witness).outcome =
      .ok (.unknown pairs) := by
  have hcounts : (bitTriangle.solve bitScope { budget := none } .witness).triedCounts = [2] := by
    decide +kernel
  have hunsat : (bitTriangle.solve bitScope { budget := none } .witness).outcome =
      .ok (.unsat (.inequalities [("a", "b"), ("a", "c"), ("b", "c")])) := by
    decide +kernel
  obtain ⟨cost, hcost⟩ := solve_costs rfl proper_bitTriangle {}
  obtain ⟨verdict, -, hcosts⟩ := hcost .witness
  have hcost : cost = 2 := by
    rcases hcosts.reported with hreported | ⟨hreported, -⟩
    · exact (List.singleton_inj.1 (hcounts.symm.trans hreported)).symm
    · exact absurd (hcounts.symm.trans hreported) (List.cons_ne_nil 2 [])
  have hverdict : Except.ok verdict = .ok _ := hcosts.unbounded.symm.trans hunsat
  cases hverdict
  exact ⟨⟨_, hcosts.covered 2 hcost.le⟩, hcosts.exceeded 1 (hcost.symm ▸ Nat.one_lt_two)⟩

end Clause

end FiniteDomain
