import FiniteDomain.Proofs.Confirmation
import FiniteDomain.Proofs.ImposedNetwork
import Mathlib

/-!
# A conjunction is solved as a set

Two conjunctions of the same equations are solved alike. Their networks are the same, so
whatever is decided from there on is the same as well, and that includes how many values
are tried and the variable at which a budget runs out.

The exception are conjunctions that need no network. If the equations that compare a
variable with values contradict each other, or its declaration, the verdict cites the first
equation that leaves a variable without a value, and the first is a matter of the order.
-/

namespace FiniteDomain

variable {scope : Scope} {xs : List Variable} {x : Variable} {es es' : List Equation}
  {v : Int} {i : Nat}

/-- Is there, for every declared variable, a value that its declaration and all equations between
it and a value allow? -/
def Equation.LeaveValues (xs : List Variable) (es : List Equation) : Prop :=
  ∀ x ∈ xs, ∃ v, x.Takes v ∧ ∀ w equal, value x.name w equal ∈ es → (v = w ↔ equal = true)

namespace Network

theorem forall_allows_iff (hd : scope.Declares xs) (hi : scope.vars[i]? = some x) :
    (∀ e ∈ es, e.Allows scope i v) ↔
      ∀ w equal, Equation.value x.name w equal ∈ es → (v = w ↔ equal = true) := by
  refine ⟨fun h w equal he => h _ he ((hd.lookup_eq_ok_iff hi).2 rfl), fun h e he => ?_⟩
  cases e with
  | value name w equal =>
      intro hlookup
      cases (hd.lookup_eq_ok_iff hi).1 hlookup
      exact h w equal he
  | pair left right equal => trivial

/-- What a variable of the network has left is what its declarations have left. -/
theorem viableUnder_iff (hd : scope.Declares xs) :
    ViableUnder scope es ↔ Equation.LeaveValues xs es := by
  refine ⟨fun h x hx => ?_, fun h i hi => ?_⟩
  · obtain ⟨i, y, hi, hname, hwidth, hvalue⟩ := hd.declared x hx
    obtain ⟨v, hv, hallows⟩ := h i (Array.getElem?_eq_some_iff.1 hi).1
    rw [mem_domain_ofVariables hi, Variable.takes_congr hwidth hvalue] at hv
    exact ⟨v, hv, hname ▸ (forall_allows_iff hd hi).1 hallows⟩
  · have hx : scope.vars[i]? = some scope.vars[i] := Array.getElem?_eq_getElem hi
    obtain ⟨v, hv, hallows⟩ := h _ (hd.mem i _ hx)
    exact ⟨v, (mem_domain_ofVariables hx).2 hv, (forall_allows_iff hd hx).2 hallows⟩

theorem ViableUnder.of_sameSet (h : ViableUnder scope es) (hsame : Equation.SameSet es es') :
    ViableUnder scope es' := by
  intro i hi
  obtain ⟨v, hv, hallows⟩ := h i hi
  exact ⟨v, hv, (hsame.forall_iff fun e => Equation.allows_swap).1 hallows⟩

end Network

namespace Clause

theorem solveEquations_of_viableUnder (hd : scope.Declares xs) (hes : ∀ e ∈ es, e.Proper xs)
    (hviable : Network.ViableUnder scope es) : ∃ net, Network.Imposed scope es net ∧
      ∀ settings mode, (solveEquations scope settings mode es).outcome =
        (net.solve settings mode).outcome := by
  obtain ⟨phase, hphase, hends⟩ := Network.checked_imposed hd hes
  cases hchecked : phase.andThen Network.check with
  | stuck net cause =>
      rw [hchecked] at hends
      exact absurd hviable hends
  | passed net =>
      rw [hchecked] at hends
      refine ⟨net, hends.1, fun settings mode => ?_⟩
      simp only [solveEquations, hphase, Traced.outcome_bind, Traced.outcome_ofExcept, Except.bind,
        hchecked]

theorem solveEquations_of_not_viableUnder (hd : scope.Declares xs) (hes : ∀ e ∈ es, e.Proper xs)
    (hviable : ¬Network.ViableUnder scope es) : ∃ cause, ∀ settings mode,
      (solveEquations scope settings mode es).outcome = .ok (.unsat cause) := by
  obtain ⟨phase, hphase, hends⟩ := Network.checked_imposed hd hes
  cases hchecked : phase.andThen Network.check with
  | stuck net cause =>
      refine ⟨cause, fun settings mode => ?_⟩
      simp only [solveEquations, hphase, Traced.outcome_bind, Traced.outcome_ofExcept, Except.bind,
        hchecked]
      rfl
  | passed net =>
      rw [hchecked] at hends
      exact absurd hends.2 hviable

/--
Conjunctions of the same equations have the same verdict, with its witness or its cause, unless
the equations between variables and values leave no value somewhere. In that case both are
refuted.
-/
theorem solve_of_sameSet {groups : List (List Variable)}
    (hscope : Scope.ofGroups groups = .ok scope) (hes : (allOf es).Proper groups.flatten)
    (hsame : Equation.SameSet es es') (settings : Settings) (mode : Mode) :
    (Equation.LeaveValues groups.flatten es →
      ((allOf es).solve scope settings mode).outcome =
        ((allOf es').solve scope settings mode).outcome) ∧
    ∃ verdict verdict', ((allOf es).solve scope settings mode).outcome = .ok verdict ∧
      ((allOf es').solve scope settings mode).outcome = .ok verdict' ∧
      verdict.status = verdict'.status ∧
      (¬Equation.LeaveValues groups.flatten es → verdict.status = .unsat) := by
  have hd := Scope.declares_ofGroups hscope
  have hes' : ∀ e ∈ es', e.Proper groups.flatten :=
    (hsame.forall_iff fun e => Equation.proper_swap).1 hes
  have hsolve : ((allOf es).solve scope settings mode).outcome =
      (solveEquations scope settings mode es).outcome := outcome_solveAll_eq hd hes
  have hsolve' : ((allOf es').solve scope settings mode).outcome =
      (solveEquations scope settings mode es').outcome := outcome_solveAll_eq hd hes'
  rw [hsolve, hsolve', ← Network.viableUnder_iff hd]
  by_cases hviable : Network.ViableUnder scope es
  · obtain ⟨net, himposed, hnet⟩ := solveEquations_of_viableUnder hd hes hviable
    obtain ⟨net', himposed', hnet'⟩ :=
      solveEquations_of_viableUnder hd hes' (hviable.of_sameSet hsame)
    cases himposed.eq_of_sameSet himposed' hsame
    have hreturns : Returns (solveEquations scope settings mode es).outcome _ :=
      solveEquations_returns hd hes
    obtain ⟨verdict, hverdict, -⟩ := hreturns
    have heq := (hnet settings mode).trans (hnet' settings mode).symm
    exact ⟨fun _ => heq, verdict, verdict, hverdict, heq ▸ hverdict, rfl, fun h => absurd hviable h⟩
  · have hviable' : ¬Network.ViableUnder scope es' := fun h => hviable (h.of_sameSet hsame.symm)
    obtain ⟨cause, hcause⟩ := solveEquations_of_not_viableUnder hd hes hviable
    obtain ⟨cause', hcause'⟩ := solveEquations_of_not_viableUnder hd hes' hviable'
    exact ⟨fun h => absurd h hviable, _, _, hcause settings mode, hcause' settings mode, rfl,
      fun _ => rfl⟩

/-- The path again, and a value that a bit does not have is excluded. -/
def bitBypass : List Equation := bitPath.equations ++ [.value "b" 2 false]

def bitBypassReordered : List Equation :=
  [.value "b" 2 false, .pair "c" "b" false, .pair "b" "a" false, .value "b" 2 false]

theorem proper_bitBypass : (allOf bitBypass).Proper bits.flatten :=
  Equation.forall_proper_concat proper_bitPath (Equation.proper_value (by decide) 2 false)

theorem leaveValues_bitBypass : Equation.LeaveValues bits.flatten bitBypass := by
  have htakes : ∀ x ∈ bits.flatten, x.Takes 0 := by
    simp +decide [bits, Variable.Takes, Variable.ofWidth]
  intro x hx
  refine ⟨0, htakes x hx, fun w equal he => ?_⟩
  obtain ⟨-, rfl, rfl⟩ : x.name = "b" ∧ w = 2 ∧ equal = false := by
    simpa [bitBypass, bitPath, allOf] using he
  decide

/-- Without a value to try, both are left open on the same inequalities. -/
theorem solve_of_sameSet_bitBypass :
    ((allOf bitBypass).solve bitScope { budget := some 0 } .witness).outcome =
      .ok (.unknown [("a", "b"), ("b", "c")]) ∧
    ((allOf bitBypassReordered).solve bitScope { budget := some 0 } .witness).outcome =
      .ok (.unknown [("a", "b"), ("b", "c")]) := by
  have hopen : ((allOf bitBypass).solve bitScope { budget := some 0 } .witness).outcome =
      .ok (.unknown [("a", "b"), ("b", "c")]) := by decide +kernel
  have hsame : Equation.SameSet bitBypass bitBypassReordered := by decide
  obtain ⟨heq, -⟩ := solve_of_sameSet rfl proper_bitBypass hsame { budget := some 0 } .witness
  exact ⟨hopen, (heq leaveValues_bitBypass).symm.trans hopen⟩

-- Of two values for one variable, the one that comes second is cited.
example : ((allOf [.value "a" 0 true, .value "a" 1 true]).solve bitScope {} .decide).outcome =
    .ok (.unsat (.equation (.value "a" 1 true))) ∧
  ((allOf [.value "a" 1 true, .value "a" 0 true]).solve bitScope {} .decide).outcome =
    .ok (.unsat (.equation (.value "a" 0 true))) := by
  decide +kernel

end Clause

end FiniteDomain
