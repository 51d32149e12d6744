import FiniteDomain.Proofs.EquationSet
import FiniteDomain.Proofs.GreedySolution
import Mathlib

/-!
# Conjunctions that are solved without trying values

A conjunction that has a solution gets as far as the search: no equation leaves a variable
without a value, and no class of equal variables is stuck. What the search begins with is
the quotient of the network of the equations. If the pass over its inequalities leaves no
critical variable, the search is over, and the verdict is the greedy solution of what the
pass has left, whatever the budget.
-/

namespace FiniteDomain

variable {scope : Scope} {xs : List Variable} {es : List Equation} {settings : Settings}
  {mode : Mode} {σ : Nat → Int}

/-! ## Equations under values given by index -/

namespace Equation

variable {x y : Variable} {i j : Nat} {v : Int} {equal : Bool}

theorem holds_pair (hnames : DistinctNames scope.vars) (hi : scope.vars[i]? = some x)
    (hj : scope.vars[j]? = some y) :
    (pair x.name y.name equal).holds (.ofValues scope.vars σ) = .ok ((σ i == σ j) == equal) := by
  rw [holds, Assignment.get_eq_ok (Assignment.get?_ofValues hnames hi σ),
    Assignment.get_eq_ok (Assignment.get?_ofValues hnames hj σ)]
  rfl

/-- What an equation of two variables joins are their places. -/
theorem joins_pair (hd : scope.Declares xs) (hi : scope.vars[i]? = some x)
    (hj : scope.vars[j]? = some y) {equal' : Bool} {a b : Nat} :
    (pair x.name y.name equal).Joins scope equal' a b ↔
      equal = equal' ∧ (a = i ∧ b = j ∨ b = i ∧ a = j) := by
  have hplace : ∀ {k c : Nat} {z : Variable}, scope.vars[k]? = some z →
      (scope.lookup z.name = .ok c ↔ c = k) := by
    intro k c z hk
    rw [(hd.lookup_eq_ok_iff hk).2 rfl, Except.ok.injEq, eq_comm]
  rw [Joins, hplace hi, hplace hj, hplace hi, hplace hj]

end Equation

namespace Network

variable {net mid out : Network}

/-! ## Passes that change nothing -/

theorem prune_of_isEdgeless (hs : net.Sound) (h : net.distinct.isEdgeless = true) :
    net.prune.outcome = .ok (.passed net) := by
  have hnil : net.distinct.edges = [] := by
    refine List.eq_nil_iff_forall_not_mem.2 fun e he => ?_
    have hadj := (hs.sound_distinct.mem_edges.1 he).1
    rw [hs.sound_distinct.isEdgeless_iff.1 h] at hadj
    cases hadj
  rw [prune, hnil]
  rfl

/-- A search that needs no branching ends in the greedy solution. -/
theorem search_greedy (h : net.Searchable) (hprune : net.prune.outcome = .ok (.passed out))
    (hc : out.critical? = none) (settings : Settings) : ∃ σ, out.Greedy settings.order σ ∧
      ∀ mode depth tried, (net.search settings mode (depth + 1) tried).outcome =
        .ok (.sat (mode.report net.vars σ), tried) := by
  have hpruned : Pruned net out := ((prune_returns h.sound).of_eq_ok hprune).1
  obtain ⟨σ, hσ, haccept⟩ := accept_greedy (h.pruned hpruned) hc settings
  rw [hpruned.vars_eq] at haccept
  refine ⟨σ, hσ, fun mode depth tried => ?_⟩
  rw [search]
  split
  · next hedgeless =>
      cases hprune.symm.trans (prune_of_isEdgeless h.sound hedgeless)
      rw [Traced.outcome_bind, haccept]
      rfl
  · rw [Traced.outcome_bind, hprune]
    simp only [Except.bind, hc]
    rw [Traced.outcome_bind, Traced.outcome_note]
    simp only [Except.bind]
    rw [Traced.outcome_bind, haccept]
    rfl

end Network

namespace Clause

/-- A conjunction with a solution is searched: its network collapses into its quotient. -/
theorem solveAll_search (hd : scope.Declares xs) (hes : ∀ e ∈ es, e.Proper xs)
    (hσ : Solves scope es σ) : ∃ net mid, Network.Imposed scope es net ∧
      Network.Collapsed net mid ∧ mid.Searchable ∧ net.Model σ ∧
      ∀ settings mode, (solveAll scope settings mode es).outcome =
        (mid.search settings mode (mid.distinct.edgeCount + 1) 0).outcome.map Prod.fst := by
  have hviable : Network.ViableUnder scope es := by
    by_contra hnot
    obtain ⟨cause, hcause⟩ := solveEquations_of_not_viableUnder hd hes hnot
    exact (solveEquations_returns hd hes).of_eq_ok (hcause {} .decide) σ hσ
  obtain ⟨net, himposed, hsolve⟩ := solveEquations_of_viableUnder hd hes hviable
  obtain ⟨phase, hphase, hposes⟩ := Network.pose_returns hd hes
  have hposed := himposed.posed
  have hmodel : net.Model σ := by
    obtain ⟨phase', hphase', hends⟩ := Network.checked_imposed hd hes
    cases hphase.symm.trans hphase'
    cases hchecked : phase.andThen Network.check with
    | stuck mid cause =>
        rw [hchecked] at hposes
        exact absurd hσ (hposes σ)
    | passed mid =>
        rw [hchecked] at hposes hends
        cases hends.1.eq_of_sameSet himposed fun e => Iff.rfl
        exact (hposes.2.2 σ).2 hσ
  obtain ⟨phase, hcollapse, hends⟩ := Network.collapse_returns hposed.sound hposed.leader_eq
  cases phase with
  | stuck mid cause => exact absurd hmodel (hends.no_model hposed.sound)
  | passed mid =>
      have hall := himposed.allViable_iff.2 hviable
      refine ⟨net, mid, himposed, hends, hends.searchable hposed hall hd.distinctNames, hmodel,
        fun settings mode => ?_⟩
      rw [outcome_solveAll_eq hd hes, hsolve, Network.solve, Traced.outcome_bind,
        Traced.outcome_note]
      simp only [Except.bind]
      rw [Traced.outcome_bind, hcollapse]
      simp only [Except.bind]
      rw [Traced.outcome_bind, Traced.outcome_note]
      simp only [Except.bind]
      rw [Traced.outcome_bind]
      cases (mid.search settings mode (mid.distinct.edgeCount + 1) 0).outcome <;> rfl

end Clause

end FiniteDomain
