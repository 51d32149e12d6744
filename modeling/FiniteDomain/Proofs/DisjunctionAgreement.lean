import FiniteDomain.Proofs.EquationSet
import FiniteDomain.Proofs.FirstChoice
import FiniteDomain.Proofs.MatchingSearch
import FiniteDomain.Proofs.StoredClauses
import Mathlib

/-!
# A disjunction is solved alike as a clause and as a formula

A clause that is a disjunction goes through its equations and solves each of them alone. A
formula that was made of the clause goes through them as well, on top of a conjunction of
nothing. The two loops are one loop, since an attempt of the second is a solution of the
first, and this much holds of any answers.

What the formula does besides is to look ahead at the conjunction of nothing, and this
must not end in an open answer. It does not, and neither does any equation. The network
of one equation has one inequality at most. Merging classes may move that inequality but
makes no second one of it, so no two inequalities meet and the search tries no value.

A disjunction of one equation is stored as that equation, so the formula refutes it for
what is wrong with the equation, and not as a disjunction that was gone through.
-/

namespace FiniteDomain

variable {settings : Settings} {mode : Mode} {scope : Scope} {xs : List Variable} {c : Clause}
  {e : Equation} {es : List Equation}

theorem Variable.exists_takes (x : Variable) : ∃ v, x.Takes v := by
  cases hvalue : x.value? with
  | none => exact ⟨0, (takes_of_free hvalue).2 ⟨Int.le_refl 0, maxOfWidth_nonneg x.width⟩⟩
  | some v => exact ⟨v, (takes_of_fixed hvalue).2 rfl⟩

/-- The variables of a scope can be given values. -/
theorem Scope.exists_takes (scope : Scope) : ∃ σ, scope.Takes σ := by
  refine ⟨fun i => (scope.vars[i]?.map fun x => x.exists_takes.choose).getD 0, fun i x hx => ?_⟩
  simp only [hx, Option.map_some, Option.getD_some]
  exact x.exists_takes.choose_spec

/-! ## One equation -/

/-- An equation joins one pair of variables. -/
theorem Equation.Joins.eq_or_eq {equal : Bool} {i j i' j' : Nat} (h : e.Joins scope equal i j)
    (h' : e.Joins scope equal i' j') : i = i' ∧ j = j' ∨ i = j' ∧ j = i' := by
  cases e with
  | value name v equal => cases h
  | pair left right equal =>
      obtain ⟨-, ⟨hleft, hright⟩ | ⟨hleft, hright⟩⟩ := h <;>
        obtain ⟨-, ⟨hleft', hright'⟩ | ⟨hleft', hright'⟩⟩ := h' <;>
        cases hleft.symm.trans hleft' <;> cases hright.symm.trans hright' <;> simp

namespace Network

variable {net mid : Network}

/-- Moving a single inequality to leaders leaves a single inequality. -/
theorem Imposed.isMatching (h : Imposed scope es net) (hone : ∀ e ∈ es, ∀ e' ∈ es, e = e')
    (hc : Collapsed net mid) : mid.distinct.IsMatching := by
  intro i j j' hij hij'
  obtain ⟨a, b, hab, rfl, rfl⟩ := (hc.contracts i j).1 hij
  obtain ⟨a', b', hab', hlead, rfl⟩ := (hc.contracts _ j').1 hij'
  obtain ⟨-, e, he, hjoins⟩ := (h.adjacent false a b).1 hab
  obtain ⟨-, e', he', hjoins'⟩ := (h.adjacent false a' b').1 hab'
  obtain rfl := hone e he e' he'
  rcases hjoins.eq_or_eq hjoins' with ⟨-, rfl⟩ | ⟨rfl, rfl⟩
  · rfl
  · exact hlead

theorem Imposed.solve_decided (h : Imposed scope es net) (hone : ∀ e ∈ es, ∀ e' ∈ es, e = e')
    (hviable : net.AllViable) (hnames : DistinctNames scope.vars) :
    Returns (net.solve settings mode).outcome fun verdict => verdict.status ≠ .unknown := by
  rw [Network.solve]
  refine Traced.returns_note (Traced.returns_bind
    (collapse_returns h.posed.sound h.posed.leader_eq) fun phase hends => ?_)
  cases phase with
  | stuck mid cause => exact refute_decided
  | passed mid =>
      have hmatching := h.isMatching hone hends
      have hsearchable := hends.searchable h.posed hviable hnames
      refine Traced.returns_note (Traced.returns_bind
        (search_of_isMatching hsearchable hmatching) fun r hr => ?_)
      exact Traced.returns_note (Traced.returns_pure hr)

end Network

namespace Clause

/-- Whatever the budget, a conjunction of one equation, or of none, is not left open. -/
theorem solveAll_decided (hd : scope.Declares xs) (hes : ∀ e ∈ es, e.Proper xs)
    (hone : ∀ e ∈ es, ∀ e' ∈ es, e = e') :
    Returns (solveAll scope settings mode es).outcome fun verdict => verdict.status ≠ .unknown := by
  rw [outcome_solveAll_eq hd hes]
  by_cases hviable : Network.ViableUnder scope es
  · obtain ⟨net, himposed, hnet⟩ := solveEquations_of_viableUnder hd hes hviable
    rw [hnet]
    exact himposed.solve_decided hone (himposed.allViable_iff.2 hviable) hd.distinctNames
  · obtain ⟨cause, hcause⟩ := solveEquations_of_not_viableUnder hd hes hviable
    exact ⟨_, hcause settings mode, by simp [Verdict.status]⟩

theorem solveAll_singleton_decided (hd : scope.Declares xs) (he : e.Proper xs) :
    Returns (solveAll scope settings mode [e]).outcome fun verdict =>
      verdict.status ≠ .unknown := by
  refine solveAll_decided hd (List.forall_mem_singleton.2 he) fun e₁ h₁ e₂ h₂ => ?_
  rw [List.mem_singleton.1 h₁, List.mem_singleton.1 h₂]

/-- A loop in which nothing is left open is not left open itself. -/
theorem solveVariants_decided (hd : scope.Declares xs) (hes : ∀ e ∈ es, e.Proper xs) :
    Returns (solveVariants scope settings mode c es none).outcome fun verdict =>
      verdict.status ≠ .unknown := by
  induction es with
  | nil => exact refute_decided
  | cons e es ih =>
      obtain ⟨he, hes⟩ := List.forall_mem_cons.1 hes
      rw [solveVariants]
      refine Traced.returns_bind (solveAll_singleton_decided hd he) fun verdict hverdict => ?_
      cases verdict with
      | sat s => exact Traced.returns_pure hverdict
      | unknown pairs => exact absurd rfl hverdict
      | unsat cause => exact Traced.returns_note (ih hes)

/-- A conjunction of nothing has a solution, and a look ahead at it finds that out. -/
theorem solveAll_nil (hd : scope.Declares xs) :
    ∃ s, (solveAll scope settings mode []).outcome = .ok (.sat s) := by
  have hnil : ∀ e ∈ ([] : List Equation), e.Proper xs := List.forall_mem_nil _
  have hanswers : Returns (solveAll scope settings mode []).outcome _ := solveAll_returns hd hnil
  obtain ⟨verdict, houtcome, hanswer⟩ := hanswers
  have hdecided := (solveAll_decided hd hnil (List.forall_mem_nil _)).of_eq_ok houtcome
  cases verdict with
  | sat s => exact ⟨s, houtcome⟩
  | unknown pairs => exact absurd rfl hdecided
  | unsat cause =>
      obtain ⟨σ, hσ⟩ := scope.exists_takes
      exact absurd ⟨hσ, List.forall_mem_nil _⟩ (hanswer σ)

theorem outcome_solve_of_any (hd : scope.Declares xs) (hc : c.Proper xs)
    (hany : c.connective = .any) : (c.solve scope settings mode).outcome =
      (solveVariants scope settings mode c c.equations none).outcome := by
  have hreturns : Returns (c.solve scope settings mode).outcome _ := solve_returns hd hc
  rw [solve, hany] at hreturns ⊢
  exact outcome_framed_eq hreturns

end Clause

namespace Formula

/-! ## The two loops -/

/-- With nothing else to choose, an attempt at an equation is solving it. -/
theorem attempt_eq_solveAll :
    (attempt scope settings false (choose scope settings mode []) [] e).outcome =
      (Clause.solveAll scope settings mode [e]).outcome :=
  followUp_of_sat rfl

theorem tryEquations_eq_solveVariants (hd : scope.Declares xs) :
    ∀ {undecided : Option (List (String × String))}, (∀ e ∈ es, e.Proper xs) →
      (tryEquations scope settings false (choose scope settings mode []) c [] es
        undecided).outcome =
      (Clause.solveVariants scope settings mode c es undecided).outcome := by
  induction es with
  | nil =>
      intro undecided _
      cases undecided with
      | none => rfl
      | some pairs => rfl
  | cons e es ih =>
      intro undecided hes
      obtain ⟨he, hes⟩ := List.forall_mem_cons.1 hes
      have hreturns : Returns (Clause.solveAll scope settings mode [e]).outcome _ :=
        Clause.solveAll_returns hd (List.forall_mem_singleton.2 he)
      obtain ⟨verdict, hverdict, -⟩ := hreturns
      have hattempt := attempt_eq_solveAll.trans hverdict
      rw [Clause.solveVariants, Traced.outcome_bind, hverdict]
      cases verdict with
      | sat s => exact tryEquations_of_sat hattempt
      | unsat cause => exact (tryEquations_of_unsat hattempt).trans (ih hes)
      | unknown pairs => exact (tryEquations_of_unknown hattempt).trans (ih hes)

/-! ## The formula of a disjunction -/

theorem proper_ofClauses_singleton (hc : c.Proper xs) : (ofClauses [c]).Proper xs := by
  intro piece hpiece e he
  rw [clauses_ofClauses_singleton] at hpiece
  exact hc e (subset_of_mem_pieces hpiece e he)

/-- A formula that stores the disjunction goes through it like the clause. -/
theorem unconfirmed_of_pieces_eq (hd : scope.Declares xs) (hc : c.Proper xs)
    (hany : c.connective = .any) (hpieces : pieces c = [c]) :
    ((ofClauses [c]).unconfirmed scope settings mode).outcome =
      (Clause.solveVariants scope settings mode c c.equations none).outcome := by
  have hclauses : (ofClauses [c]).clauses = [c] := hpieces
  have hisAll : c.isAll = false := by simp [Clause.isAll, hany]
  have hconjunction : (ofClauses [c]).conjunction = [] := by
    simp [conjunction, hclauses, hisAll]
  have hdisjunctions : (ofClauses [c]).disjunctions = [c] := by
    simp [disjunctions, hclauses, hisAll]
  have houtlook : ∃ s, (outlook scope settings true []).outcome = .ok (.sat s) :=
    Clause.solveAll_nil hd
  obtain ⟨s, hs⟩ := houtlook
  rw [unconfirmed, hconjunction, hdisjunctions, List.isEmpty_cons, Bool.not_false,
    followUp_of_sat hs]
  exact tryEquations_eq_solveVariants hd hc

/-- A formula that stores the only equation solves it like a clause. -/
theorem unconfirmed_of_equations_eq_singleton (he : c.equations = [e]) :
    ((ofClauses [c]).unconfirmed scope settings mode).outcome =
      (Clause.solveAll scope settings mode [e]).outcome := by
  have hclauses : (ofClauses [c]).clauses = [Clause.allOf [e]] :=
    pieces_of_equations_eq_singleton he
  have hconjunction : (ofClauses [c]).conjunction = [e] := by
    simp [conjunction, hclauses, Clause.isAll, Clause.allOf]
  have hdisjunctions : (ofClauses [c]).disjunctions = [] := by
    simp [disjunctions, hclauses, Clause.isAll, Clause.allOf]
  rw [unconfirmed, hconjunction, hdisjunctions]
  exact followUp_of_sat rfl

/-- Going through one equation changes no answer but the cause of a refutation. -/
theorem solveVariants_singleton (hd : scope.Declares xs) (he : e.Proper xs) :
    ∃ verdict verdict', (Clause.solveVariants scope settings mode c [e] none).outcome =
        .ok verdict ∧ (Clause.solveAll scope settings mode [e]).outcome = .ok verdict' ∧
      verdict'.status = verdict.status ∧ verdict'.solution? = verdict.solution? := by
  have hreturns : Returns (Clause.solveAll scope settings mode [e]).outcome _ :=
    Clause.solveAll_singleton_decided hd he
  obtain ⟨verdict, hverdict, hdecided⟩ := hreturns
  rw [Clause.solveVariants, Traced.outcome_bind, hverdict]
  cases verdict with
  | sat s => exact ⟨_, _, rfl, rfl, rfl, rfl⟩
  | unsat cause => exact ⟨_, _, rfl, rfl, rfl, rfl⟩
  | unknown pairs => exact absurd rfl hdecided

/-! ## The result -/

/--
A disjunction is answered alike by the clause solver and as a formula of its own: with the
same status, the same solution and, unless it has exactly one equation, the same cause.
No budget is so small that either of them leaves it open.
-/
theorem solve_disjunction_agrees {groups : List (List Variable)}
    (hscope : Scope.ofGroups groups = .ok scope) (hc : c.Proper groups.flatten)
    (hany : c.connective = .any) (settings : Settings) (mode : Mode) :
    ∃ verdict verdict', (c.solve scope settings mode).outcome = .ok verdict ∧
      ((ofClauses [c]).solve scope settings mode).outcome = .ok verdict' ∧
      verdict'.status = verdict.status ∧ verdict'.solution? = verdict.solution? ∧
      (c.size ≠ 1 → verdict' = verdict) ∧
      verdict.status ≠ .unknown ∧ verdict'.status ≠ .unknown := by
  have hd := Scope.declares_ofGroups hscope
  have hreturns : Returns (Clause.solveVariants scope settings mode c c.equations none).outcome _ :=
    Clause.solveVariants_decided hd hc
  obtain ⟨verdict, hverdict, hdecided⟩ := hreturns
  rw [Clause.outcome_solve_of_any hd hc hany, outcome_solve_eq hd (proper_ofClauses_singleton hc)]
  by_cases hsize : c.size = 1
  · obtain ⟨e, he⟩ := List.length_eq_one_iff.1 hsize
    have hproper : e.Proper groups.flatten := hc e (he ▸ List.mem_cons_self)
    obtain ⟨found, found', hfound, hfound', hstatus, hsolution⟩ :=
      @solveVariants_singleton settings mode scope _ c e hd hproper
    rw [he] at hverdict ⊢
    cases hverdict.symm.trans hfound
    rw [unconfirmed_of_equations_eq_singleton he]
    exact ⟨verdict, found', hverdict, hfound', hstatus, hsolution, fun h => absurd hsize h,
      hdecided, hstatus ▸ hdecided⟩
  · rw [unconfirmed_of_pieces_eq hd hc hany (pieces_of_size_ne_one hany hsize)]
    exact ⟨verdict, verdict, hverdict, hverdict, rfl, rfl, fun _ => rfl, hdecided, hdecided⟩

/-- Two bits of which one cannot be two, and which can differ. -/
def bitOptions : Clause := .anyOf [.value "a" 2 true, .pair "a" "b" false]

theorem proper_bitOptions : bitOptions.Proper Clause.bits.flatten := by
  refine List.forall_mem_cons.2 ⟨?_, List.forall_mem_singleton.2 ?_⟩
  · exact Equation.proper_value (by decide) 2 true
  · exact Equation.proper_pair (by decide) (by decide) (by decide)

/-- Two different bits are found without trying a value. -/
theorem solve_disjunction_agrees_bitOptions :
    ∃ s, (bitOptions.solve Clause.bitScope { budget := some 0 } .witness).outcome =
        .ok (.sat s) ∧
      ((ofClauses [bitOptions]).solve Clause.bitScope { budget := some 0 } .witness).outcome =
        .ok (.sat s) := by
  have hsat : (bitOptions.solve Clause.bitScope { budget := some 0 } .witness).outcome =
      .ok (.sat (.ofValues Clause.bitScope.vars fun i => if i = 1 then 1 else 0)) := by
    decide +kernel
  have hscope : Scope.ofGroups Clause.bits = .ok Clause.bitScope := rfl
  obtain ⟨verdict, verdict', hclause, hformula, -, -, hcause, -⟩ :=
    solve_disjunction_agrees hscope proper_bitOptions rfl { budget := some 0 } .witness
  cases hsat.symm.trans hclause
  refine ⟨_, hclause, ?_⟩
  rw [hformula, hcause (by decide)]

-- A disjunction of one equation is refuted as a whole, but as a formula for its equation.
example : ((Clause.anyOf [.value "a" 2 true]).solve Clause.bitScope {} .decide).outcome =
    .ok (.unsat (.clause (.anyOf [.value "a" 2 true]))) ∧
  ((ofClauses [.anyOf [.value "a" 2 true]]).solve Clause.bitScope {} .decide).outcome =
    .ok (.unsat (.equation (.value "a" 2 true))) := by
  decide +kernel

end Formula

end FiniteDomain
