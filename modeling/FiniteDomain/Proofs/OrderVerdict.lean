import FiniteDomain.Proofs.FirstChoice
import FiniteDomain.Proofs.SearchModes
import Mathlib

/-!
# The order of values changes no verdict without a budget

Two searches that try values in different orders part at the first branch and see different
networks from there on. What keeps their verdicts together is that both are right, and that
neither says what went wrong below the first level: a loop over values that found nothing
cites the inequalities of the level it stands on, and a level that was not branched on has not
looked at an order yet.

So the cause of a refutation can be read off the problem. `RefutedFor` does that, and names
neither the settings nor the mode; whatever is refuted at all is refuted for that cause, under
every budget. A formula adds one question, whether its conjunction has a solution, and the
answer to that is no matter of settings either.
-/

namespace FiniteDomain

variable {settings settings' : Settings} {mode mode' : Mode} {scope : Scope} {xs : List Variable}
  {cause cause' : Conflict}

/-- The same settings with another order of values. -/
def Settings.withOrder (settings : Settings) (order : ValueOrder) : Settings :=
  { settings with order }

namespace Network

variable {net : Network} {x depth : Nat} {vs : List Int}

/-- What a network is refuted for, if it is refuted. -/
inductive RefutedFor (net : Network) : Conflict → Prop where
  | merging {mid : Network} {cause : Conflict}
      (hcollapse : net.collapse.outcome = .ok (.stuck mid cause)) : RefutedFor net cause
  | pruning {mid low : Network} {cause : Conflict}
      (hcollapse : net.collapse.outcome = .ok (.passed mid))
      (hprune : mid.prune.outcome = .ok (.stuck low cause)) : RefutedFor net cause
  | searching {mid low : Network} {x : Nat} (hcollapse : net.collapse.outcome = .ok (.passed mid))
      (hprune : mid.prune.outcome = .ok (.passed low)) (hcritical : low.critical? = some x) :
      RefutedFor net (.inequalities low.differences)

theorem RefutedFor.unique (h : net.RefutedFor cause) (h' : net.RefutedFor cause') :
    cause = cause' := by
  cases h with
  | merging hcollapse =>
      cases h' with
      | merging hcollapse' =>
          cases hcollapse.symm.trans hcollapse'
          rfl
      | pruning hcollapse' => cases hcollapse.symm.trans hcollapse'
      | searching hcollapse' => cases hcollapse.symm.trans hcollapse'
  | pruning hcollapse hprune =>
      cases h' with
      | merging hcollapse' => cases hcollapse.symm.trans hcollapse'
      | pruning hcollapse' hprune' =>
          cases hcollapse.symm.trans hcollapse'
          cases hprune.symm.trans hprune'
          rfl
      | searching hcollapse' hprune' =>
          cases hcollapse.symm.trans hcollapse'
          cases hprune.symm.trans hprune'
  | searching hcollapse hprune =>
      cases h' with
      | merging hcollapse' => cases hcollapse.symm.trans hcollapse'
      | pruning hcollapse' hprune' =>
          cases hcollapse.symm.trans hcollapse'
          cases hprune.symm.trans hprune'
      | searching hcollapse' hprune' =>
          cases hcollapse.symm.trans hcollapse'
          cases hprune.symm.trans hprune'
          rfl

/-- An accepted network is not refuted. -/
theorem accept_ne_unsat : (net.accept settings mode).outcome ≠ .ok (.unsat cause) := by
  intro h
  cases mode with
  | decide => cases h
  | witness =>
      obtain ⟨⟨s, settled⟩, -, h⟩ := Traced.outcome_bind_eq_ok.1 h
      cases h

/-- What the values went wrong for is not told. -/
theorem eq_of_tryValues_unsat {deeper : Network → Nat → Traced (Verdict × Nat)} {tried tried' : Nat}
    (h : (tryValues settings deeper net x vs tried).outcome = .ok (.unsat cause, tried')) :
    cause = .inequalities net.differences := by
  induction vs generalizing tried with
  | nil =>
      cases h
      rfl
  | cons v vs ih =>
      by_cases haffords : settings.affords (tried + 1) = true
      · rw [tryValues_cons haffords] at h
        cases hfound : (deeper (net.pin x v) (tried + 1)).outcome with
        | error fault =>
            rw [hfound] at h
            cases h
        | ok found =>
            rw [hfound] at h
            obtain ⟨verdict, spent⟩ := found
            cases verdict with
            | unsat deeperCause => exact ih h
            | sat s => cases h
            | unknown pairs => cases h
      · rw [tryValues_cons_spent haffords] at h
        cases h

theorem refutedFor_of_search {mid : Network} {tried tried' : Nat}
    (hcollapse : net.collapse.outcome = .ok (.passed mid))
    (h : (search settings mode depth mid tried).outcome = .ok (.unsat cause, tried')) :
    net.RefutedFor cause := by
  cases depth with
  | zero => cases h
  | succ depth =>
      rw [search] at h
      split at h
      · obtain ⟨verdict, haccept, h⟩ := Traced.outcome_bind_eq_ok.1 h
        cases h
        exact absurd haccept accept_ne_unsat
      · obtain ⟨phase, hprune, h⟩ := Traced.outcome_bind_eq_ok.1 h
        cases phase with
        | stuck low cause =>
            cases h
            exact .pruning hcollapse hprune
        | passed low =>
            simp only [] at h
            split at h
            · obtain ⟨-, -, h⟩ := Traced.outcome_bind_eq_ok.1 h
              obtain ⟨verdict, haccept, h⟩ := Traced.outcome_bind_eq_ok.1 h
              cases h
              exact absurd haccept accept_ne_unsat
            · next x hcritical =>
                obtain ⟨-, -, h⟩ := Traced.outcome_bind_eq_ok.1 h
                cases eq_of_tryValues_unsat h
                exact .searching hcollapse hprune hcritical

theorem refutedFor_of_solve (h : (net.solve settings mode).outcome = .ok (.unsat cause)) :
    net.RefutedFor cause := by
  obtain ⟨-, -, h⟩ := Traced.outcome_bind_eq_ok.1 h
  obtain ⟨phase, hcollapse, h⟩ := Traced.outcome_bind_eq_ok.1 h
  cases phase with
  | stuck mid cause =>
      cases h
      exact .merging hcollapse
  | passed mid =>
      obtain ⟨-, -, h⟩ := Traced.outcome_bind_eq_ok.1 h
      obtain ⟨⟨verdict, tried⟩, hsearch, h⟩ := Traced.outcome_bind_eq_ok.1 h
      cases h
      exact refutedFor_of_search hcollapse hsearch

end Network

namespace Clause

variable {c : Clause} {es : List Equation}

/-! ## Clauses -/

/-- What a conjunction is refuted for, if it is refuted: what its equations run into while they are
imposed, or else what their network is refuted for. -/
def RefutedFor (scope : Scope) (es : List Equation) (cause : Conflict) : Prop :=
  Returns (Network.imposeAll scope es (.ofVariables scope.vars)) fun phase =>
    (phase.andThen Network.check).Ends (fun net => net.RefutedFor cause) fun found => found = cause

theorem RefutedFor.unique (h : RefutedFor scope es cause) (h' : RefutedFor scope es cause') :
    cause = cause' := by
  obtain ⟨phase, himposed, hends⟩ := h
  have hends' := h'.of_eq_ok himposed
  cases hchecked : phase.andThen Network.check with
  | stuck net found =>
      rw [hchecked] at hends hends'
      exact hends.symm.trans hends'
  | passed net =>
      rw [hchecked] at hends hends'
      exact Network.RefutedFor.unique hends hends'

theorem refutedFor_of_solveAll
    (h : (solveAll scope settings mode es).outcome = .ok (.unsat cause)) :
    RefutedFor scope es cause := by
  obtain ⟨phase, himposed, h⟩ := Traced.outcome_bind_eq_ok.1 (outcome_of_framed h)
  refine ⟨phase, himposed, ?_⟩
  cases hchecked : phase.andThen Network.check with
  | stuck net found =>
      rw [hchecked] at h
      cases h
      rw [hchecked]
      rfl
  | passed net =>
      rw [hchecked] at h ⊢
      exact Network.refutedFor_of_solve h

/-- A disjunction is refuted as a whole. -/
theorem eq_of_solveVariants_unsat {undecided : Option (List (String × String))}
    (h : (solveVariants scope settings mode c es undecided).outcome = .ok (.unsat cause)) :
    cause = .clause c := by
  induction es generalizing undecided with
  | nil =>
      cases undecided with
      | none =>
          cases h
          rfl
      | some pairs => cases h
  | cons e es ih =>
      rw [solveVariants] at h
      obtain ⟨verdict, -, h⟩ := Traced.outcome_bind_eq_ok.1 h
      cases verdict with
      | sat s => cases h
      | unknown pairs =>
          obtain ⟨-, -, h⟩ := Traced.outcome_bind_eq_ok.1 h
          exact ih h
      | unsat found =>
          obtain ⟨-, -, h⟩ := Traced.outcome_bind_eq_ok.1 h
          exact ih h

/-- However a clause is refuted, it is for one cause. -/
theorem cause_unique (h : (c.solve scope settings mode).outcome = .ok (.unsat cause))
    (h' : (c.solve scope settings' mode').outcome = .ok (.unsat cause')) : cause = cause' := by
  rw [solve] at h h'
  cases hconn : c.connective with
  | all =>
      rw [hconn] at h h'
      exact (refutedFor_of_solveAll h).unique (refutedFor_of_solveAll h')
  | any =>
      rw [hconn] at h h'
      rw [eq_of_solveVariants_unsat (outcome_of_framed h),
        eq_of_solveVariants_unsat (outcome_of_framed h')]

end Clause

namespace Formula

variable {f : Formula}

/-! ## Formulas -/

/-- What a formula is refuted for, if it is refuted: what its conjunction is refuted for, or else
its first disjunction. -/
def RefutedFor (scope : Scope) (f : Formula) (cause : Conflict) : Prop :=
  (¬∃ σ, Solves scope f.conjunction σ) ∧ Clause.RefutedFor scope f.conjunction cause ∨
    (∃ σ, Solves scope f.conjunction σ) ∧ ∃ c, f.disjunctions.head? = some c ∧ cause = .clause c

theorem RefutedFor.unique (h : f.RefutedFor scope cause) (h' : f.RefutedFor scope cause') :
    cause = cause' := by
  rcases h with ⟨hnone, hcause⟩ | ⟨hsome, c, hc, rfl⟩
  · rcases h' with ⟨-, hcause'⟩ | ⟨hsome', -⟩
    · exact hcause.unique hcause'
    · exact absurd hsome' hnone
  · rcases h' with ⟨hnone', -⟩ | ⟨-, c', hc', rfl⟩
    · exact absurd hsome hnone'
    · rw [Option.some.inj (hc.symm.trans hc')]

theorem refutedFor_of_solve (hd : scope.Declares xs) (hf : f.Proper xs)
    (h : (f.solve scope settings mode).outcome = .ok (.unsat cause)) :
    f.RefutedFor scope cause := by
  have hbase : ∀ {mode verdict},
      (Clause.solveAll scope settings mode f.conjunction).outcome = .ok verdict →
        verdict.Answers settings mode scope.vars (Solves scope f.conjunction) :=
    (Clause.solveAll_returns hd hf.of_mem_conjunction).of_eq_ok
  have hunsat : ∀ {mode cause},
      (Clause.solveAll scope settings mode f.conjunction).outcome = .ok (.unsat cause) →
        f.RefutedFor scope cause :=
    fun h => Or.inl ⟨not_exists.2 (hbase h), Clause.refutedFor_of_solveAll h⟩
  have hunconfirmed := outcome_of_solve h
  rw [unconfirmed] at hunconfirmed
  cases hcs : f.disjunctions with
  | nil =>
      rw [hcs] at hunconfirmed
      exact hunsat hunconfirmed
  | cons c cs =>
      rw [hcs] at hunconfirmed
      obtain ⟨first, hfirst, hnext⟩ := Traced.outcome_bind_eq_ok.1 hunconfirmed
      cases first with
      | unknown pairs => cases hnext
      | unsat found =>
          cases hnext
          exact hunsat hfirst
      | sat s =>
          obtain ⟨σ, hσ, -⟩ := hbase hfirst
          have hhead : f.disjunctions.head? = some c := by rw [hcs, List.head?_cons]
          exact Or.inr ⟨⟨σ, hσ⟩, c, hhead, (eq_of_tryEquations_unsat hnext).1⟩

end Formula

/-! ## The result -/

/-- Do both verdicts settle the question, alike and for the same cause? -/
structure Verdict.Alike (verdict verdict' : Verdict) : Prop where
  settled : verdict.status ≠ .unknown
  status_eq : verdict'.status = verdict.status
  unsat_iff : ∀ cause, verdict' = .unsat cause ↔ verdict = .unsat cause
  errors_eq : verdict'.errors = verdict.errors

/-- Two computations agree if both settle one question, and do not refute it for two causes. -/
theorem alike_of_returns {x y : Except Fault Verdict} {goal : Prop}
    (hx : Returns x fun verdict => verdict.status ≠ .unknown ∧ (verdict.status = .sat ↔ goal))
    (hy : Returns y fun verdict => verdict.status ≠ .unknown ∧ (verdict.status = .sat ↔ goal))
    (hcause : ∀ cause cause', x = .ok (.unsat cause) → y = .ok (.unsat cause') → cause = cause') :
    ∃ verdict verdict', x = .ok verdict ∧ y = .ok verdict' ∧ verdict.Alike verdict' := by
  obtain ⟨verdict, rfl, hknown, hsat⟩ := hx
  obtain ⟨verdict', rfl, hknown', hsat'⟩ := hy
  refine ⟨verdict, verdict', rfl, rfl, ?_⟩
  cases verdict with
  | unknown pairs => exact absurd rfl hknown
  | sat s =>
      cases verdict' with
      | unknown pairs => exact absurd rfl hknown'
      | unsat cause' => cases hsat'.2 (hsat.1 rfl)
      | sat s' => exact ⟨hknown, rfl, fun _ => ⟨nofun, nofun⟩, rfl⟩
  | unsat cause =>
      cases verdict' with
      | unknown pairs => exact absurd rfl hknown'
      | sat s' => cases hsat.2 (hsat'.1 rfl)
      | unsat cause' =>
          cases hcause cause cause' rfl rfl
          exact ⟨hknown, rfl, fun _ => Iff.rfl, rfl⟩

/--
Without a budget a clause or a formula over declared variables has the same status whatever the
order in which values are tried, and if it has no solution, that is so for the same cause.
-/
theorem Scope.orders_agree {groups : List (List Variable)}
    (hscope : Scope.ofGroups groups = .ok scope) (settings : Settings)
    (hbudget : settings.budget = none) (mode : Mode) (order order' : ValueOrder) :
    (∀ c : Clause, c.Proper groups.flatten → ∃ verdict verdict',
      (c.solve scope (settings.withOrder order) mode).outcome = .ok verdict ∧
      (c.solve scope (settings.withOrder order') mode).outcome = .ok verdict' ∧
      verdict.Alike verdict') ∧
    ∀ f : Formula, f.Proper groups.flatten → ∃ verdict verdict',
      (f.solve scope (settings.withOrder order) mode).outcome = .ok verdict ∧
      (f.solve scope (settings.withOrder order') mode).outcome = .ok verdict' ∧
      verdict.Alike verdict' := by
  have hd := Scope.declares_ofGroups hscope
  refine ⟨fun c hc => ?_, fun f hf => ?_⟩
  · have hsettled : ∀ order, Returns (c.solve scope (settings.withOrder order) mode).outcome _ :=
      fun order => (Clause.solve_returns hd hc).mono fun verdict h =>
        h.status_iff (fun s => c.holds s = .ok true) hd (fun s t h => by rw [hc.holds_congr h])
          hbudget
    exact alike_of_returns (hsettled order) (hsettled order') fun _ _ => Clause.cause_unique
  · have hsettled : ∀ order, Returns (f.solve scope (settings.withOrder order) mode).outcome _ :=
      fun order => (Formula.solve_returns hd hf).mono fun verdict h =>
        h.status_iff (fun s => f.holds s = .ok true) hd (fun s t h => by rw [hf.holds_congr h])
          hbudget
    refine alike_of_returns (hsettled order) (hsettled order') fun _ _ h h' => ?_
    exact (Formula.refutedFor_of_solve hd hf h).unique (Formula.refutedFor_of_solve hd hf h')

/-- The triangle cannot be met in either order; the formula has a solution whichever bit is
tried first. -/
theorem Scope.orders_agree_bits :
    (∀ order, (Clause.bitTriangle.solve Clause.bitScope (Settings.withOrder {} order)
        .decide).outcome = .ok (.unsat (.inequalities [("a", "b"), ("a", "c"), ("b", "c")]))) ∧
    ∀ order, ∃ s, (Formula.bitChoice.solve Clause.bitScope (Settings.withOrder {} order)
        .witness).outcome = .ok (.sat s) := by
  have hscope : Scope.ofGroups Clause.bits = .ok Clause.bitScope := rfl
  refine ⟨fun order => ?_, fun order => ?_⟩
  · have hunsat : (Clause.bitTriangle.solve Clause.bitScope {} .decide).outcome =
        .ok (.unsat (.inequalities [("a", "b"), ("a", "c"), ("b", "c")])) := by
      decide +kernel
    obtain ⟨verdict, verdict', hascending, horder, halike⟩ :=
      (Scope.orders_agree hscope {} rfl .decide .ascending order).1 _
        Clause.proper_bitTriangle
    cases hunsat.symm.trans hascending
    rw [horder, (halike.unsat_iff _).2 rfl]
  · have hsat : (Formula.bitChoice.solve Clause.bitScope {} .witness).outcome =
        .ok (.sat (.ofValues Clause.bitScope.vars fun i => if i = 1 then 1 else 0)) := by
      decide +kernel
    obtain ⟨verdict, verdict', hascending, horder, halike⟩ :=
      (Scope.orders_agree hscope {} rfl .witness .ascending order).2 _
        Formula.proper_bitChoice
    cases hsat.symm.trans hascending
    cases verdict' with
    | sat s => exact ⟨s, horder⟩
    | unsat cause => cases halike.status_eq
    | unknown pairs => cases halike.status_eq

end FiniteDomain
