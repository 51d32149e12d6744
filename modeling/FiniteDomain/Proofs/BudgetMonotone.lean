import FiniteDomain.Proofs.BudgetVerdict
import FiniteDomain.Proofs.ChoiceLoop
import Mathlib

/-!
# A larger budget keeps the verdict on a formula

The budget of a formula is a budget for each of the searches that are made for it. With
a larger one fewer of them are left open, and then choices are followed up that were
given up before. Such a choice may still come to nothing, and then the loop goes on to
the choice that was successful before; or it may be successful itself, and then the
witness is another one. So what is kept of a solution is only that there is one.

A refutation is kept to the letter. It needs every attempt refuted, and no larger budget
turns a refuted attempt into another.

The two loops do not remember the same open attempts. All that is carried along is that
the second has none to remember if the first has none, and the case in which the first
does is settled by what such a loop cannot answer.
-/

namespace FiniteDomain

variable {settings settings' : Settings} {mode : Mode} {scope : Scope} {xs : List Variable}
  {b b' : Option Nat} {verdict verdict' : Verdict} {x y : Traced Verdict}

/-- Is the second budget at least as large as the first? None is as large as being unbounded. -/
def BudgetLe : Option Nat → Option Nat → Prop
  | _, none => True
  | none, some _ => False
  | some b, some b' => b ≤ b'

namespace Verdict

/-- Does the second verdict keep what the first one settled? The witness may be another one. -/
def KeptBy (verdict verdict' : Verdict) : Prop :=
  match verdict with
  | sat _ => verdict'.status = .sat
  | unsat cause => verdict' = unsat cause
  | unknown _ => True

theorem KeptBy.refl (verdict : Verdict) : verdict.KeptBy verdict := by
  cases verdict with
  | sat s => rfl
  | unsat cause => rfl
  | unknown pairs => trivial

theorem KeptBy.exists_sat {s : Assignment} (h : (sat s).KeptBy verdict') :
    ∃ s', verdict' = sat s' := by
  cases verdict' with
  | sat s' => exact ⟨s', rfl⟩
  | unsat cause => cases h
  | unknown pairs => cases h

/-- A solution keeps everything but a refutation. -/
theorem keptBy_sat {s : Assignment} (h : ∀ cause, verdict ≠ unsat cause) :
    verdict.KeptBy (sat s) := by
  cases verdict with
  | sat t => rfl
  | unsat cause => exact absurd rfl (h cause)
  | unknown pairs => trivial

end Verdict

/-- Both computations come to a verdict, and the second keeps that of the first. -/
def Keeps (x y : Traced Verdict) : Prop :=
  ∃ verdict verdict', x.outcome = .ok verdict ∧ y.outcome = .ok verdict' ∧ verdict.KeptBy verdict'

theorem Keeps.refl (h : x.outcome = .ok verdict) : Keeps x x :=
  ⟨verdict, verdict, h, h, Verdict.KeptBy.refl verdict⟩

/-- Whatever cost there is, raising the budget can only cover it. -/
theorem Costs.keeps {cost : Nat} {run : Option Nat → Traced Verdict}
    (h : Costs cost verdict run) (hle : BudgetLe b b') : Keeps (run b) (run b') := by
  have hends : ∀ budget, (run budget).outcome = .ok verdict ∨
      ∃ n pairs, budget = some n ∧ n < cost ∧ (run budget).outcome = .ok (.unknown pairs) := by
    intro budget
    cases budget with
    | none => exact Or.inl h.unbounded
    | some n =>
        rcases Nat.lt_or_ge n cost with hlt | hge
        · obtain ⟨pairs, hpairs⟩ := h.exceeded n hlt
          exact Or.inr ⟨n, pairs, rfl, hlt, hpairs⟩
        · exact Or.inl (h.covered n hge)
  rcases hends b' with hsame' | ⟨n', pairs', rfl, hlt', hopen'⟩
  · rcases hends b with hsame | ⟨n, pairs, rfl, -, hopen⟩
    · exact ⟨_, _, hsame, hsame', Verdict.KeptBy.refl verdict⟩
    · exact ⟨_, _, hopen, hsame', trivial⟩
  · -- The larger budget is exceeded, and so is the smaller one.
    cases b with
    | none => exact False.elim hle
    | some n =>
        obtain ⟨pairs, hopen⟩ := h.exceeded n (Nat.lt_of_le_of_lt hle hlt')
        exact ⟨_, _, hopen, hopen', trivial⟩

theorem Clause.solveAll_keeps {es : List Equation} (hd : scope.Declares xs)
    (hes : ∀ e ∈ es, e.Proper xs) (settings : Settings) (mode : Mode) (hle : BudgetLe b b') :
    Keeps (solveAll scope (settings.withBudget b) mode es)
      (solveAll scope (settings.withBudget b') mode es) := by
  obtain ⟨cost, hcost⟩ := solveEquations_costs hd hes settings
  obtain ⟨verdict, hcosts⟩ := hcost mode
  rw [Keeps, outcome_solveAll_eq hd hes, outcome_solveAll_eq hd hes]
  exact hcosts.keeps hle

namespace Formula

variable {f : Formula} {c : Clause} {chosen es : List Equation} {ahead : Bool}

theorem outlook_keeps (hd : scope.Declares xs) (hes : ∀ e ∈ es, e.Proper xs) (settings : Settings)
    (hle : BudgetLe b b') (ahead : Bool) :
    Keeps (outlook scope (settings.withBudget b) ahead es)
      (outlook scope (settings.withBudget b') ahead es) := by
  cases ahead with
  | true => exact Clause.solveAll_keeps hd hes settings .decide hle
  | false => exact ⟨.sat .empty, .sat .empty, rfl, rfl, rfl⟩

theorem followUp_keeps {first first' : Traced Verdict} {next next' : Unit → Traced Verdict}
    (hfirst : Keeps first first') (hnext : Keeps (next ()) (next' ())) :
    Keeps (followUp first next) (followUp first' next') := by
  obtain ⟨verdict, verdict', hverdict, hverdict', hkept⟩ := hfirst
  obtain ⟨found, found', hfound, hfound', hnext⟩ := hnext
  simp only [Keeps, followUp, Traced.outcome_bind, hverdict, hverdict', Except.bind]
  cases verdict with
  | unsat cause =>
      cases hkept
      exact ⟨_, _, rfl, rfl, Verdict.KeptBy.refl _⟩
  | sat s =>
      obtain ⟨s', rfl⟩ := hkept.exists_sat
      exact ⟨found, found', hfound, hfound', hnext⟩
  | unknown pairs =>
      -- Nothing was settled here, so it is enough that the other side comes to a verdict.
      cases verdict' with
      | sat s' => exact ⟨_, found', rfl, hfound', trivial⟩
      | unsat cause => exact ⟨_, _, rfl, rfl, trivial⟩
      | unknown pairs' => exact ⟨_, _, rfl, rfl, trivial⟩

theorem tryEquations_keeps {deeper deeper' : List Equation → Traced Verdict} :
    ∀ {undecided undecided' : Option (List (String × String))},
      (∀ e ∈ es, Keeps (attempt scope settings ahead deeper chosen e)
        (attempt scope settings' ahead deeper' chosen e)) →
      (undecided = none → undecided' = none) →
      Keeps (tryEquations scope settings ahead deeper c chosen es undecided)
        (tryEquations scope settings' ahead deeper' c chosen es undecided') := by
  induction es with
  | nil =>
      intro undecided undecided' _ hopen
      cases undecided with
      | none =>
          rw [hopen rfl]
          exact Keeps.refl rfl
      | some pairs =>
          cases undecided' with
          | none => exact ⟨_, _, rfl, rfl, trivial⟩
          | some pairs' => exact ⟨_, _, rfl, rfl, trivial⟩
  | cons e es ih =>
      intro undecided undecided' hattempt hopen
      have hrest := fun e' he' => hattempt e' (List.mem_cons_of_mem e he')
      obtain ⟨verdict, verdict', hverdict, hverdict', hkept⟩ := hattempt e List.mem_cons_self
      cases verdict with
      | sat s =>
          obtain ⟨s', rfl⟩ := hkept.exists_sat
          exact ⟨_, _, tryEquations_of_sat hverdict, tryEquations_of_sat hverdict', rfl⟩
      | unsat cause =>
          cases hkept
          rw [Keeps, tryEquations_of_unsat hverdict, tryEquations_of_unsat hverdict']
          exact ih hrest hopen
      | unknown pairs =>
          have hsome : (undecided <|> some pairs) ≠ none := by
            cases undecided <;> exact Option.some_ne_none _
          rw [Keeps, tryEquations_of_unknown hverdict]
          cases verdict' with
          | sat s' =>
              obtain ⟨found, -, hfound, -, -⟩ :=
                @ih (undecided <|> some pairs) undecided' hrest fun hnone => absurd hnone hsome
              refine ⟨found, .sat s', hfound, tryEquations_of_sat hverdict',
                Verdict.keptBy_sat fun cause hcause => ?_⟩
              exact hsome (eq_of_tryEquations_unsat (hcause ▸ hfound)).2
          | unsat cause =>
              rw [tryEquations_of_unsat hverdict']
              exact ih hrest fun hnone => absurd hnone hsome
          | unknown pairs' =>
              rw [tryEquations_of_unknown hverdict']
              exact ih hrest fun hnone => absurd hnone hsome

theorem choose_keeps (hd : scope.Declares xs) (settings : Settings) (mode : Mode)
    (hle : BudgetLe b b') {cs : List Clause} :
    ∀ {chosen : List Equation}, (∀ c ∈ cs, c.Proper xs) → (∀ e ∈ chosen, e.Proper xs) →
      Keeps (choose scope (settings.withBudget b) mode cs chosen)
        (choose scope (settings.withBudget b') mode cs chosen) := by
  induction cs with
  | nil =>
      intro chosen _ hchosen
      exact Clause.solveAll_keeps hd hchosen settings mode hle
  | cons c cs ih =>
      intro chosen hcs hchosen
      have hc : c.Proper xs := hcs c List.mem_cons_self
      have hcs' : ∀ c ∈ cs, c.Proper xs := fun c hc => hcs c (List.mem_cons_of_mem _ hc)
      rw [choose, choose]
      refine tryEquations_keeps (fun e he => ?_) id
      have hcandidate : ∀ e' ∈ chosen ++ [e], e'.Proper xs :=
        Equation.forall_proper_concat hchosen (hc e he)
      exact followUp_keeps (outlook_keeps hd hcandidate settings hle _) (ih hcs' hcandidate)

/--
Under a larger budget, or under none, a formula that was found to have a solution is found
to have one again, and a formula that was refuted is refuted for the same cause.
-/
theorem solve_budget_mono {groups : List (List Variable)}
    (hscope : Scope.ofGroups groups = .ok scope) (hf : f.Proper groups.flatten)
    (settings : Settings) (mode : Mode) (hle : BudgetLe b b') :
    (∀ s, (f.solve scope (settings.withBudget b) mode).outcome = .ok (.sat s) →
      ∃ s', (f.solve scope (settings.withBudget b') mode).outcome = .ok (.sat s')) ∧
    ∀ cause, (f.solve scope (settings.withBudget b) mode).outcome = .ok (.unsat cause) →
      (f.solve scope (settings.withBudget b') mode).outcome = .ok (.unsat cause) := by
  have hd := Scope.declares_ofGroups hscope
  have hkeeps : Keeps (f.unconfirmed scope (settings.withBudget b) mode)
      (f.unconfirmed scope (settings.withBudget b') mode) :=
    followUp_keeps (outlook_keeps hd hf.of_mem_conjunction settings hle _)
      (choose_keeps hd settings mode hle hf.of_mem_disjunctions hf.of_mem_conjunction)
  obtain ⟨verdict, verdict', hverdict, hverdict', hkept⟩ := hkeeps
  have hunder : (f.solve scope (settings.withBudget b) mode).outcome = .ok verdict :=
    (outcome_solve_eq hd hf).trans hverdict
  have hunder' : (f.solve scope (settings.withBudget b') mode).outcome = .ok verdict' :=
    (outcome_solve_eq hd hf).trans hverdict'
  refine ⟨fun s hs => ?_, fun cause hcause => ?_⟩
  · cases hunder.symm.trans hs
    obtain ⟨s', rfl⟩ := hkept.exists_sat
    exact ⟨s', hunder'⟩
  · cases hunder.symm.trans hcause
    cases hkept
    exact hunder'

/-- A disjunction whose first equation needs a search and whose second does not. -/
def bitDetour : Formula :=
  ⟨[.allOf [.pair "b" "c" false], .anyOf [.pair "a" "b" false, .value "a" 0 true]]⟩

theorem proper_bitDetour : bitDetour.Proper Clause.bits.flatten := by
  refine List.forall_mem_cons.2 ⟨?_, List.forall_mem_singleton.2 (List.forall_mem_cons.2 ⟨?_, ?_⟩)⟩
  · exact List.forall_mem_singleton.2 (Equation.proper_pair (by decide) (by decide) (by decide))
  · exact Equation.proper_pair (by decide) (by decide) (by decide)
  · exact List.forall_mem_singleton.2 (Equation.proper_value (by decide) 0 true)

/-- A search that may try no value leaves the first equation open, and the witness comes from
the second; one that may try all it needs has a witness for the first. -/
theorem solve_budget_mono_bitDetour :
    (bitDetour.solve Clause.bitScope { budget := some 0 } .witness).outcome =
      .ok (.sat (.ofValues Clause.bitScope.vars fun i => if i = 2 then 1 else 0)) ∧
    (∃ s, (bitDetour.solve Clause.bitScope { budget := none } .witness).outcome = .ok (.sat s)) ∧
    (bitDetour.solve Clause.bitScope { budget := none } .witness).outcome =
      .ok (.sat (.ofValues Clause.bitScope.vars fun i => if i = 1 then 0 else 1)) := by
  have hzero : (bitDetour.solve Clause.bitScope { budget := some 0 } .witness).outcome =
      .ok (.sat (.ofValues Clause.bitScope.vars fun i => if i = 2 then 1 else 0)) := by
    decide +kernel
  have hle : BudgetLe (some 0) none := trivial
  have hmono := solve_budget_mono rfl proper_bitDetour {} .witness hle
  exact ⟨hzero, hmono.1 _ hzero, by decide +kernel⟩

end Formula

end FiniteDomain
