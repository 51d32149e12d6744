import FiniteDomain.Proofs.ChoiceLoop
import Mathlib

/-!
# Without a budget the first choice that can be met is found

A choice takes one equation from every disjunction of a formula, and is told from other
choices by the places of its equations. Going through all choices in lexicographic order
and solving each of them together with the conjunction would find the first one that can
be met. Looking ahead cuts most of this short, and what is found is the same: the
verdict on a formula is that of the clause solver on the first choice.

A prefix of a choice is given up for one of two reasons. It has no solution itself, or
none of the choices that extend it has one; either way no extension of it can be met,
and so it comes before the first choice without being part of it. Therefore the loop
over one disjunction passes over everything in front of the right equation, and the
induction is on the disjunctions that are left.
-/

namespace FiniteDomain

variable {settings : Settings} {mode : Mode} {scope : Scope} {xs : List Variable}
  {verdict : Verdict} {vars : Array Variable} {goal : (Nat → Int) → Prop} {es : List Equation}

/-! ## Verdicts without a budget -/

theorem Verdict.Answers.exists_sat (h : verdict.Answers settings mode vars goal)
    (hbudget : settings.budget = none) (hsome : ∃ σ, goal σ) : ∃ s, verdict = sat s := by
  cases verdict with
  | sat s => exact ⟨s, rfl⟩
  | unsat cause =>
      obtain ⟨σ, hσ⟩ := hsome
      exact absurd hσ (h σ)
  | unknown pairs => exact absurd hbudget h

theorem Verdict.Answers.exists_unsat (h : verdict.Answers settings mode vars goal)
    (hbudget : settings.budget = none) (hnone : ∀ σ, ¬goal σ) : ∃ cause, verdict = unsat cause := by
  cases verdict with
  | sat s =>
      obtain ⟨σ, hσ, -⟩ := h
      exact absurd hσ (hnone σ)
  | unsat cause => exact ⟨cause, rfl⟩
  | unknown pairs => exact absurd hbudget h

/-- Does the clause hold under some assignment that respects the declarations? -/
def Clause.Satisfiable (xs : List Variable) (c : Clause) : Prop :=
  ∃ s : Assignment, s.Respects xs ∧ c.holds s = .ok true

theorem Clause.satisfiable_allOf_iff (hd : scope.Declares xs) (hes : ∀ e ∈ es, e.Proper xs) :
    (allOf es).Satisfiable xs ↔ ∃ σ, Solves scope es σ := by
  have hproper : (allOf es).Proper xs := hes
  refine ⟨?_, ?_⟩
  · intro h
    obtain ⟨s, hs, hholds⟩ := h
    obtain ⟨σ, htakes, hvalues⟩ := hd.exists_ofValues hs
    rw [hproper.holds_congr hvalues] at hholds
    exact ⟨σ, htakes, allHold_iff.1 hholds⟩
  · intro h
    obtain ⟨σ, htakes, hholds⟩ := h
    exact ⟨_, (hd.covers_ofValues htakes).respects, allHold_iff.2 hholds⟩

theorem Clause.solveAll_sat (hd : scope.Declares xs) (hes : ∀ e ∈ es, e.Proper xs)
    (hbudget : settings.budget = none) (hsome : ∃ σ, Solves scope es σ) :
    ∃ s, (solveAll scope settings mode es).outcome = .ok (.sat s) := by
  have hreturns : Returns (solveAll scope settings mode es).outcome _ := solveAll_returns hd hes
  obtain ⟨verdict, houtcome, hanswers⟩ := hreturns
  obtain ⟨s, rfl⟩ := hanswers.exists_sat hbudget hsome
  exact ⟨s, houtcome⟩

theorem Clause.solveAll_unsat (hd : scope.Declares xs) (hes : ∀ e ∈ es, e.Proper xs)
    (hbudget : settings.budget = none) (hnone : ¬∃ σ, Solves scope es σ) :
    ∃ cause, (solveAll scope settings mode es).outcome = .ok (.unsat cause) := by
  have hreturns : Returns (solveAll scope settings mode es).outcome _ := solveAll_returns hd hes
  obtain ⟨verdict, houtcome, hanswers⟩ := hreturns
  obtain ⟨cause, rfl⟩ := hanswers.exists_unsat hbudget (not_exists.1 hnone)
  exact ⟨cause, houtcome⟩

theorem solves_append {chosen : List Equation} {σ : Nat → Int} :
    Solves scope (chosen ++ es) σ ↔
      Solves scope chosen σ ∧ ∀ e ∈ es, e.holds (.ofValues scope.vars σ) = .ok true := by
  rw [Solves, Solves, List.forall_mem_append, and_assoc]

namespace Formula

variable {f : Formula} {c : Clause} {cs : List Clause} {chosen : List Equation} {e : Equation}
  {places : List Nat} {p q : List Equation → Prop}

/-! ## Choices -/

/-- The equations at the given places, one of every clause in a list. -/
inductive Choice : List Clause → List Nat → List Equation → Prop where
  | nil : Choice [] [] []
  | cons {c : Clause} {cs : List Clause} {i : Nat} {places : List Nat} {e : Equation}
      {es : List Equation} (he : c.equations[i]? = some e) (hes : Choice cs places es) :
      Choice (c :: cs) (i :: places) (e :: es)

theorem Choice.proper (h : Choice cs places es) :
    (∀ c ∈ cs, c.Proper xs) → ∀ e ∈ es, e.Proper xs := by
  induction h with
  | nil => exact fun _ => List.forall_mem_nil _
  | cons he _ ih =>
      intro hcs
      obtain ⟨hc, hcs⟩ := List.forall_mem_cons.1 hcs
      exact List.forall_mem_cons.2 ⟨hc _ (List.mem_of_getElem? he), ih hcs⟩

/-- Every clause has an equation with some property exactly when some choice has it throughout. -/
theorem exists_choice_iff {r : Equation → Prop} :
    (∃ places es, Choice cs places es ∧ ∀ e ∈ es, r e) ↔ ∀ c ∈ cs, ∃ e ∈ c.equations, r e := by
  induction cs with
  | nil =>
      refine ⟨fun _ => List.forall_mem_nil _, fun _ => ⟨[], [], .nil, List.forall_mem_nil _⟩⟩
  | cons c cs ih =>
      rw [List.forall_mem_cons, ← ih]
      refine ⟨?_, ?_⟩
      · intro h
        obtain ⟨_, _, hchoice, hr⟩ := h
        cases hchoice with
        | cons he hes =>
            obtain ⟨hre, hres⟩ := List.forall_mem_cons.1 hr
            exact ⟨⟨_, List.mem_of_getElem? he, hre⟩, _, _, hes, hres⟩
      · intro h
        obtain ⟨⟨e, he, hre⟩, places, es, hes, hres⟩ := h
        obtain ⟨i, hi⟩ := List.mem_iff_getElem?.1 he
        exact ⟨i :: places, e :: es, .cons hi hes, List.forall_mem_cons.2 ⟨hre, hres⟩⟩

/-- Is this the first choice with a property, in the lexicographic order of places? -/
structure FirstChoice (p : List Equation → Prop) (cs : List Clause) (places : List Nat)
    (es : List Equation) : Prop where
  choice : Choice cs places es
  holds : p es
  first : ∀ places' es', Choice cs places' es' → places' < places → ¬p es'

namespace FirstChoice

theorem congr (h : FirstChoice p cs places es)
    (hiff : ∀ places es, Choice cs places es → (p es ↔ q es)) : FirstChoice q cs places es where
  choice := h.choice
  holds := (hiff _ _ h.choice).1 h.holds
  first places' es' hchoice hlt := mt (hiff _ _ hchoice).2 (h.first places' es' hchoice hlt)

/-- Below its first equation, the first choice is the first one again. -/
theorem tail {i : Nat} (h : FirstChoice p (c :: cs) (i :: places) (e :: es)) :
    FirstChoice (fun es => p (e :: es)) cs places es := by
  cases h.choice with
  | cons he hes =>
      refine ⟨hes, h.holds, fun places' es' hchoice hlt => ?_⟩
      exact h.first _ _ (.cons he hchoice) (List.cons_lt_cons_iff.2 (Or.inr ⟨rfl, hlt⟩))

/-- No choice that starts in front of the first one has the property. -/
theorem not_before {i j : Nat} {e' : Equation}
    (h : FirstChoice p (c :: cs) (i :: places) (e :: es)) (hlt : j < i)
    (he' : c.equations[j]? = some e') : ∀ places' es', Choice cs places' es' → ¬p (e' :: es') :=
  fun _ _ hchoice => h.first _ _ (.cons he' hchoice) (List.cons_lt_cons_iff.2 (Or.inl hlt))

end FirstChoice

/-- If a choice has the property, there is a first one. -/
theorem exists_firstChoice :
    ∀ {p : List Equation → Prop}, (∃ places es, Choice cs places es ∧ p es) →
      ∃ places es, FirstChoice p cs places es := by
  classical
  induction cs with
  | nil =>
      intro p h
      obtain ⟨_, _, hchoice, hp⟩ := h
      cases hchoice
      exact ⟨[], [], .nil, hp, fun places' _ _ hlt => absurd hlt (List.not_lt_nil places')⟩
  | cons c cs ih =>
      intro p h
      have hstart : ∃ i : Nat, ∃ e, c.equations[i]? = some e ∧
          ∃ places es, Choice cs places es ∧ p (e :: es) := by
        obtain ⟨_, _, hchoice, hp⟩ := h
        cases hchoice with
        | cons he hes => exact ⟨_, _, he, _, _, hes, hp⟩
      -- The least place at which a choice with the property can start.
      obtain ⟨e, he, hrest⟩ := Nat.find_spec hstart
      obtain ⟨places, es, hfirst⟩ := ih hrest
      refine ⟨Nat.find hstart :: places, e :: es, .cons he hfirst.choice, hfirst.holds, ?_⟩
      intro places' es' hchoice hlt hp
      cases hchoice with
      | cons he' hes' =>
          rcases List.cons_lt_cons_iff.1 hlt with hbefore | ⟨rfl, hafter⟩
          · exact Nat.find_min hstart hbefore ⟨_, he', _, _, hes', hp⟩
          · cases Option.some.inj (he'.symm.trans he)
            exact hfirst.first _ _ hes' hafter hp

/-! ## Following up -/

theorem followUp_of_sat {first : Traced Verdict} {next : Unit → Traced Verdict} {s : Assignment}
    (h : first.outcome = .ok (.sat s)) : (followUp first next).outcome = (next ()).outcome := by
  rw [followUp, Traced.outcome_bind, h]
  rfl

theorem followUp_of_unsat {first : Traced Verdict} {next : Unit → Traced Verdict}
    {cause : Conflict} (h : first.outcome = .ok (.unsat cause)) :
    (followUp first next).outcome = .ok (.unsat cause) := by
  rw [followUp, Traced.outcome_bind, h]
  rfl

theorem outlook_sat (hd : scope.Declares xs) (hes : ∀ e ∈ es, e.Proper xs)
    (hbudget : settings.budget = none) (hsome : ∃ σ, Solves scope es σ) (ahead : Bool) :
    ∃ s, (outlook scope settings ahead es).outcome = .ok (.sat s) := by
  cases ahead with
  | true => exact Clause.solveAll_sat hd hes hbudget hsome
  | false => exact ⟨.empty, rfl⟩

section Attempts

variable (hd : scope.Declares xs) (hbudget : settings.budget = none)

include hd hbudget

/-- What cannot be extended to a choice that has a solution is refuted. -/
theorem attempt_unsat {ahead : Bool} (hcs : ∀ c ∈ cs, c.Proper xs)
    (hcandidate : ∀ e' ∈ chosen ++ [e], e'.Proper xs)
    (hnone : ∀ places es, Choice cs places es → ¬∃ σ, Solves scope (chosen ++ [e] ++ es) σ) :
    ∃ cause, (attempt scope settings ahead (choose scope settings mode cs) chosen e).outcome =
      .ok (.unsat cause) := by
  have hreturns : Returns
      (attempt scope settings ahead (choose scope settings mode cs) chosen e).outcome _ :=
    followUp_returns hd hcandidate ahead (fun σ hσ => hσ.1) (choose_returns hd hcs hcandidate)
  obtain ⟨verdict, houtcome, hanswers⟩ := hreturns
  obtain ⟨cause, rfl⟩ := hanswers.exists_unsat hbudget fun σ hσ => by
    obtain ⟨places, es, hchoice, hholds⟩ := exists_choice_iff.2 hσ.2
    exact hnone places es hchoice ⟨σ, solves_append.2 ⟨hσ.1, hholds⟩⟩
  exact ⟨cause, houtcome⟩

/-- If no choice has a solution, the first disjunction is cited. -/
theorem choose_unsat (hcs : ∀ c' ∈ c :: cs, c'.Proper xs) (hchosen : ∀ e ∈ chosen, e.Proper xs)
    (hnone : ∀ places es, Choice (c :: cs) places es → ¬∃ σ, Solves scope (chosen ++ es) σ) :
    (choose scope settings mode (c :: cs) chosen).outcome = .ok (.unsat (.clause c)) := by
  have hreturns : Returns (choose scope settings mode (c :: cs) chosen).outcome _ :=
    choose_returns hd hcs hchosen
  obtain ⟨verdict, houtcome, hanswers⟩ := hreturns
  obtain ⟨cause, rfl⟩ := hanswers.exists_unsat hbudget fun σ hσ => by
    obtain ⟨places, es, hchoice, hholds⟩ := exists_choice_iff.2 hσ.2
    exact hnone places es hchoice ⟨σ, solves_append.2 ⟨hσ.1, hholds⟩⟩
  obtain ⟨rfl, -⟩ := eq_of_tryEquations_unsat houtcome
  exact houtcome

/-- What can be extended to a choice that has a solution is followed up. -/
theorem attempt_eq_deeper {ahead : Bool} {deeper : List Equation → Traced Verdict}
    (hcandidate : ∀ e' ∈ chosen ++ [e], e'.Proper xs)
    (hsome : ∃ σ, Solves scope (chosen ++ [e]) σ) :
    (attempt scope settings ahead deeper chosen e).outcome = (deeper (chosen ++ [e])).outcome := by
  obtain ⟨s, hs⟩ := outlook_sat hd hcandidate hbudget hsome ahead
  exact followUp_of_sat hs

omit hd hbudget in
/-- The loop ends at an equation that has a solution if everything in front of it is refuted. -/
theorem tryEquations_at {ahead : Bool} {deeper : List Equation → Traced Verdict} {s : Assignment}
    {undecided : Option (List (String × String))}
    (hs : (attempt scope settings ahead deeper chosen e).outcome = .ok (.sat s)) :
    ∀ {i : Nat}, es[i]? = some e →
      (∀ j < i, ∀ e', es[j]? = some e' → ∃ cause,
        (attempt scope settings ahead deeper chosen e').outcome = .ok (.unsat cause)) →
      (tryEquations scope settings ahead deeper c chosen es undecided).outcome = .ok (.sat s) := by
  induction es with
  | nil =>
      intro i he
      cases he
  | cons e' es ih =>
      intro i he hbefore
      cases i with
      | zero =>
          cases he
          exact tryEquations_of_sat hs
      | succ i =>
          obtain ⟨cause, hcause⟩ := hbefore 0 (Nat.succ_pos i) e' rfl
          rw [tryEquations_of_unsat hcause]
          exact ih he fun j hj => hbefore (j + 1) (Nat.succ_lt_succ hj)

/-- Choosing is solving the first choice that has a solution. -/
theorem choose_firstChoice :
    ∀ {chosen : List Equation} {places : List Nat} {es : List Equation},
      (∀ c ∈ cs, c.Proper xs) → (∀ e ∈ chosen, e.Proper xs) →
      FirstChoice (fun es => ∃ σ, Solves scope (chosen ++ es) σ) cs places es →
      (choose scope settings mode cs chosen).outcome =
        (Clause.solveAll scope settings mode (chosen ++ es)).outcome := by
  induction cs with
  | nil =>
      intro chosen places es _ _ hfirst
      cases hfirst.choice
      rw [choose, List.append_nil]
  | cons c cs ih =>
      intro chosen places es hcs hchosen hfirst
      obtain ⟨hc, hcs'⟩ := List.forall_mem_cons.1 hcs
      have hcandidate : ∀ e ∈ c.equations, ∀ e' ∈ chosen ++ [e], e'.Proper xs := fun e he =>
        Equation.forall_proper_concat hchosen (hc e he)
      cases hfirst.choice with
      | @cons _ _ i places e es he hes =>
          have happend : ∀ e' es', chosen ++ [e'] ++ es' = chosen ++ e' :: es' := fun e' es' => by
            rw [List.append_assoc, List.singleton_append]
          have htail : FirstChoice (fun es => ∃ σ, Solves scope (chosen ++ [e] ++ es) σ)
              cs places es :=
            hfirst.tail.congr fun _ es' _ => by rw [happend]
          obtain ⟨σ, hσ⟩ := hfirst.holds
          rw [← happend] at hσ ⊢
          have hmem := hcandidate e (List.mem_of_getElem? he)
          have hright : (attempt scope settings (!cs.isEmpty) (choose scope settings mode cs)
              chosen e).outcome =
                (Clause.solveAll scope settings mode (chosen ++ [e] ++ es)).outcome := by
            rw [attempt_eq_deeper hd hbudget hmem ⟨σ, (solves_append.1 hσ).1⟩]
            exact ih hcs' hmem htail
          have hleft : ∀ j < i, ∀ e', c.equations[j]? = some e' → ∃ cause,
              (attempt scope settings (!cs.isEmpty) (choose scope settings mode cs) chosen
                e').outcome = .ok (.unsat cause) := by
            intro j hj e' he'
            refine attempt_unsat hd hbudget hcs' (hcandidate e' (List.mem_of_getElem? he')) ?_
            intro places' es' hchoice
            rw [happend]
            exact hfirst.not_before hj he' places' es' hchoice
          have hproper : ∀ e' ∈ chosen ++ [e] ++ es, e'.Proper xs :=
            List.forall_mem_append.2 ⟨hmem, hes.proper hcs'⟩
          have hsat : ∃ s, (Clause.solveAll scope settings mode (chosen ++ [e] ++ es)).outcome =
              .ok (.sat s) := Clause.solveAll_sat hd hproper hbudget ⟨σ, hσ⟩
          obtain ⟨s, hs⟩ := hsat
          rw [choose, tryEquations_at (hright.trans hs) he hleft, hs]

end Attempts

/-! ## The result -/

/-- Can a choice be met together with the conjunction of the formula? -/
def Meets (xs : List Variable) (f : Formula) (es : List Equation) : Prop :=
  (Clause.allOf (f.conjunction ++ es)).Satisfiable xs

theorem Proper.meets_iff (hf : f.Proper xs) (hd : scope.Declares xs)
    (hchoice : Choice f.disjunctions places es) :
    f.Meets xs es ↔ ∃ σ, Solves scope (f.conjunction ++ es) σ :=
  Clause.satisfiable_allOf_iff hd
    (List.forall_mem_append.2 ⟨hf.of_mem_conjunction, hchoice.proper hf.of_mem_disjunctions⟩)

/--
Without a budget, solving a formula is solving the conjunction together with the first
choice that can be met. If none can be met there is no solution: for the cause for which
the conjunction alone has none, or else because of the first disjunction. A formula
without disjunctions is solved as its conjunction.
-/
theorem solve_eq_first_choice {groups : List (List Variable)}
    (hscope : Scope.ofGroups groups = .ok scope) (hf : f.Proper groups.flatten)
    (hbudget : settings.budget = none) (mode : Mode) :
    ((∃ places es, Choice f.disjunctions places es ∧ f.Meets groups.flatten es) →
      ∃ places es, FirstChoice (f.Meets groups.flatten) f.disjunctions places es ∧
        (f.solve scope settings mode).outcome =
          ((Clause.allOf (f.conjunction ++ es)).solve scope settings mode).outcome) ∧
    ((∀ places es, Choice f.disjunctions places es → ¬f.Meets groups.flatten es) →
      ∀ c cs, f.disjunctions = c :: cs →
        (¬(Clause.allOf f.conjunction).Satisfiable groups.flatten → ∃ cause,
          ((Clause.allOf f.conjunction).solve scope settings .decide).outcome =
            .ok (.unsat cause) ∧
          (f.solve scope settings mode).outcome = .ok (.unsat cause)) ∧
        ((Clause.allOf f.conjunction).Satisfiable groups.flatten →
          (f.solve scope settings mode).outcome = .ok (.unsat (.clause c)))) ∧
    (f.disjunctions = [] → (f.solve scope settings mode).outcome =
      ((Clause.allOf f.conjunction).solve scope settings mode).outcome) := by
  have hd := Scope.declares_ofGroups hscope
  have hbase := hf.of_mem_conjunction
  rw [outcome_solve_eq hd hf, unconfirmed]
  refine ⟨?_, ?_, ?_⟩
  · intro hsome
    obtain ⟨places, es, hfirst⟩ := exists_firstChoice hsome
    have hsolves := hfirst.congr fun _ _ hchoice => hf.meets_iff hd hchoice
    obtain ⟨σ, hσ⟩ := hsolves.holds
    obtain ⟨s, hs⟩ := outlook_sat hd hbase hbudget ⟨σ, (solves_append.1 hσ).1⟩ _
    refine ⟨places, es, hfirst, ?_⟩
    rw [followUp_of_sat hs]
    exact choose_firstChoice hd hbudget hf.of_mem_disjunctions hbase hsolves
  · intro hnone c cs hcs
    have hdisjunctions := hf.of_mem_disjunctions
    have hnone' : ∀ places es, Choice f.disjunctions places es →
        ¬∃ σ, Solves scope (f.conjunction ++ es) σ := fun places es hchoice =>
      mt (hf.meets_iff hd hchoice).2 (hnone places es hchoice)
    rw [Clause.satisfiable_allOf_iff hd hbase]
    rw [hcs] at hdisjunctions hnone' ⊢
    refine ⟨fun hunsat => ?_, fun hsat => ?_⟩
    · have hrefuted : ∃ cause, (Clause.solveAll scope settings .decide f.conjunction).outcome =
          .ok (.unsat cause) := Clause.solveAll_unsat hd hbase hbudget hunsat
      obtain ⟨cause, hcause⟩ := hrefuted
      exact ⟨cause, hcause, followUp_of_unsat hcause⟩
    · obtain ⟨s, hs⟩ := outlook_sat hd hbase hbudget hsat _
      rw [followUp_of_sat hs]
      exact choose_unsat hd hbudget hdisjunctions hbase hnone'
  · intro hnil
    rw [hnil]
    rfl

theorem solve_eq_first_choice_bitChoice :
    ∃ places es,
      FirstChoice (bitChoice.Meets Clause.bits.flatten) bitChoice.disjunctions places es ∧
      (bitChoice.solve Clause.bitScope {} .witness).outcome =
        ((Clause.allOf (bitChoice.conjunction ++ es)).solve Clause.bitScope {}
          .witness).outcome := by
  have hd : Clause.bitScope.Declares Clause.bits.flatten := Scope.declares_ofGroups rfl
  have hchoice : Choice bitChoice.disjunctions [1] [.value "b" 1 true] := .cons rfl .nil
  have hproper : (Clause.allOf (bitChoice.conjunction ++ [.value "b" 1 true])).Proper
      Clause.bits.flatten :=
    List.forall_mem_append.2 ⟨proper_bitChoice.of_mem_conjunction,
      hchoice.proper proper_bitChoice.of_mem_disjunctions⟩
  have hsat : ((Clause.allOf (bitChoice.conjunction ++ [.value "b" 1 true])).solve
      Clause.bitScope {} .decide).outcome = .ok (.sat .empty) := by
    decide +kernel
  obtain ⟨s, hcovers, hholds⟩ := ((Clause.solve_returns hd hproper).of_eq_ok hsat).exists_covers
    (fun s => (Clause.allOf (bitChoice.conjunction ++ [.value "b" 1 true])).holds s = .ok true) hd
  exact (solve_eq_first_choice rfl proper_bitChoice rfl .witness).1
    ⟨[1], _, hchoice, s, hcovers.respects, hholds⟩

end Formula

end FiniteDomain
