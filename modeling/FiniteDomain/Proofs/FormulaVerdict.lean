import FiniteDomain.Proofs.ClauseVerdict
import FiniteDomain.Solve.Formula
import Mathlib

/-!
# Verdicts on formulas are right

A choice of equations is a conjunction, and the verdicts on conjunctions are right.
Looking ahead can only cut off choices that have no solution: every solution of a
longer choice is one of the shorter, so an answer about the shorter one that there is
none, or that there was no time to tell, stands for the longer one as well.

What is proved of the loop over one disjunction takes the rest of the choices as an
unknown `rest`, of which the recursive call is known to answer rightly.
-/

namespace FiniteDomain

namespace Formula

variable {settings : Settings} {mode : Mode} {scope : Scope} {xs : List Variable} {f : Formula}
  {c : Clause} {chosen es : List Equation}

/-- Looking ahead does not spoil an answer about what extends the choice. -/
theorem followUp_returns {goal : (Nat → Int) → Prop} {next : Unit → Traced Verdict}
    (hd : scope.Declares xs) (hes : ∀ e ∈ es, e.Proper xs) (ahead : Bool)
    (hgoal : ∀ σ, goal σ → Solves scope es σ)
    (hnext : Returns (next ()).outcome (Verdict.Answers settings mode scope.vars goal)) :
    Returns (followUp (outlook scope settings ahead es) next).outcome
      (Verdict.Answers settings mode scope.vars goal) := by
  cases ahead with
  | false => exact hnext
  | true =>
      rw [followUp, outlook]
      refine Traced.returns_bind (Clause.solveAll_returns hd hes) fun verdict hverdict => ?_
      cases verdict with
      | sat s => exact hnext
      | unsat cause => exact Traced.returns_pure fun σ hσ => hverdict σ (hgoal σ hσ)
      | unknown pairs => exact Traced.returns_pure hverdict

/-- The loop over a disjunction answers for the equations it has still to try. -/
theorem tryEquations_returns (hd : scope.Declares xs) {rest : (Nat → Int) → Prop} {ahead : Bool}
    {deeper : List Equation → Traced Verdict} (hchosen : ∀ e ∈ chosen, e.Proper xs) :
    ∀ {es : List Equation} {undecided : Option (List (String × String))},
      (∀ e ∈ es, e.Proper xs) → (undecided ≠ none → settings.budget ≠ none) →
      (∀ e ∈ es, Returns (deeper (chosen ++ [e])).outcome
        (Verdict.Answers settings mode scope.vars fun σ =>
          Solves scope (chosen ++ [e]) σ ∧ rest σ)) →
      Returns (tryEquations scope settings ahead deeper c chosen es undecided).outcome
        (Verdict.AnswersAfter settings mode scope.vars undecided fun σ =>
          Solves scope chosen σ ∧ (∃ e ∈ es, e.holds (.ofValues scope.vars σ) = .ok true) ∧
            rest σ) := by
  intro es
  induction es with
  | nil =>
      intro undecided _ hopen _
      cases undecided with
      | none =>
          refine Verdict.AnswersAfter.of_none fun σ hσ => ?_
          obtain ⟨-, ⟨e, he, -⟩, -⟩ := hσ
          cases he
      | some pairs => exact Verdict.AnswersAfter.of_open (hopen (Option.some_ne_none pairs))
  | cons e es ih =>
      intro undecided hes hopen hdeeper
      have he : e ∈ e :: es := List.mem_cons_self
      have hes' : ∀ e ∈ es, e.Proper xs := fun e he => hes e (List.mem_cons_of_mem _ he)
      have hdeeper' := fun e' he' => hdeeper e' (List.mem_cons_of_mem e he')
      have hcandidate : ∀ σ, Solves scope (chosen ++ [e]) σ ↔
          Solves scope chosen σ ∧ e.holds (.ofValues scope.vars σ) = .ok true := by
        intro σ
        rw [Solves, Solves, List.forall_mem_append, List.forall_mem_singleton, and_assoc]
      rw [tryEquations]
      refine Traced.returns_note (Traced.returns_bind (followUp_returns hd ?_ ahead
        (fun σ hσ => hσ.1) (hdeeper e he)) fun verdict hverdict => ?_)
      · exact Equation.forall_proper_concat hchosen (hes e he)
      · cases verdict with
        | sat s =>
            obtain ⟨σ, ⟨hsolves, hrest⟩, hs⟩ := hverdict
            obtain ⟨hsolves, hholds⟩ := (hcandidate σ).1 hsolves
            exact Verdict.AnswersAfter.of_sat ⟨σ, ⟨hsolves, ⟨e, he, hholds⟩, hrest⟩, hs⟩
        | unsat cause =>
            refine (ih hes' hopen hdeeper').mono fun verdict h => h.refuted fun σ => ?_
            refine and_congr_right fun hsolves => and_congr_left fun hrest => ?_
            rw [List.exists_mem_cons_iff]
            refine (or_iff_right fun hholds => ?_).symm
            exact hverdict σ ⟨(hcandidate σ).2 ⟨hsolves, hholds⟩, hrest⟩
        | unknown pairs =>
            refine (ih hes' (fun _ => hverdict) hdeeper').mono fun verdict h =>
              h.left_open fun σ hσ => ?_
            obtain ⟨hsolves, ⟨e', he', hholds⟩, hrest⟩ := hσ
            exact ⟨hsolves, ⟨e', List.mem_cons_of_mem _ he', hholds⟩, hrest⟩

/-- Choosing answers for what was chosen together with the clauses still to choose from. -/
theorem choose_returns (hd : scope.Declares xs) {cs : List Clause} :
    ∀ {chosen : List Equation}, (∀ c ∈ cs, c.Proper xs) → (∀ e ∈ chosen, e.Proper xs) →
      Returns (choose scope settings mode cs chosen).outcome
        (Verdict.Answers settings mode scope.vars fun σ => Solves scope chosen σ ∧
          ∀ c ∈ cs, ∃ e ∈ c.equations, e.holds (.ofValues scope.vars σ) = .ok true) := by
  induction cs with
  | nil =>
      intro chosen _ hchosen
      refine (Clause.solveAll_returns hd hchosen).mono fun verdict h => h.congr fun σ => ?_
      simp
  | cons c cs ih =>
      intro chosen hcs hchosen
      have hc : c.Proper xs := hcs c List.mem_cons_self
      have hcs' : ∀ c ∈ cs, c.Proper xs := fun c hc => hcs c (List.mem_cons_of_mem _ hc)
      have hdecided : (none : Option (List (String × String))) ≠ none → settings.budget ≠ none :=
        fun hne => absurd rfl hne
      rw [choose]
      refine (tryEquations_returns hd hchosen hc hdecided fun e he => ih hcs' ?_).mono
        fun verdict h => h.1.congr fun σ => ?_
      · exact Equation.forall_proper_concat hchosen (hc e he)
      · rw [List.forall_mem_cons]

theorem confirm_eq_ok {verdict : Verdict} {goal : (Nat → Int) → Prop}
    (h : verdict.Answers settings mode scope.vars goal)
    (hgoal : ∀ σ, goal σ → f.holds (.ofValues scope.vars σ) = .ok true) :
    f.confirm settings mode verdict = .ok () := by
  cases verdict with
  | sat s =>
      cases mode with
      | decide => rfl
      | witness =>
          obtain ⟨σ, hσ, rfl⟩ := h
          simp only [confirm, Mode.report, hgoal σ hσ]
          split <;> rfl
  | unsat cause => cases mode <;> rfl
  | unknown pairs => cases mode <;> rfl

theorem Proper.of_mem_conjunction (hf : f.Proper xs) : ∀ e ∈ f.conjunction, e.Proper xs := by
  intro e he
  obtain ⟨c, hc, he⟩ := List.mem_flatMap.1 he
  exact hf c (List.mem_filter.1 hc).1 e he

theorem Proper.of_mem_disjunctions (hf : f.Proper xs) : ∀ c ∈ f.disjunctions, c.Proper xs :=
  fun c hc => hf c (List.mem_filter.1 hc).1

/-- A formula holds if its conjunction does and an equation of each disjunction. -/
theorem Proper.holds_iff {s : Assignment} (hf : f.Proper xs) (hs : s.Respects xs) :
    f.holds s = .ok true ↔ (∀ e ∈ f.conjunction, e.holds s = .ok true) ∧
      ∀ c ∈ f.disjunctions, ∃ e ∈ c.equations, e.holds s = .ok true := by
  rw [holds, allHold_iff]
  simp only [conjunction, disjunctions, List.mem_flatMap, List.mem_filter]
  refine ⟨?_, ?_⟩
  · intro h
    refine ⟨?_, ?_⟩
    · intro e hmem
      obtain ⟨c, ⟨hc, hall⟩, he⟩ := hmem
      rw [Clause.isAll, beq_iff_eq] at hall
      exact (Clause.holds_iff_of_all hall).1 (h c hc) e he
    · intro c hmem
      obtain ⟨hc, hany⟩ := hmem
      have hconn : c.connective = .any := by
        cases hconn : c.connective with
        | all => simp [Clause.isAll, hconn] at hany
        | any => rfl
      exact ((hf c hc).holds_iff_of_any hs hconn).1 (h c hc)
  · intro h c hc
    obtain ⟨hall, hany⟩ := h
    cases hconn : c.connective with
    | all =>
        refine (Clause.holds_iff_of_all hconn).2 fun e he => hall e ⟨c, ⟨hc, ?_⟩, he⟩
        simp [Clause.isAll, hconn]
    | any =>
        refine ((hf c hc).holds_iff_of_any hs hconn).2 (hany c ⟨hc, ?_⟩)
        simp [Clause.isAll, hconn]

/-- The verdict on a proper formula is right, and there always is one. -/
theorem solve_returns (hd : scope.Declares xs) (hf : f.Proper xs) :
    Returns (f.solve scope settings mode).outcome
      (Verdict.Answers settings mode scope.vars fun σ =>
        scope.Takes σ ∧ f.holds (.ofValues scope.vars σ) = .ok true) := by
  have hiff : ∀ σ, (Solves scope f.conjunction σ ∧ ∀ c ∈ f.disjunctions, ∃ e ∈ c.equations,
      e.holds (.ofValues scope.vars σ) = .ok true) ↔
        scope.Takes σ ∧ f.holds (.ofValues scope.vars σ) = .ok true := by
    intro σ
    rw [Solves, and_assoc]
    exact and_congr_right fun htakes => (hf.holds_iff (hd.covers_ofValues htakes).respects).symm
  rw [solve]
  refine Traced.returns_note (followUp_returns hd hf.of_mem_conjunction _ (fun σ hσ => ?_) ?_)
  · exact ((hiff σ).2 hσ).1
  · refine Traced.returns_bind (choose_returns hd hf.of_mem_disjunctions hf.of_mem_conjunction)
      fun verdict h => ?_
    have hverdict := h.congr hiff
    exact Traced.returns_check (confirm_eq_ok hverdict fun σ hσ => hσ.2)
      (Traced.returns_pure hverdict)

/--
A witness is a solution and a refutation is right, whatever the budget. Without a
budget there is always an answer, and it says that there is a solution exactly when
there is one.
-/
theorem solve_correct {groups : List (List Variable)} (hscope : Scope.ofGroups groups = .ok scope)
    (hf : f.Proper groups.flatten) (settings : Settings) (mode : Mode) :
    (∀ s, (f.solve scope settings .witness).outcome = .ok (.sat s) →
      s.Covers groups.flatten ∧ f.holds s = .ok true) ∧
    (∀ cause, (f.solve scope settings mode).outcome = .ok (.unsat cause) →
      ∀ s : Assignment, s.Respects groups.flatten → f.holds s ≠ .ok true) ∧
    (settings.budget = none → ∃ verdict, (f.solve scope settings mode).outcome = .ok verdict ∧
      verdict.status ≠ .unknown ∧
      (verdict.status = .sat ↔
        ∃ s : Assignment, s.Respects groups.flatten ∧ f.holds s = .ok true)) := by
  have hd := Scope.declares_ofGroups hscope
  have hcongr : ∀ s t : Assignment, (∀ name ∈ groups.flatten.map Variable.name,
      s.get? name = t.get? name) → (f.holds s = .ok true ↔ f.holds t = .ok true) :=
    fun s t h => by rw [hf.holds_congr h]
  refine ⟨?_, ?_, ?_⟩
  · intro s hs
    exact ((solve_returns hd hf).of_eq_ok hs).covers (fun s => f.holds s = .ok true) hd
  · intro cause hcause s hs
    exact ((solve_returns hd hf).of_eq_ok hcause).not_holds _ hd hcongr hs
  · intro hbudget
    have hreturns : Returns (f.solve scope settings mode).outcome _ := solve_returns hd hf
    obtain ⟨verdict, houtcome, hverdict⟩ := hreturns
    exact ⟨verdict, houtcome, hverdict.status_iff _ hd hcongr hbudget⟩

/-- A disjunction whose first equation contradicts the clause before it. -/
def bitChoice : Formula :=
  ⟨[Clause.bitPath, .anyOf [.pair "a" "c" false, .value "b" 1 true]]⟩

theorem proper_bitChoice : bitChoice.Proper Clause.bits.flatten := by
  refine List.forall_mem_cons.2 ⟨Clause.proper_bitPath, List.forall_mem_singleton.2 ?_⟩
  refine List.forall_mem_cons.2 ⟨?_, List.forall_mem_singleton.2 ?_⟩
  · exact Equation.proper_pair (by decide) (by decide) (by decide)
  · exact Equation.proper_value (by decide) 1 true

theorem solve_bitChoice :
    ∃ s, (bitChoice.solve Clause.bitScope {} .witness).outcome = .ok (.sat s) ∧
    s.Covers Clause.bits.flatten ∧ bitChoice.holds s = .ok true ∧
    ∃ verdict, (bitChoice.solve Clause.bitScope {} .witness).outcome = .ok verdict ∧
      (verdict.status = .sat ↔
        ∃ s : Assignment, s.Respects Clause.bits.flatten ∧ bitChoice.holds s = .ok true) := by
  have hsat : (bitChoice.solve Clause.bitScope {} .witness).outcome =
      .ok (.sat (.ofValues Clause.bitScope.vars fun i => if i = 1 then 1 else 0)) := by
    decide +kernel
  obtain ⟨hwitness, -, hstatus⟩ := solve_correct rfl proper_bitChoice {} .witness
  obtain ⟨verdict, houtcome, -, hiff⟩ := hstatus rfl
  obtain ⟨hcovers, hholds⟩ := hwitness _ hsat
  exact ⟨_, hsat, hcovers, hholds, verdict, houtcome, hiff⟩

end Formula

end FiniteDomain
