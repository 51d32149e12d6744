import FiniteDomain.Proofs.ImposeExact
import FiniteDomain.Proofs.SearchVerdict
import Mathlib

/-!
# Verdicts on clauses are right

The phases fit together: imposing the equations leaves a network whose models are
the solutions, merging keeps its models, and the search answers for what was merged.
A disjunction adds a loop over its equations, and an answer that was left open is
remembered across it. Since every answer is right, confirming a witness never refuses
one, and it makes no difference whether witnesses are confirmed.

The results are stated for a caller, who knows declarations and assignments but no
network. Solutions are quantified over all assignments that respect the declarations,
whatever else they give values to.
-/

namespace FiniteDomain

/-! ## Answers seen from outside -/

namespace Verdict.Answers

variable {settings : Settings} {mode : Mode} {scope : Scope} {xs : List Variable}
  {verdict : Verdict} {s : Assignment} {cause : Conflict}

section

variable (holds : Assignment → Prop) (hd : scope.Declares xs)

include hd

theorem covers (h : (Verdict.sat s).Answers settings .witness scope.vars fun σ =>
    scope.Takes σ ∧ holds (.ofValues scope.vars σ)) : s.Covers xs ∧ holds s := by
  obtain ⟨σ, hσ, rfl⟩ := h
  exact ⟨hd.covers_ofValues hσ.1, hσ.2⟩

theorem exists_covers (h : (Verdict.sat s).Answers settings mode scope.vars fun σ =>
    scope.Takes σ ∧ holds (.ofValues scope.vars σ)) : ∃ t : Assignment, t.Covers xs ∧ holds t := by
  obtain ⟨σ, hσ, -⟩ := h
  exact ⟨_, hd.covers_ofValues hσ.1, hσ.2⟩

variable (hcongr : ∀ s t : Assignment,
  (∀ name ∈ xs.map Variable.name, s.get? name = t.get? name) → (holds s ↔ holds t))

include hcongr

theorem not_holds (h : (Verdict.unsat cause).Answers settings mode scope.vars fun σ =>
    scope.Takes σ ∧ holds (.ofValues scope.vars σ)) (hs : s.Respects xs) : ¬holds s := by
  intro hholds
  obtain ⟨σ, htakes, hvalues⟩ := hd.exists_ofValues hs
  exact h σ ⟨htakes, (hcongr _ _ hvalues).1 hholds⟩

/-- Without a budget the verdict settles the question. -/
theorem status_iff (h : verdict.Answers settings mode scope.vars fun σ =>
    scope.Takes σ ∧ holds (.ofValues scope.vars σ)) (hbudget : settings.budget = none) :
    verdict.status ≠ .unknown ∧
      (verdict.status = .sat ↔ ∃ s : Assignment, s.Respects xs ∧ holds s) := by
  cases verdict with
  | sat s =>
      obtain ⟨t, ht, hholds⟩ := h.exists_covers holds hd
      refine ⟨by simp [status], fun _ => ⟨t, ht.respects, hholds⟩, fun _ => rfl⟩
  | unsat cause =>
      refine ⟨by simp [status], fun hsat => absurd hsat (by simp [status]), fun hsome => ?_⟩
      obtain ⟨s, hs, hholds⟩ := hsome
      exact absurd hholds (h.not_holds _ hd hcongr hs)
  | unknown pairs => exact absurd hbudget h

end

end Verdict.Answers

variable {settings : Settings} {mode : Mode} {scope : Scope} {xs : List Variable}

/-! ## Loops over candidates -/

/-- What a loop over candidates answers. Once a candidate was left open, it does not say that
there is no solution. -/
def Verdict.AnswersAfter (settings : Settings) (mode : Mode) (vars : Array Variable)
    (undecided : Option (List (String × String))) (goal : (Nat → Int) → Prop)
    (verdict : Verdict) : Prop :=
  verdict.Answers settings mode vars goal ∧ (undecided ≠ none → verdict.status ≠ .unsat)

namespace Verdict.AnswersAfter

variable {vars : Array Variable} {undecided : Option (List (String × String))}
  {goal goal' : (Nat → Int) → Prop} {verdict : Verdict} {cause : Conflict}

/-- No candidate is left, and every one was refuted. -/
theorem of_none (hnone : ∀ σ, ¬goal σ) :
    Returns (refute cause).outcome (Verdict.AnswersAfter settings mode vars none goal) :=
  (refute_returns hnone).mono fun _ h => ⟨h, fun hne => absurd rfl hne⟩

/-- No candidate is left, and one was left open. -/
theorem of_open {pairs : List (String × String)} (hopen : settings.budget ≠ none) :
    Returns (pure (Verdict.unknown pairs) : Traced Verdict).outcome
      (Verdict.AnswersAfter settings mode vars undecided goal) :=
  Traced.returns_pure ⟨hopen, fun _ => by simp [status]⟩

/-- A candidate has a solution. -/
theorem of_sat {s : Assignment} (h : ∃ σ, goal σ ∧ s = mode.report vars σ) :
    Returns (pure (Verdict.sat s) : Traced Verdict).outcome
      (Verdict.AnswersAfter settings mode vars undecided goal) :=
  Traced.returns_pure ⟨h, fun _ => by simp [status]⟩

/-- The candidate before was refuted. -/
theorem refuted (h : verdict.AnswersAfter settings mode vars undecided goal')
    (hiff : ∀ σ, goal' σ ↔ goal σ) : verdict.AnswersAfter settings mode vars undecided goal :=
  ⟨h.1.congr hiff, h.2⟩

/-- The candidate before was left open. -/
theorem left_open {pairs : List (String × String)}
    (h : verdict.AnswersAfter settings mode vars (undecided <|> some pairs) goal')
    (himp : ∀ σ, goal' σ → goal σ) : verdict.AnswersAfter settings mode vars undecided goal := by
  have hnot : verdict.status ≠ .unsat := h.2 (by cases undecided <;> simp)
  refine ⟨?_, fun _ => hnot⟩
  cases verdict with
  | sat s =>
      obtain ⟨σ, hσ, hs⟩ := h.1
      exact ⟨σ, himp σ hσ, hs⟩
  | unsat cause => exact absurd rfl hnot
  | unknown pairs => exact h.1

end Verdict.AnswersAfter

/-- The values that `σ` gives are allowed and satisfy the equations. -/
def Solves (scope : Scope) (es : List Equation) (σ : Nat → Int) : Prop :=
  scope.Takes σ ∧ ∀ e ∈ es, e.holds (.ofValues scope.vars σ) = .ok true

/-! ## Networks -/

/-- Posing proper equations is never refused. If no variable runs out of values, the models of
the network are the solutions of the equations. -/
theorem Network.pose_returns {es : List Equation} (hd : scope.Declares xs)
    (hes : ∀ e ∈ es, e.Proper xs) :
    Returns (Network.imposeAll scope es (.ofVariables scope.vars)) fun phase =>
      (phase.andThen Network.check).Ends
        (fun net => Network.Posed scope net ∧ net.AllViable ∧ ∀ σ, net.Model σ ↔ Solves scope es σ)
        (fun _ => ∀ σ, ¬Solves scope es σ) := by
  have hsolves : ∀ σ, Solves scope es σ ↔ (Network.ofVariables scope.vars).Model σ ∧
      ∀ e ∈ es, e.holds (.ofValues scope.vars σ) = .ok true := by
    intro σ
    rw [Network.model_ofVariables, Solves]
  refine (Network.imposeAll_returns hd hes (Network.posed_ofVariables scope)).mono ?_
  intro phase hends
  cases phase with
  | stuck net cause => exact fun σ hσ => hends σ ((hsolves σ).1 hσ)
  | passed net =>
      obtain ⟨hposed, hmodel⟩ := hends
      refine (Network.check_ends hposed.sound).mono ?_ ?_
      · intro net' h
        obtain ⟨rfl, hviable⟩ := h
        exact ⟨hposed, hviable, fun σ => by rw [hmodel, hsolves]⟩
      · intro cause hempty σ hσ
        have hm := (hmodel σ).2 ((hsolves σ).1 hσ)
        exact hempty fun i hi => ⟨σ i, hm.mem i hi⟩

/-- What collapsing leaves can be searched. -/
theorem Network.Collapsed.searchable {net mid : Network} (hc : Network.Collapsed net mid)
    (h : Network.Posed scope net) (hv : net.AllViable) (hnames : DistinctNames scope.vars) :
    mid.Searchable where
  sound := hc.sound
  merged := hc.merged
  leadersFit := hc.leadersFit
  viable := hc.viable hv
  distinctNames := by rwa [hc.vars_eq, h.vars_eq]

theorem Network.solve_returns {net : Network} (h : Network.Posed scope net) (hv : net.AllViable)
    (hnames : DistinctNames scope.vars) :
    Returns (net.solve settings mode).outcome
      (Verdict.Answers settings mode scope.vars net.Model) := by
  rw [Network.solve]
  refine Traced.returns_note (Traced.returns_bind (collapse_returns h.sound h.leader_eq) ?_)
  intro phase hends
  cases phase with
  | stuck mid cause => exact refute_returns fun σ => hends.no_model h.sound
  | passed mid =>
      have hsearchable := hends.searchable h hv hnames
      refine Traced.returns_note (Traced.returns_bind
        (search_returns hsearchable (Or.inl (Nat.lt_succ_self _))) fun r hr => ?_)
      obtain ⟨verdict, tried⟩ := r
      refine Traced.returns_note (Traced.returns_pure ?_)
      rw [hends.vars_eq, h.vars_eq] at hr
      exact hr.congr fun σ => hends.solved_iff h.sound

namespace Clause

variable {c : Clause} {e : Equation} {es : List Equation} {goal : (Nat → Int) → Prop}

/-! ## Clauses -/

/-- A right witness is not refused. -/
theorem confirm_eq_ok {verdict : Verdict} (h : verdict.Answers settings mode scope.vars goal)
    (hgoal : ∀ σ, goal σ → c.holds (.ofValues scope.vars σ) = .ok true) :
    c.confirm settings mode verdict = .ok () := by
  cases verdict with
  | sat s =>
      cases mode with
      | decide => rfl
      | witness =>
          obtain ⟨σ, hσ, rfl⟩ := h
          simp only [confirm, Mode.report, hgoal σ hσ]
          split <;> rfl
  | unsat cause => cases mode <;> rfl
  | unknown pairs => cases mode <;> rfl

theorem framed_returns {body : Traced Verdict}
    (h : Returns body.outcome (Verdict.Answers settings mode scope.vars goal))
    (hgoal : ∀ σ, goal σ → c.holds (.ofValues scope.vars σ) = .ok true) :
    Returns (c.framed scope settings mode body).outcome
      (Verdict.Answers settings mode scope.vars goal) := by
  rw [framed]
  refine Traced.returns_note (Traced.returns_bind h fun verdict hverdict => ?_)
  exact Traced.returns_check (confirm_eq_ok hverdict hgoal) (Traced.returns_pure hverdict)

theorem solveEquations_returns (hd : scope.Declares xs) (hes : ∀ e ∈ es, e.Proper xs) :
    Returns (solveEquations scope settings mode es).outcome
      (Verdict.Answers settings mode scope.vars (Solves scope es)) := by
  rw [solveEquations]
  refine Traced.returns_bind (Network.pose_returns hd hes) fun phase hchecked => ?_
  generalize phase.andThen Network.check = checked at hchecked
  cases checked with
  | stuck net cause => exact refute_returns hchecked
  | passed net =>
      obtain ⟨hposed, hviable, hmodel⟩ := hchecked
      exact (Network.solve_returns hposed hviable hd.distinctNames).mono fun verdict h =>
        h.congr hmodel

theorem solveAll_returns (hd : scope.Declares xs) (hes : ∀ e ∈ es, e.Proper xs) :
    Returns (solveAll scope settings mode es).outcome
      (Verdict.Answers settings mode scope.vars (Solves scope es)) :=
  framed_returns (solveEquations_returns hd hes) fun _ hσ => allHold_iff.2 hσ.2

/-- The loop over the equations of a disjunction answers for those it has still to try. -/
theorem solveVariants_returns (hd : scope.Declares xs) :
    ∀ {es : List Equation} {undecided : Option (List (String × String))},
      (∀ e ∈ es, e.Proper xs) → (undecided ≠ none → settings.budget ≠ none) →
      Returns (solveVariants scope settings mode c es undecided).outcome
        (Verdict.AnswersAfter settings mode scope.vars undecided fun σ =>
          scope.Takes σ ∧ ∃ e ∈ es, e.holds (.ofValues scope.vars σ) = .ok true) := by
  intro es
  induction es with
  | nil =>
      intro undecided _ hopen
      cases undecided with
      | none =>
          refine Verdict.AnswersAfter.of_none fun σ hσ => ?_
          obtain ⟨-, e, he, -⟩ := hσ
          cases he
      | some pairs => exact Verdict.AnswersAfter.of_open (hopen (Option.some_ne_none pairs))
  | cons e es ih =>
      intro undecided hes hopen
      have hes' : ∀ e ∈ es, e.Proper xs := fun e he => hes e (List.mem_cons_of_mem _ he)
      have he : ∀ e' ∈ [e], e'.Proper xs := List.forall_mem_singleton.2 (hes e List.mem_cons_self)
      rw [solveVariants]
      refine Traced.returns_bind (solveAll_returns hd he) fun verdict hverdict => ?_
      cases verdict with
      | sat s =>
          obtain ⟨σ, hσ, hs⟩ := hverdict
          exact Verdict.AnswersAfter.of_sat
            ⟨σ, ⟨hσ.1, e, List.mem_cons_self, hσ.2 e (List.mem_singleton.2 rfl)⟩, hs⟩
      | unknown pairs =>
          refine Traced.returns_note ((ih hes' fun _ => hverdict).mono fun verdict h => ?_)
          refine h.left_open fun σ hσ => ?_
          obtain ⟨htakes, e', he', hholds⟩ := hσ
          exact ⟨htakes, e', List.mem_cons_of_mem _ he', hholds⟩
      | unsat cause =>
          refine Traced.returns_note ((ih hes' hopen).mono fun verdict h => h.refuted fun σ => ?_)
          refine and_congr_right fun htakes => ?_
          rw [List.exists_mem_cons_iff]
          refine (or_iff_right fun he => ?_).symm
          exact hverdict σ ⟨htakes, List.forall_mem_singleton.2 he⟩

/-- The verdict on a proper clause is right, and there always is one. -/
theorem solve_returns (hd : scope.Declares xs) (hc : c.Proper xs) :
    Returns (c.solve scope settings mode).outcome
      (Verdict.Answers settings mode scope.vars fun σ =>
        scope.Takes σ ∧ c.holds (.ofValues scope.vars σ) = .ok true) := by
  rw [solve]
  cases hconn : c.connective with
  | all =>
      refine (solveAll_returns hd hc).mono fun verdict h => h.congr fun σ => ?_
      exact and_congr_right fun _ => (holds_iff_of_all hconn).symm
  | any =>
      have hdecided : (none : Option (List (String × String))) ≠ none → settings.budget ≠ none :=
        fun hne => absurd rfl hne
      refine framed_returns ?_ fun σ hσ => hσ.2
      refine (solveVariants_returns hd hc hdecided).mono fun verdict h => h.1.congr fun σ => ?_
      exact and_congr_right fun htakes =>
        (hc.holds_iff_of_any (hd.covers_ofValues htakes).respects hconn).symm

/-! ## The results -/

section

variable {groups : List (List Variable)}

/--
A witness is a solution: it covers the declarations and the clause holds under it. If
no witness was asked for and the verdict is that there is a solution, there is one.
-/
theorem sat_sound (hscope : Scope.ofGroups groups = .ok scope) (hc : c.Proper groups.flatten)
    (settings : Settings) :
    (∀ s, (c.solve scope settings .witness).outcome = .ok (.sat s) →
      s.Covers groups.flatten ∧ c.holds s = .ok true) ∧
    ∀ s, (c.solve scope settings .decide).outcome = .ok (.sat s) →
      ∃ t : Assignment, t.Covers groups.flatten ∧ c.holds t = .ok true := by
  have hd := Scope.declares_ofGroups hscope
  refine ⟨?_, ?_⟩
  · intro s hs
    exact ((solve_returns hd hc).of_eq_ok hs).covers (fun s => c.holds s = .ok true) hd
  · intro s hs
    exact ((solve_returns hd hc).of_eq_ok hs).exists_covers (fun s => c.holds s = .ok true) hd

/-- Three variables of one bit, one of which is declared in both groups. -/
def bits : List (List Variable) :=
  [[.ofWidth "a" 1 (by decide), .ofWidth "b" 1 (by decide)],
    [.ofWidth "b" 1 (by decide), .ofWidth "c" 1 (by decide)]]

def bitScope : Scope :=
  ⟨#[.ofWidth "a" 1 (by decide), .ofWidth "b" 1 (by decide), .ofWidth "c" 1 (by decide)]⟩

/-- Two inequalities that are met by giving the variable in the middle the other value. -/
def bitPath : Clause := allOf [.pair "a" "b" false, .pair "b" "c" false]

theorem proper_bitPath : bitPath.Proper bits.flatten := by
  refine List.forall_mem_cons.2 ⟨?_, List.forall_mem_singleton.2 ?_⟩
  · exact Equation.proper_pair (by decide) (by decide) (by decide)
  · exact Equation.proper_pair (by decide) (by decide) (by decide)

theorem sat_bitPath : ∃ s, (bitPath.solve bitScope {} .witness).outcome = .ok (.sat s) ∧
    s.Covers bits.flatten ∧ bitPath.holds s = .ok true := by
  have hsat : (bitPath.solve bitScope {} .witness).outcome =
      .ok (.sat (.ofValues bitScope.vars fun i => if i = 1 then 0 else 1)) := by decide +kernel
  exact ⟨_, hsat, (sat_sound rfl proper_bitPath {}).1 _ hsat⟩

/--
A refutation is right, whatever is asked and under every budget: the clause holds
under no assignment that respects the declarations. Without a budget there is always
an answer, and it says that there is a solution exactly when there is one.
-/
theorem unsat_complete (hscope : Scope.ofGroups groups = .ok scope) (hc : c.Proper groups.flatten)
    (settings : Settings) (mode : Mode) :
    (∀ cause, (c.solve scope settings mode).outcome = .ok (.unsat cause) →
      ∀ s : Assignment, s.Respects groups.flatten → c.holds s ≠ .ok true) ∧
    (settings.budget = none → ∃ verdict, (c.solve scope settings mode).outcome = .ok verdict ∧
      verdict.status ≠ .unknown ∧
      (verdict.status = .sat ↔
        ∃ s : Assignment, s.Respects groups.flatten ∧ c.holds s = .ok true)) := by
  have hd := Scope.declares_ofGroups hscope
  have hcongr : ∀ s t : Assignment, (∀ name ∈ groups.flatten.map Variable.name,
      s.get? name = t.get? name) → (c.holds s = .ok true ↔ c.holds t = .ok true) :=
    fun s t h => by rw [hc.holds_congr h]
  refine ⟨?_, ?_⟩
  · intro cause hcause s hs
    exact ((solve_returns hd hc).of_eq_ok hcause).not_holds _ hd hcongr hs
  · intro hbudget
    have hreturns : Returns (c.solve scope settings mode).outcome _ := solve_returns hd hc
    obtain ⟨verdict, houtcome, hverdict⟩ := hreturns
    exact ⟨verdict, houtcome, hverdict.status_iff _ hd hcongr hbudget⟩

/-- Three inequalities among three variables of one bit, of which one must fail. -/
def bitTriangle : Clause := allOf (bitPath.equations ++ [.pair "c" "a" false])

theorem proper_bitTriangle : bitTriangle.Proper bits.flatten := by
  refine List.forall_mem_append.2 ⟨proper_bitPath, List.forall_mem_singleton.2 ?_⟩
  exact Equation.proper_pair (by decide) (by decide) (by decide)

theorem unsat_bitTriangle :
    (∃ cause, (bitTriangle.solve bitScope {} .decide).outcome = .ok (.unsat cause)) ∧
      (∀ s : Assignment, s.Respects bits.flatten → bitTriangle.holds s ≠ .ok true) ∧
      ∃ verdict, (bitTriangle.solve bitScope {} .decide).outcome = .ok verdict ∧
        verdict.status ≠ .unknown := by
  have hunsat : (bitTriangle.solve bitScope {} .decide).outcome = .ok (.unsat
      (.inequalities [("a", "b"), ("a", "c"), ("b", "c")])) := by decide +kernel
  obtain ⟨hnone, hstatus⟩ := unsat_complete rfl proper_bitTriangle {} .decide
  obtain ⟨verdict, houtcome, hknown, -⟩ := hstatus rfl
  exact ⟨⟨_, hunsat⟩, hnone _ hunsat, verdict, houtcome, hknown⟩

end

end Clause

end FiniteDomain
