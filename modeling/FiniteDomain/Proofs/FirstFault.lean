import FiniteDomain.Proofs.InsertedVariables
import Mathlib

/-!
# When a clause is refused, and for which equation

An equation over an undeclared name, or one that asks a variable to differ from itself, is refused
when it is come to. It need not be come to. A conjunction stops at the first equation that takes the
last value from a variable, and a disjunction at the first that has a solution of its own; what
comes after that is never looked at. Everything else is answered, so these are the only refusals.

A run is split at the first malformed equation. Up to there everything is proper, and the part of
the run in front of it is described by lemmas that leave open what follows: a conjunction goes on
with the network of the equations so far, or is stuck already whatever comes next, and a
disjunction is through with all of them, or has its answer.
-/

namespace FiniteDomain

variable {settings : Settings} {mode : Mode} {scope : Scope} {xs : List Variable}
  {e : Equation} {es done rest : List Equation} {fault : Fault}

namespace Equation

/-! ## Malformed equations -/

/-- Is the equation refused with this fault? The names are looked up from left to right before they
are compared. -/
inductive Malformed (xs : List Variable) : Equation → Fault → Prop where
  | left {e : Equation} (hleft : e.left ∉ xs.map Variable.name) :
      Malformed xs e (.undeclared e.left)
  | right {left right : String} {equal : Bool} (hleft : left ∈ xs.map Variable.name)
      (hright : right ∉ xs.map Variable.name) :
      Malformed xs (.pair left right equal) (.undeclared right)
  | reflexive {name : String} (hname : name ∈ xs.map Variable.name) :
      Malformed xs (.pair name name false) (.selfInequality name)

/-- There is nothing else that an equation is refused for. -/
theorem proper_or_malformed (xs : List Variable) (e : Equation) :
    e.Proper xs ∨ ∃ fault, e.Malformed xs fault := by
  by_cases hleft : e.left ∈ xs.map Variable.name
  · cases e with
    | value name v equal => exact Or.inl (proper_value hleft v equal)
    | pair left right equal =>
        by_cases hright : right ∈ xs.map Variable.name
        · by_cases hself : left = right → equal = true
          · exact Or.inl (proper_pair hleft hright hself)
          · obtain ⟨rfl, hequal⟩ := Classical.not_imp.1 hself
            rw [Bool.not_eq_true] at hequal
            subst hequal
            exact Or.inr ⟨_, .reflexive hleft⟩
        · exact Or.inr ⟨_, .right hleft hright⟩
  · exact Or.inr ⟨_, .left hleft⟩

/-- Are these the proper equations in front of the first malformed one, and is that refused with
this fault? -/
def FirstFault (xs : List Variable) (es done : List Equation) (fault : Fault) : Prop :=
  (∀ e ∈ done, e.Proper xs) ∧ ∃ e rest, es = done ++ e :: rest ∧ e.Malformed xs fault

theorem forall_proper_or_firstFault (xs : List Variable) (es : List Equation) :
    (∀ e ∈ es, e.Proper xs) ∨ ∃ done fault, FirstFault xs es done fault := by
  induction es with
  | nil => exact Or.inl (List.forall_mem_nil _)
  | cons e es ih =>
      rcases proper_or_malformed xs e with he | ⟨fault, hfault⟩
      · rcases ih with hes | ⟨done, fault, hdone, e', rest, rfl, hfault⟩
        · exact Or.inl (List.forall_mem_cons.2 ⟨he, hes⟩)
        · exact Or.inr ⟨e :: done, fault, List.forall_mem_cons.2 ⟨he, hdone⟩, e', rest, rfl, hfault⟩
      · exact Or.inr ⟨[], fault, List.forall_mem_nil _, e, es, rfl, hfault⟩

/-- Only equations between variables and values take values away. -/
theorem leaveValues_of_not_isValue (h : ∀ e ∈ es, e.isValue = false) : LeaveValues xs es := by
  intro x _
  obtain ⟨v, hv⟩ := x.exists_takes
  refine ⟨v, hv, fun w equal he => ?_⟩
  cases h _ he

theorem leaveValues_nil : LeaveValues xs [] := leaveValues_of_not_isValue (List.forall_mem_nil _)

/-- Fewer equations leave more values. -/
theorem LeaveValues.of_append (h : LeaveValues xs (done ++ rest)) : LeaveValues xs done := by
  intro x hx
  obtain ⟨v, hv, hvalues⟩ := h x hx
  exact ⟨v, hv, fun w equal he => hvalues w equal (List.mem_append_left _ he)⟩

end Equation

namespace Network

variable {net : Network}

/-! ## Imposing -/

theorem impose_eq_error (hd : scope.Declares xs) (h : Imposed scope done net)
    (he : e.Malformed xs fault) : net.impose scope e = .error fault := by
  cases he with
  | left hleft =>
      have hlookup := hd.lookup_eq_error hleft
      cases e with
      | value name v equal =>
          rw [Equation.left] at hlookup ⊢
          rw [impose, hlookup]
          rfl
      | pair left right equal =>
          rw [Equation.left] at hlookup ⊢
          rw [impose, hlookup]
          rfl
  | right hleft hright =>
      obtain ⟨i, x, hlookup, -⟩ := hd.lookup_eq hleft
      rw [impose, hlookup, hd.lookup_eq_error hright]
      rfl
  | reflexive hname =>
      obtain ⟨i, x, hlookup, hi, rfl⟩ := hd.lookup_eq hname
      have hlt : i < net.size := h.size_eq ▸ (Array.getElem?_eq_some_iff.1 hi).1
      have hnet : net.name i = x.name := by
        rw [name, h.posed.vars_eq, hi]
      rw [impose, hlookup]
      simp [bind, Except.bind, relate, requireVariable_of_lt hlt, hnet]

/-- An equation passes if after it there still is a value for every variable. -/
theorem Imposed.viable_iff_leaveValues (h : Imposed scope done net) (hd : scope.Declares xs)
    (hleave : Equation.LeaveValues xs done) (he : e.Proper xs) {i : Nat} {net' : Network}
    (himpose : net.impose scope e = .ok (i, net')) :
    net'.viable i = true ↔ Equation.LeaveValues xs (done ++ [e]) := by
  obtain ⟨j, mid, himpose', hj, h'⟩ := h.impose hd he
  cases himpose.symm.trans himpose'
  rw [← viableUnder_iff hd] at hleave ⊢
  rw [← h'.allViable_iff]
  exact ⟨h.allViable_impose hd (h.allViable_iff.2 hleave) he himpose,
    fun hviable => viable_iff.2 (hviable i hj)⟩

/-- Equations that leave values are imposed one after the other, whatever comes next. -/
theorem Imposed.imposeAll_append (h : Imposed scope done net) (hd : scope.Declares xs)
    (hes : ∀ e ∈ es, e.Proper xs) (hleave : Equation.LeaveValues xs (done ++ es)) :
    ∃ net', Imposed scope (done ++ es) net' ∧
      ∀ rest, imposeAll scope (es ++ rest) net = imposeAll scope rest net' := by
  induction es generalizing done net with
  | nil => exact ⟨net, (List.append_nil done).symm ▸ h, fun rest => rfl⟩
  | cons e es ih =>
      obtain ⟨he, hes⟩ := List.forall_mem_cons.1 hes
      obtain ⟨i, mid, himpose, -, hmid⟩ := h.impose hd he
      rw [List.append_cons] at hleave ⊢
      have hviable : mid.viable i = true :=
        (h.viable_iff_leaveValues hd hleave.of_append.of_append he himpose).2 hleave.of_append
      obtain ⟨net', hnet', hrest⟩ := ih hmid hes hleave
      refine ⟨net', hnet', fun rest => ?_⟩
      rw [List.cons_append, imposeAll, himpose]
      simp only [bind, Except.bind, hviable, if_true]
      exact hrest rest

/-- Equations that leave no value somewhere are stuck at the first one that does so, whatever
comes next. -/
theorem Imposed.imposeAll_stuck (h : Imposed scope done net) (hd : scope.Declares xs)
    (hes : ∀ e ∈ es, e.Proper xs) (hleave : Equation.LeaveValues xs done)
    (hempty : ¬Equation.LeaveValues xs (done ++ es)) :
    ∃ before e after, es = before ++ e :: after ∧ Equation.LeaveValues xs (done ++ before) ∧
      ¬Equation.LeaveValues xs (done ++ before ++ [e]) ∧
      ∃ mid, ∀ rest, imposeAll scope (es ++ rest) net = .ok (.stuck mid (.equation e)) := by
  induction es generalizing done net with
  | nil =>
      rw [List.append_nil] at hempty
      exact absurd hleave hempty
  | cons e es ih =>
      obtain ⟨he, hes⟩ := List.forall_mem_cons.1 hes
      obtain ⟨i, mid, himpose, -, hmid⟩ := h.impose hd he
      have hviable := h.viable_iff_leaveValues hd hleave he himpose
      by_cases hnext : Equation.LeaveValues xs (done ++ [e])
      · rw [List.append_cons] at hempty
        obtain ⟨before, e', after, rfl, hbefore, hafter, last, hrest⟩ := ih hmid hes hnext hempty
        have happend : done ++ e :: before = done ++ [e] ++ before := List.append_cons ..
        refine ⟨e :: before, e', after, rfl, ?_, ?_, last, fun rest => ?_⟩
        · rwa [happend]
        · rwa [happend]
        · rw [List.cons_append, imposeAll, himpose]
          simp only [bind, Except.bind, hviable.2 hnext, if_true]
          exact hrest rest
      · refine ⟨[], e, es, rfl, ?_, ?_, mid, fun rest => ?_⟩
        · rwa [List.append_nil]
        · rwa [List.append_nil]
        · rw [List.cons_append, imposeAll, himpose]
          simp only [bind, Except.bind, mt hviable.1 hnext, Bool.false_eq_true, if_false]
          rfl

end Network

namespace Clause

variable {c : Clause} {body : Traced Verdict} {verdict : Verdict}

/-! ## Frames -/

theorem framed_eq_error (h : body.outcome = .error fault) :
    (c.framed scope settings mode body).outcome = .error fault := by
  rw [framed, Traced.outcome_bind, Traced.outcome_note]
  simp only [Except.bind, Traced.outcome_bind, h]

theorem framed_eq_ok (h : body.outcome = .ok verdict)
    (hconfirm : c.confirm settings mode verdict = .ok ()) :
    (c.framed scope settings mode body).outcome = .ok verdict := by
  rw [framed, Traced.outcome_bind, Traced.outcome_note]
  simp only [Except.bind, Traced.outcome_bind, h, Traced.outcome_ofExcept, hconfirm]
  rfl

/-! ## Conjunctions -/

theorem solveAll_eq_error (hd : scope.Declares xs) (h : Equation.FirstFault xs es done fault)
    (hleave : Equation.LeaveValues xs done) :
    (solveAll scope settings mode es).outcome = .error fault := by
  obtain ⟨hdone, e, rest, rfl, he⟩ := h
  obtain ⟨net, himposed, hrest⟩ :=
    (Network.imposed_ofVariables scope).imposeAll_append hd hdone hleave
  have hrefused : Network.imposeAll scope (done ++ e :: rest) (.ofVariables scope.vars) =
      .error fault := by
    rw [hrest, Network.imposeAll, Network.impose_eq_error hd himposed he]
    rfl
  refine framed_eq_error ?_
  rw [solveEquations, Traced.outcome_bind, Traced.outcome_ofExcept, hrefused]
  rfl

/-- A conjunction is refuted for the first equation that takes the last value from a variable. -/
theorem solveAll_eq_unsat (hd : scope.Declares xs) (hdone : ∀ e ∈ done, e.Proper xs)
    (hempty : ¬Equation.LeaveValues xs done) :
    ∃ before e after, done = before ++ e :: after ∧ Equation.LeaveValues xs before ∧
      ¬Equation.LeaveValues xs (before ++ [e]) ∧ ∀ rest settings mode,
        (solveAll scope settings mode (done ++ rest)).outcome = .ok (.unsat (.equation e)) := by
  obtain ⟨before, e, after, hsplit, hbefore, hafter, mid, hstuck⟩ :=
    (Network.imposed_ofVariables scope).imposeAll_stuck hd hdone Equation.leaveValues_nil hempty
  refine ⟨before, e, after, hsplit, hbefore, hafter, fun rest settings mode => ?_⟩
  refine framed_eq_ok ?_ (by cases mode <;> rfl)
  rw [solveEquations, Traced.outcome_bind, Traced.outcome_ofExcept, hstuck]
  rfl

theorem solve_allOf_eq_unsat (hd : scope.Declares xs) (h : Equation.FirstFault xs es done fault)
    (hempty : ¬Equation.LeaveValues xs done) :
    ∃ cause, ((allOf es).solve scope settings mode).outcome = .ok (.unsat cause) := by
  obtain ⟨hdone, e, rest, rfl, -⟩ := h
  obtain ⟨before, e', after, -, -, -, houtcome⟩ := solveAll_eq_unsat hd hdone hempty
  exact ⟨_, houtcome (e :: rest) settings mode⟩

/-! ## Disjunctions -/

/-- Whether a proper equation alone has a solution is always found out. -/
theorem solveAll_singleton (hd : scope.Declares xs) (he : e.Proper xs) :
    ((allOf [e]).Satisfiable xs → ∃ σ, Solves scope [e] σ ∧
      (solveAll scope settings mode [e]).outcome = .ok (.sat (mode.report scope.vars σ))) ∧
    (¬(allOf [e]).Satisfiable xs → ∃ cause,
      (solveAll scope settings mode [e]).outcome = .ok (.unsat cause)) := by
  have hes : ∀ e' ∈ [e], e'.Proper xs := List.forall_mem_singleton.2 he
  have hreturns : Returns (solveAll scope settings mode [e]).outcome _ := solveAll_returns hd hes
  obtain ⟨verdict, houtcome, hanswers⟩ := hreturns
  have hdecided := (solveAll_singleton_decided hd he).of_eq_ok houtcome
  rw [satisfiable_allOf_iff hd hes]
  cases verdict with
  | sat s =>
      obtain ⟨σ, hσ, rfl⟩ := hanswers
      exact ⟨fun _ => ⟨σ, hσ, houtcome⟩, fun hnone => absurd ⟨σ, hσ⟩ hnone⟩
  | unsat cause => exact ⟨fun hsome => absurd hsome (not_exists.2 hanswers), fun _ => ⟨_, houtcome⟩⟩
  | unknown pairs => exact absurd rfl hdecided

/-- Equations that have no solution of their own are passed over. -/
theorem solveVariants_append (hd : scope.Declares xs) (hdone : ∀ e ∈ done, e.Proper xs)
    (hnone : ∀ e ∈ done, ¬(allOf [e]).Satisfiable xs) :
    (solveVariants scope settings mode c (done ++ rest) none).outcome =
      (solveVariants scope settings mode c rest none).outcome := by
  induction done with
  | nil => rfl
  | cons e done ih =>
      obtain ⟨he, hdone⟩ := List.forall_mem_cons.1 hdone
      obtain ⟨hunsat, hnone⟩ := List.forall_mem_cons.1 hnone
      obtain ⟨cause, hcause⟩ := (solveAll_singleton hd he).2 hunsat
      rw [List.cons_append, solveVariants, Traced.outcome_bind, hcause]
      exact ih hdone hnone

/-- The first equation that has a solution of its own ends the loop, and under this solution it
can be told that the disjunction holds. -/
theorem solveVariants_eq_sat (hd : scope.Declares xs) (hdone : ∀ e ∈ done, e.Proper xs)
    (hsome : ∃ e ∈ done, (allOf [e]).Satisfiable xs) :
    ∃ σ, scope.Takes σ ∧ anyHolds (.ofValues scope.vars σ) (done ++ rest) = .ok true ∧
      (solveVariants scope settings mode c (done ++ rest) none).outcome =
        .ok (.sat (mode.report scope.vars σ)) := by
  induction done with
  | nil =>
      obtain ⟨e, he, -⟩ := hsome
      cases he
  | cons e done ih =>
      obtain ⟨he, hdone⟩ := List.forall_mem_cons.1 hdone
      rw [List.exists_mem_cons_iff] at hsome
      by_cases hsat : (allOf [e]).Satisfiable xs
      · obtain ⟨σ, hσ, houtcome⟩ := (solveAll_singleton hd he).1 hsat
        refine ⟨σ, hσ.1, ?_, ?_⟩
        · rw [List.cons_append, anyHolds, hσ.2 e List.mem_cons_self]
          rfl
        · rw [List.cons_append, solveVariants, Traced.outcome_bind, houtcome]
          rfl
      · obtain ⟨cause, hcause⟩ := (solveAll_singleton hd he).2 hsat
        obtain ⟨σ, htakes, hholds, houtcome⟩ := ih hdone (hsome.resolve_left hsat)
        -- The equation is looked at before the one that holds, and all its names have values.
        obtain ⟨b, hb⟩ := he.exists_holds (hd.covers_ofValues htakes).respects
        refine ⟨σ, htakes, ?_, ?_⟩
        · rw [List.cons_append, anyHolds, hb]
          cases b with
          | true => rfl
          | false => exact hholds
        · rw [List.cons_append, solveVariants, Traced.outcome_bind, hcause]
          exact houtcome

theorem solve_anyOf_eq_error (hd : scope.Declares xs) (h : Equation.FirstFault xs es done fault)
    (hnone : ∀ e ∈ done, ¬(allOf [e]).Satisfiable xs) :
    ((anyOf es).solve scope settings mode).outcome = .error fault := by
  obtain ⟨hdone, e, rest, rfl, he⟩ := h
  have hrefused : (solveAll scope settings mode [e]).outcome = .error fault :=
    solveAll_eq_error hd ⟨List.forall_mem_nil _, e, [], rfl, he⟩ Equation.leaveValues_nil
  refine framed_eq_error ((solveVariants_append hd hdone hnone).trans ?_)
  rw [solveVariants, Traced.outcome_bind, hrefused]
  rfl

theorem solve_anyOf_eq_sat (hd : scope.Declares xs) (h : Equation.FirstFault xs es done fault)
    (hsome : ∃ e ∈ done, (allOf [e]).Satisfiable xs) :
    ∃ s, ((anyOf es).solve scope settings mode).outcome = .ok (.sat s) := by
  obtain ⟨hdone, e, rest, rfl, -⟩ := h
  obtain ⟨σ, -, hholds, houtcome⟩ := solveVariants_eq_sat hd hdone hsome
  have hanswers : (Verdict.sat (mode.report scope.vars σ)).Answers settings mode scope.vars
      fun τ => τ = σ := ⟨σ, rfl, rfl⟩
  refine ⟨_, framed_eq_ok houtcome (confirm_eq_ok hanswers ?_)⟩
  rintro τ rfl
  exact hholds

/-! ## The result -/

/-- A proper clause is not refused, so a refused one has a first malformed equation. -/
theorem exists_firstFault_of_error (hd : scope.Declares xs)
    (h : (c.solve scope settings mode).outcome = .error fault) :
    ∃ done fault', Equation.FirstFault xs c.equations done fault' := by
  refine (Equation.forall_proper_or_firstFault xs c.equations).resolve_left fun hc => ?_
  have hreturns : Returns (c.solve scope settings mode).outcome _ := solve_returns hd hc
  obtain ⟨verdict, hverdict, -⟩ := hreturns
  cases h.symm.trans hverdict

theorem solve_allOf_eq_error_iff (hd : scope.Declares xs) :
    ((allOf es).solve scope settings mode).outcome = .error fault ↔
      ∃ done, Equation.FirstFault xs es done fault ∧ Equation.LeaveValues xs done := by
  refine ⟨fun h => ?_, ?_⟩
  · obtain ⟨done, fault', hfirst⟩ := exists_firstFault_of_error hd h
    by_cases hleave : Equation.LeaveValues xs done
    · cases h.symm.trans (solveAll_eq_error hd hfirst hleave)
      exact ⟨done, hfirst, hleave⟩
    · obtain ⟨cause, hcause⟩ := solve_allOf_eq_unsat hd hfirst hleave
      cases h.symm.trans hcause
  · rintro ⟨done, hfirst, hleave⟩
    exact solveAll_eq_error hd hfirst hleave

theorem solve_anyOf_eq_error_iff (hd : scope.Declares xs) :
    ((anyOf es).solve scope settings mode).outcome = .error fault ↔
      ∃ done, Equation.FirstFault xs es done fault ∧
        ∀ e ∈ done, ¬(allOf [e]).Satisfiable xs := by
  refine ⟨fun h => ?_, ?_⟩
  · obtain ⟨done, fault', hfirst⟩ := exists_firstFault_of_error hd h
    by_cases hsome : ∃ e ∈ done, (allOf [e]).Satisfiable xs
    · obtain ⟨s, hs⟩ := solve_anyOf_eq_sat hd hfirst hsome
      cases h.symm.trans hs
    · have hnone := fun e he hsat => hsome ⟨e, he, hsat⟩
      cases h.symm.trans (solve_anyOf_eq_error hd hfirst hnone)
      exact ⟨done, hfirst, hnone⟩
  · rintro ⟨done, hfirst, hnone⟩
    exact solve_anyOf_eq_error hd hfirst hnone

/--
A conjunction is refused exactly if the values that its equations ask for leave a value for every
variable up to the first malformed equation; if they do not, it is refuted before it gets there.
A disjunction is refused exactly if no equation before the first malformed one has a solution of
its own; if one has, that is the answer. The fault is that of the first malformed equation.
-/
theorem solve_refused_iff {groups : List (List Variable)}
    (hscope : Scope.ofGroups groups = .ok scope) (settings : Settings) (mode : Mode)
    (es : List Equation) :
    (∀ fault, ((allOf es).solve scope settings mode).outcome = .error fault ↔
      ∃ done, Equation.FirstFault groups.flatten es done fault ∧
        Equation.LeaveValues groups.flatten done) ∧
    (∀ fault done, Equation.FirstFault groups.flatten es done fault →
      ¬Equation.LeaveValues groups.flatten done →
        ∃ cause, ((allOf es).solve scope settings mode).outcome = .ok (.unsat cause)) ∧
    (∀ fault, ((anyOf es).solve scope settings mode).outcome = .error fault ↔
      ∃ done, Equation.FirstFault groups.flatten es done fault ∧
        ∀ e ∈ done, ¬(allOf [e]).Satisfiable groups.flatten) ∧
    (∀ fault done, Equation.FirstFault groups.flatten es done fault →
      (∃ e ∈ done, (allOf [e]).Satisfiable groups.flatten) →
        ∃ s, ((anyOf es).solve scope settings mode).outcome = .ok (.sat s)) ∧
    (∀ name, (Fault.undeclared name).message = "The variable has not been declared: " ++ name) ∧
    ∀ name, (Fault.selfInequality name).message =
      "Unexpected inequality " ++ name ++ " != " ++ name := by
  have hd := Scope.declares_ofGroups hscope
  exact ⟨fun _ => solve_allOf_eq_error_iff hd, fun _ _ => solve_allOf_eq_unsat hd,
    fun _ => solve_anyOf_eq_error_iff hd, fun _ _ => solve_anyOf_eq_sat hd, fun _ => rfl,
    fun _ => rfl⟩

/-- A value that a bit does not have, and then a variable that is not declared. -/
def bitStray : List Equation := [.value "a" 2 true, .pair "b" "d" true]

theorem proper_head_bitStray : (Equation.value "a" 2 true).Proper bits.flatten :=
  Equation.proper_value (by decide) 2 true

theorem firstFault_bitStray :
    Equation.FirstFault bits.flatten bitStray [.value "a" 2 true] (.undeclared "d") :=
  ⟨List.forall_mem_singleton.2 proper_head_bitStray, _, [], rfl, .right (by decide) (by decide)⟩

/-- The conjunction has its answer before it comes to the stray variable, and the disjunction does
not. -/
theorem solve_refused_bitStray :
    (∃ cause, ((allOf bitStray).solve bitScope {} .witness).outcome = .ok (.unsat cause)) ∧
    ((anyOf bitStray).solve bitScope {} .witness).outcome = .error (.undeclared "d") := by
  have hscope : Scope.ofGroups bits = .ok bitScope := rfl
  have hunsat : (solveAll bitScope {} .witness [.value "a" 2 true]).outcome =
      .ok (.unsat (.equation (.value "a" 2 true))) := by
    decide +kernel
  have hempty : ¬Equation.LeaveValues bits.flatten [.value "a" 2 true] := by
    intro h
    obtain ⟨v, hv, hvalues⟩ := h (.ofWidth "a" 1 (by decide)) (by decide)
    rw [(hvalues 2 true List.mem_cons_self).2 rfl] at hv
    exact absurd hv.1 (by decide)
  have hnone : ∀ e ∈ [.value "a" 2 true], ¬(allOf [e]).Satisfiable bits.flatten := by
    refine List.forall_mem_singleton.2 fun hsome => ?_
    obtain ⟨σ, -, hsat⟩ :=
      (solveAll_singleton (Scope.declares_ofGroups hscope) proper_head_bitStray).1 hsome
    cases hunsat.symm.trans hsat
  obtain ⟨-, hall, hany, -⟩ := solve_refused_iff hscope {} .witness bitStray
  exact ⟨hall _ _ firstFault_bitStray hempty, (hany _).2 ⟨_, firstFault_bitStray, hnone⟩⟩

end Clause

end FiniteDomain
