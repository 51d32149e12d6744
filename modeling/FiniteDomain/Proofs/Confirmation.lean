import FiniteDomain.Proofs.FormulaVerdict
import Mathlib

/-!
# Confirming witnesses changes no verdict

A confirmation can only refuse. So if it is never refused, a verdict is the same
whether witnesses are confirmed or not, and that much is known: the computations that
confirm return under all settings. What is left to say is that nothing else looks at
the setting. Each computation is compared with itself under the setting turned on or
off; where it confirms something, the two agree because both return and what is in the
middle agrees.
-/

namespace FiniteDomain

variable {settings : Settings} {mode : Mode} {scope : Scope} {xs : List Variable}
  {es : List Equation} {verify : Bool} {verdict : Verdict}

/-- The same settings, with or without confirming witnesses. -/
def Settings.withVerify (settings : Settings) (verify : Bool) : Settings :=
  { settings with verify }

@[simp]
theorem Settings.order_withVerify : (settings.withVerify verify).order = settings.order := rfl

@[simp]
theorem Settings.affords_withVerify (tried : Nat) :
    (settings.withVerify verify).affords tried = settings.affords tried := rfl

/-- Sequences have one outcome if their parts do, as far as they get. -/
theorem Traced.outcome_bind_congr {α β : Type} {x y : Traced α} {f g : α → Traced β}
    (h : x.outcome = y.outcome) (hfg : ∀ a, (f a).outcome = (g a).outcome) :
    (x >>= f).outcome = (y >>= g).outcome := by
  rw [outcome_bind, outcome_bind, h]
  exact congrArg _ (funext hfg)

/-! ## Searching -/

namespace Network

variable {net : Network} {x : Nat} {vs : List Int} {tried : Nat}

theorem accept_withVerify :
    net.accept (settings.withVerify verify) mode = net.accept settings mode := by
  cases mode with
  | decide => rfl
  | witness => rfl

theorem tryValues_withVerify {deeper deeper' : Network → Nat → Traced (Verdict × Nat)}
    (hdeeper : deeper' = deeper) : ∀ {tried : Nat},
      tryValues (settings.withVerify verify) deeper' net x vs tried =
        tryValues settings deeper net x vs tried := by
  subst hdeeper
  induction vs with
  | nil =>
      intro tried
      rw [tryValues, tryValues]
  | cons v vs ih =>
      intro tried
      rw [tryValues, tryValues]
      simp only [ih, Settings.affords_withVerify]

theorem search_withVerify {depth : Nat} :
    search (settings.withVerify verify) mode depth = search settings mode depth := by
  induction depth with
  | zero =>
      funext net tried
      rw [search, search]
  | succ depth ih =>
      funext net tried
      rw [search, search]
      simp only [accept_withVerify, tryValues_withVerify ih, Settings.order_withVerify]

theorem solve_withVerify :
    net.solve (settings.withVerify verify) mode = net.solve settings mode := by
  rw [solve, solve]
  simp only [search_withVerify]

end Network

namespace Clause

variable {c : Clause} {body body' : Traced Verdict}

/-! ## Clauses -/

theorem solveEquations_withVerify :
    solveEquations scope (settings.withVerify verify) mode es =
      solveEquations scope settings mode es := by
  rw [solveEquations, solveEquations]
  simp only [Network.solve_withVerify]

/-- What comes out of a frame was put into it. -/
theorem outcome_of_framed (h : (c.framed scope settings mode body).outcome = .ok verdict) :
    body.outcome = .ok verdict := by
  obtain ⟨-, -, h⟩ := Traced.outcome_bind_eq_ok.1 h
  obtain ⟨found, hfound, h⟩ := Traced.outcome_bind_eq_ok.1 h
  obtain ⟨-, -, h⟩ := Traced.outcome_bind_eq_ok.1 h
  cases h
  exact hfound

/-- A frame that is not refused changes no outcome. -/
theorem outcome_framed_eq {p : Verdict → Prop}
    (h : Returns (c.framed scope settings mode body).outcome p) :
    (c.framed scope settings mode body).outcome = body.outcome := by
  obtain ⟨verdict, hverdict, -⟩ := h
  rw [hverdict, outcome_of_framed hverdict]

theorem outcome_solveAll_eq (hd : scope.Declares xs) (hes : ∀ e ∈ es, e.Proper xs) :
    (solveAll scope settings mode es).outcome = (solveEquations scope settings mode es).outcome :=
  outcome_framed_eq (solveAll_returns hd hes)

/-- Frames that are not refused have one outcome if what is in them has. -/
theorem framed_withVerify {p p' : Verdict → Prop}
    (h : Returns (c.framed scope (settings.withVerify verify) mode body').outcome p)
    (h' : Returns (c.framed scope settings mode body).outcome p')
    (hbody : body'.outcome = body.outcome) :
    (c.framed scope (settings.withVerify verify) mode body').outcome =
      (c.framed scope settings mode body).outcome := by
  rw [outcome_framed_eq h, outcome_framed_eq h', hbody]

theorem solveAll_withVerify (hd : scope.Declares xs) (hes : ∀ e ∈ es, e.Proper xs) :
    (solveAll scope (settings.withVerify verify) mode es).outcome =
      (solveAll scope settings mode es).outcome :=
  framed_withVerify (solveAll_returns hd hes) (solveAll_returns hd hes)
    (congrArg Traced.outcome solveEquations_withVerify)

theorem solveVariants_withVerify (hd : scope.Declares xs) :
    ∀ {es : List Equation} {undecided : Option (List (String × String))},
      (∀ e ∈ es, e.Proper xs) →
      (solveVariants scope (settings.withVerify verify) mode c es undecided).outcome =
        (solveVariants scope settings mode c es undecided).outcome := by
  intro es
  induction es with
  | nil =>
      intro undecided _
      cases undecided with
      | none => rw [solveVariants, solveVariants]
      | some pairs => rw [solveVariants, solveVariants]
  | cons e es ih =>
      intro undecided hes
      have hes' : ∀ e ∈ es, e.Proper xs := fun e he => hes e (List.mem_cons_of_mem _ he)
      have he : ∀ e' ∈ [e], e'.Proper xs := List.forall_mem_singleton.2 (hes e List.mem_cons_self)
      rw [solveVariants, solveVariants]
      refine Traced.outcome_bind_congr (solveAll_withVerify hd he) fun verdict => ?_
      cases verdict with
      | sat s => rfl
      | unknown pairs => exact Traced.outcome_bind_congr rfl fun _ => ih hes'
      | unsat cause => exact Traced.outcome_bind_congr rfl fun _ => ih hes'

/-- It makes no difference to the verdict on a clause whether witnesses are confirmed. -/
theorem solve_withVerify (hd : scope.Declares xs) (hc : c.Proper xs) :
    (c.solve scope (settings.withVerify verify) mode).outcome =
      (c.solve scope settings mode).outcome := by
  have hon : Returns (c.solve scope (settings.withVerify verify) mode).outcome _ :=
    solve_returns hd hc
  have hoff : Returns (c.solve scope settings mode).outcome _ := solve_returns hd hc
  rw [solve] at hon hoff ⊢
  rw [solve]
  cases hconn : c.connective with
  | all => exact solveAll_withVerify hd hc
  | any =>
      rw [hconn] at hon hoff
      exact framed_withVerify hon hoff (solveVariants_withVerify hd hc)

end Clause

namespace Formula

variable {f : Formula} {c : Clause} {chosen : List Equation}

/-! ## Formulas -/

theorem outlook_withVerify (hd : scope.Declares xs) (hes : ∀ e ∈ es, e.Proper xs) {ahead : Bool} :
    (outlook scope (settings.withVerify verify) ahead es).outcome =
      (outlook scope settings ahead es).outcome := by
  rw [outlook, outlook]
  cases ahead with
  | true => exact Clause.solveAll_withVerify hd hes
  | false => rw [if_neg Bool.false_ne_true, if_neg Bool.false_ne_true]

theorem followUp_congr {first first' : Traced Verdict} {next next' : Unit → Traced Verdict}
    (hfirst : first'.outcome = first.outcome) (hnext : (next' ()).outcome = (next ()).outcome) :
    (followUp first' next').outcome = (followUp first next).outcome := by
  refine Traced.outcome_bind_congr hfirst fun verdict => ?_
  cases verdict with
  | sat s => exact hnext
  | unsat cause => rfl
  | unknown pairs => rfl

theorem tryEquations_withVerify (hd : scope.Declares xs) {ahead : Bool}
    {deeper deeper' : List Equation → Traced Verdict} (hchosen : ∀ e ∈ chosen, e.Proper xs) :
    ∀ {es : List Equation} {undecided : Option (List (String × String))},
      (∀ e ∈ es, e.Proper xs) →
      (∀ e ∈ es, (deeper' (chosen ++ [e])).outcome = (deeper (chosen ++ [e])).outcome) →
      (tryEquations scope (settings.withVerify verify) ahead deeper' c chosen es undecided).outcome =
        (tryEquations scope settings ahead deeper c chosen es undecided).outcome := by
  intro es
  induction es with
  | nil =>
      intro undecided _ _
      cases undecided with
      | none => rw [tryEquations, tryEquations]
      | some pairs => rw [tryEquations, tryEquations]
  | cons e es ih =>
      intro undecided hes hdeeper
      have hes' : ∀ e ∈ es, e.Proper xs := fun e he => hes e (List.mem_cons_of_mem _ he)
      have hdeeper' := fun e' he' => hdeeper e' (List.mem_cons_of_mem e he')
      have hcandidate : ∀ e' ∈ chosen ++ [e], e'.Proper xs :=
        Equation.forall_proper_concat hchosen (hes e List.mem_cons_self)
      rw [tryEquations, tryEquations]
      refine Traced.outcome_bind_congr rfl fun _ => Traced.outcome_bind_congr
        (followUp_congr (outlook_withVerify hd hcandidate) (hdeeper e List.mem_cons_self)) ?_
      intro verdict
      cases verdict with
      | sat s => rfl
      | unsat cause => exact ih hes' hdeeper'
      | unknown pairs => exact ih hes' hdeeper'

theorem choose_withVerify (hd : scope.Declares xs) {cs : List Clause} :
    ∀ {chosen : List Equation}, (∀ c ∈ cs, c.Proper xs) → (∀ e ∈ chosen, e.Proper xs) →
      (choose scope (settings.withVerify verify) mode cs chosen).outcome =
        (choose scope settings mode cs chosen).outcome := by
  induction cs with
  | nil =>
      intro chosen _ hchosen
      exact Clause.solveAll_withVerify hd hchosen
  | cons c cs ih =>
      intro chosen hcs hchosen
      have hc : c.Proper xs := hcs c List.mem_cons_self
      have hcs' : ∀ c ∈ cs, c.Proper xs := fun c hc => hcs c (List.mem_cons_of_mem _ hc)
      rw [choose, choose]
      exact tryEquations_withVerify hd hchosen hc fun e he =>
        ih hcs' (Equation.forall_proper_concat hchosen (hc e he))

/-- Solving a formula before anything is confirmed. -/
def unconfirmed (scope : Scope) (settings : Settings) (mode : Mode) (f : Formula) :
    Traced Verdict :=
  followUp (outlook scope settings (!f.disjunctions.isEmpty) f.conjunction)
    fun _ => choose scope settings mode f.disjunctions f.conjunction

theorem outcome_of_solve (h : (f.solve scope settings mode).outcome = .ok verdict) :
    (f.unconfirmed scope settings mode).outcome = .ok verdict := by
  obtain ⟨-, -, h⟩ := Traced.outcome_bind_eq_ok.1 h
  obtain ⟨first, hfirst, h⟩ := Traced.outcome_bind_eq_ok.1 h
  refine Traced.outcome_bind_eq_ok.2 ⟨first, hfirst, ?_⟩
  cases first with
  | unsat cause => exact h
  | unknown pairs => exact h
  | sat s =>
      obtain ⟨found, hfound, h⟩ := Traced.outcome_bind_eq_ok.1 h
      obtain ⟨-, -, h⟩ := Traced.outcome_bind_eq_ok.1 h
      cases h
      exact hfound

/-- The verdict on a proper formula is the one that is there before anything is confirmed. -/
theorem outcome_solve_eq (hd : scope.Declares xs) (hf : f.Proper xs) :
    (f.solve scope settings mode).outcome = (f.unconfirmed scope settings mode).outcome := by
  have hreturns : Returns (f.solve scope settings mode).outcome _ := solve_returns hd hf
  obtain ⟨verdict, houtcome, -⟩ := hreturns
  rw [houtcome, outcome_of_solve houtcome]

/-- It makes no difference to the verdict on a formula whether witnesses are confirmed. -/
theorem solve_withVerify (hd : scope.Declares xs) (hf : f.Proper xs) :
    (f.solve scope (settings.withVerify verify) mode).outcome =
      (f.solve scope settings mode).outcome := by
  rw [outcome_solve_eq hd hf, outcome_solve_eq hd hf]
  exact followUp_congr (outlook_withVerify hd hf.of_mem_conjunction)
    (choose_withVerify hd hf.of_mem_disjunctions hf.of_mem_conjunction)

end Formula

end FiniteDomain
