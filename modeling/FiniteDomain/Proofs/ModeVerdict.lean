import FiniteDomain.Proofs.FormulaVerdict
import FiniteDomain.Proofs.SearchModes
import Mathlib

/-!
# The verdict does not depend on what is asked

A solve that is asked for a witness and one that is only asked whether there is a
solution go the same way. They part where a network is accepted, and what is done there
for the witness is taken off the verdict again by `withoutWitness`. A formula looks
ahead without a witness in either mode, so the two also cut off the same choices.

`Decides` compares two computations and starts from the one that reads the witness. It
goes through a sequence from part to part, whatever stands before them, so neither the
equations nor the variables matter until the very end: there the solve that reads a
witness is known to return.
-/

namespace FiniteDomain

variable {settings : Settings} {scope : Scope}

/-- Whenever the first computation comes to a verdict, the second comes to the same one, without
its witness. -/
def Decides (witnessing deciding : Traced Verdict) : Prop :=
  ∀ verdict, witnessing.outcome = .ok verdict → deciding.outcome = .ok verdict.withoutWitness

namespace Decides

theorem of_pure (verdict : Verdict) : Decides (pure verdict) (pure verdict.withoutWitness) := by
  intro found h
  cases h
  rfl

theorem of_refute (cause : Conflict) : Decides (refute cause) (refute cause) := by
  intro found h
  cases h
  rfl

/-- What comes first is done on both sides. -/
theorem after {α : Type} {x : Traced α} {f g : α → Traced Verdict}
    (hnext : ∀ a, Decides (f a) (g a)) : Decides (x >>= f) (x >>= g) := by
  intro verdict h
  obtain ⟨a, hx, hf⟩ := Traced.outcome_bind_eq_ok.1 h
  exact Traced.outcome_bind_eq_ok.2 ⟨a, hx, hnext a verdict hf⟩

/-- Both sides go on with the verdict they have come to. -/
theorem bind {witnessing deciding : Traced Verdict} {f g : Verdict → Traced Verdict}
    (h : Decides witnessing deciding)
    (hnext : ∀ verdict, Decides (f verdict) (g verdict.withoutWitness)) :
    Decides (witnessing >>= f) (deciding >>= g) := by
  intro verdict hverdict
  obtain ⟨found, hfound, hf⟩ := Traced.outcome_bind_eq_ok.1 hverdict
  exact Traced.outcome_bind_eq_ok.2 ⟨_, h found hfound, hnext found verdict hf⟩

/-- A check can only refuse, and there is nothing to check where no witness was asked for. -/
theorem check {witnessing deciding : Traced Verdict} {confirm' : Verdict → Except Fault Unit}
    (h : Decides witnessing deciding) (confirm : Verdict → Except Fault Unit)
    (hconfirm : ∀ verdict, confirm' verdict = .ok ()) :
    Decides
      (do
        let verdict ← witnessing
        .ofExcept (confirm verdict)
        return verdict)
      (do
        let verdict ← deciding
        .ofExcept (confirm' verdict)
        return verdict) := by
  refine h.bind fun verdict found hfound => ?_
  obtain ⟨-, -, hpure⟩ := Traced.outcome_bind_eq_ok.1 hfound
  cases hpure
  exact Traced.outcome_bind_eq_ok.2 ⟨(), hconfirm _, rfl⟩

end Decides

theorem Network.solve_decides (net : Network) :
    Decides (net.solve settings .witness) (net.solve settings .decide) := by
  refine Decides.after fun _ => Decides.after fun phase => ?_
  cases phase with
  | stuck mid cause => exact Decides.of_refute cause
  | passed mid =>
      refine Decides.after fun _ verdict h => ?_
      obtain ⟨⟨found, tried⟩, hsearch, h⟩ := Traced.outcome_bind_eq_ok.1 h
      cases h
      exact Traced.outcome_bind_eq_ok.2 ⟨_, search_decide hsearch, rfl⟩

namespace Clause

variable {c : Clause}

/-! ## Clauses -/

theorem confirm_decide (settings : Settings) (c : Clause) (verdict : Verdict) :
    c.confirm settings .decide verdict = .ok () := by
  cases verdict <;> rfl

theorem framed_decides {witnessing deciding : Traced Verdict} (h : Decides witnessing deciding) :
    Decides (c.framed scope settings .witness witnessing)
      (c.framed scope settings .decide deciding) := by
  have hchecked := h.check (c.confirm settings .witness) (confirm_decide settings c)
  intro verdict hverdict
  obtain ⟨-, -, hverdict⟩ := Traced.outcome_bind_eq_ok.1 hverdict
  exact Traced.outcome_bind_eq_ok.2 ⟨(), rfl, hchecked verdict hverdict⟩

theorem solveAll_decides (es : List Equation) :
    Decides (solveAll scope settings .witness es) (solveAll scope settings .decide es) := by
  refine framed_decides (Decides.after fun imposed => ?_)
  cases imposed.andThen Network.check with
  | stuck net cause => exact Decides.of_refute cause
  | passed net => exact net.solve_decides

theorem solveVariants_decides (es : List Equation) :
    ∀ undecided : Option (List (String × String)),
      Decides (solveVariants scope settings .witness c es undecided)
        (solveVariants scope settings .decide c es undecided) := by
  induction es with
  | nil =>
      intro undecided
      cases undecided with
      | none => exact Decides.of_refute _
      | some pairs => exact Decides.of_pure (.unknown pairs)
  | cons e es ih =>
      intro undecided
      rw [solveVariants, solveVariants]
      refine (solveAll_decides [e]).bind fun verdict => ?_
      cases verdict with
      | sat s => exact Decides.of_pure (.sat s)
      | unknown pairs => exact Decides.after fun _ => ih _
      | unsat cause => exact Decides.after fun _ => ih _

theorem solve_decides (c : Clause) :
    Decides (c.solve scope settings .witness) (c.solve scope settings .decide) := by
  rw [solve, solve]
  cases c.connective with
  | all => exact solveAll_decides _
  | any => exact framed_decides (solveVariants_decides _ none)

end Clause

namespace Formula

variable {c : Clause} {chosen : List Equation}

/-! ## Formulas -/

/-- Looking ahead is the same on both sides. -/
theorem followUp_decides {first : Traced Verdict} {next next' : Unit → Traced Verdict}
    (h : Decides (next ()) (next' ())) : Decides (followUp first next) (followUp first next') := by
  refine Decides.after fun verdict => ?_
  cases verdict with
  | sat s => exact h
  | unsat cause => exact Decides.of_pure (.unsat cause)
  | unknown pairs => exact Decides.of_pure (.unknown pairs)

theorem tryEquations_decides {ahead : Bool} {witnessing deciding : List Equation → Traced Verdict}
    (hdeeper : ∀ es, Decides (witnessing es) (deciding es)) (es : List Equation) :
    ∀ undecided : Option (List (String × String)),
      Decides (tryEquations scope settings ahead witnessing c chosen es undecided)
        (tryEquations scope settings ahead deciding c chosen es undecided) := by
  induction es with
  | nil =>
      intro undecided
      cases undecided with
      | none => exact Decides.of_refute _
      | some pairs => exact Decides.of_pure (.unknown pairs)
  | cons e es ih =>
      intro undecided
      rw [tryEquations, tryEquations]
      refine Decides.after fun _ => (followUp_decides (hdeeper _)).bind fun verdict => ?_
      cases verdict with
      | sat s => exact Decides.of_pure (.sat s)
      | unsat cause => exact ih _
      | unknown pairs => exact ih _

theorem choose_decides (cs : List Clause) : ∀ chosen : List Equation,
    Decides (choose scope settings .witness cs chosen)
      (choose scope settings .decide cs chosen) := by
  induction cs with
  | nil => exact Clause.solveAll_decides
  | cons c cs ih =>
      intro chosen
      rw [choose, choose]
      exact tryEquations_decides ih _ none

theorem confirm_decide (settings : Settings) (f : Formula) (verdict : Verdict) :
    f.confirm settings .decide verdict = .ok () := by
  cases verdict <;> rfl

theorem solve_decides (f : Formula) :
    Decides (f.solve scope settings .witness) (f.solve scope settings .decide) := by
  refine Decides.after fun _ => followUp_decides ?_
  exact (choose_decides f.disjunctions f.conjunction).check _ (confirm_decide settings f)

end Formula

/-! ## The result -/

/--
A clause or a formula over declared variables has one verdict, whatever is asked. When it is
that there is a solution, asking for a witness gives one that covers the declarations, and
asking only for the verdict gives an empty one; otherwise the two answers are the same.
-/
theorem Scope.modes_agree {groups : List (List Variable)}
    (hscope : Scope.ofGroups groups = .ok scope) (settings : Settings) :
    (∀ c : Clause, c.Proper groups.flatten → ∃ verdict,
      (c.solve scope settings .witness).outcome = .ok verdict ∧
      (c.solve scope settings .decide).outcome = .ok verdict.withoutWitness ∧
      ∀ s, verdict = .sat s → s.Covers groups.flatten) ∧
    ∀ f : Formula, f.Proper groups.flatten → ∃ verdict,
      (f.solve scope settings .witness).outcome = .ok verdict ∧
      (f.solve scope settings .decide).outcome = .ok verdict.withoutWitness ∧
      ∀ s, verdict = .sat s → s.Covers groups.flatten := by
  have hd := Scope.declares_ofGroups hscope
  refine ⟨fun c hc => ?_, fun f hf => ?_⟩
  · have hreturns : Returns (c.solve scope settings .witness).outcome _ :=
      Clause.solve_returns hd hc
    obtain ⟨verdict, houtcome, hanswers⟩ := hreturns
    refine ⟨verdict, houtcome, c.solve_decides verdict houtcome, fun s hs => ?_⟩
    subst hs
    exact (hanswers.covers (fun s => c.holds s = .ok true) hd).1
  · have hreturns : Returns (f.solve scope settings .witness).outcome _ :=
      Formula.solve_returns hd hf
    obtain ⟨verdict, houtcome, hanswers⟩ := hreturns
    refine ⟨verdict, houtcome, f.solve_decides verdict houtcome, fun s hs => ?_⟩
    subst hs
    exact (hanswers.covers (fun s => f.holds s = .ok true) hd).1

/-- A formula is given a witness only if one is asked for; the triangle is left open in either
mode under a budget of one value. -/
theorem Scope.modes_agree_bits :
    (∃ s, (Formula.bitChoice.solve Clause.bitScope {} .witness).outcome = .ok (.sat s) ∧
      (Formula.bitChoice.solve Clause.bitScope {} .decide).outcome = .ok (.sat .empty) ∧
      s.Covers Clause.bits.flatten) ∧
    ∃ pairs, (Clause.bitTriangle.solve Clause.bitScope { budget := some 1 } .witness).outcome =
        .ok (.unknown pairs) ∧
      (Clause.bitTriangle.solve Clause.bitScope { budget := some 1 } .decide).outcome =
        .ok (.unknown pairs) := by
  have hscope : Scope.ofGroups Clause.bits = .ok Clause.bitScope := rfl
  refine ⟨?_, ?_⟩
  · have hsat : (Formula.bitChoice.solve Clause.bitScope {} .witness).outcome =
        .ok (.sat (.ofValues Clause.bitScope.vars fun i => if i = 1 then 1 else 0)) := by
      decide +kernel
    obtain ⟨verdict, hwitness, hdecide, hcovers⟩ :=
      (Scope.modes_agree hscope {}).2 _ Formula.proper_bitChoice
    have hverdict : Except.ok verdict = .ok _ := hwitness.symm.trans hsat
    cases hverdict
    exact ⟨_, hsat, hdecide, hcovers _ rfl⟩
  · have hopen : (Clause.bitTriangle.solve Clause.bitScope { budget := some 1 } .witness).outcome =
        .ok (.unknown [("a", "b"), ("a", "c"), ("b", "c")]) := by
      decide +kernel
    obtain ⟨verdict, hwitness, hdecide, -⟩ :=
      (Scope.modes_agree hscope { budget := some 1 }).1 _ Clause.proper_bitTriangle
    have hverdict : Except.ok verdict = .ok _ := hwitness.symm.trans hopen
    cases hverdict
    exact ⟨_, hopen, hdecide⟩

end FiniteDomain
