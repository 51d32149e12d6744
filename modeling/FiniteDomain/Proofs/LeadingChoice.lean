import FiniteDomain.Proofs.FirstChoice
import FiniteDomain.Proofs.StoredClauses
import Mathlib

/-!
# Formulas whose first choice can be met

The first choice of all takes the first equation of every disjunction. If it can be met, no
other choice comes into it: the formula is solved as the conjunction of what `leading` lists.

How the clauses of a formula are stored does not change that list. A clause that is taken
to pieces is a conjunction or has one equation, and all of its equations lead either way.
So the leading equations of a formula are those of the clauses it was made from.
-/

namespace FiniteDomain

variable {scope : Scope} {xs : List Variable} {settings : Settings} {mode : Mode}

/-- Is the equation taken from the clause if all choices take what comes first? -/
def Clause.Leads (c : Clause) (e : Equation) : Prop :=
  match c.connective with
  | .all => e ∈ c.equations
  | .any => c.equations.head? = some e

theorem Clause.Leads.mem {c : Clause} {e : Equation} (h : c.Leads e) : e ∈ c.equations := by
  obtain ⟨connective, equations⟩ := c
  cases connective with
  | all => exact h
  | any => exact List.mem_of_mem_head? h

namespace Formula

variable {f : Formula} {c d : Clause} {cs : List Clause} {e : Equation} {places : List Nat}
  {es : List Equation} {p : List Equation → Prop}

/-! ## The first choice of all -/

/-- The first equation of every clause. -/
def heads (cs : List Clause) : List Equation := cs.filterMap fun c => c.equations.head?

theorem choice_heads (h : ∀ c ∈ cs, c.equations ≠ []) :
    Choice cs (cs.map fun _ => 0) (heads cs) := by
  induction cs with
  | nil => exact .nil
  | cons c cs ih =>
      obtain ⟨hc, hcs⟩ := List.forall_mem_cons.1 h
      obtain ⟨e, es, hes⟩ := List.exists_cons_of_ne_nil hc
      have hheads : heads (c :: cs) = e :: heads cs := by simp [heads, hes]
      rw [hheads]
      exact .cons (by rw [hes]; rfl) (ih hcs)

/-- No choice comes before the one that takes what is first everywhere. -/
theorem Choice.not_before_zeros (h : Choice cs places es) : ¬places < cs.map fun _ => 0 := by
  induction h with
  | nil => exact List.not_lt_nil []
  | cons _ _ ih =>
      rw [List.map_cons, List.cons_lt_cons_iff]
      rintro (hlt | ⟨-, hlt⟩)
      · exact Nat.not_lt_zero _ hlt
      · exact ih hlt

theorem firstChoice_heads (h : ∀ c ∈ cs, c.equations ≠ []) (hp : p (heads cs)) :
    FirstChoice p cs (cs.map fun _ => 0) (heads cs) where
  choice := choice_heads h
  holds := hp
  first _ _ hchoice hlt := absurd hlt hchoice.not_before_zeros

/-- The conjunction together with the first equation of every disjunction. -/
def leading (f : Formula) : List Equation := f.conjunction ++ heads f.disjunctions

/-- If the leading equations can be met, solving the formula is solving them. -/
theorem outcome_solve_of_leading (hd : scope.Declares xs) (hf : f.Proper xs)
    (hbudget : settings.budget = none) (hne : ∀ c ∈ f.disjunctions, c.equations ≠ [])
    (hsome : ∃ σ, Solves scope f.leading σ) : (f.solve scope settings mode).outcome =
      (Clause.solveAll scope settings mode f.leading).outcome := by
  have hbase := hf.of_mem_conjunction
  obtain ⟨σ, hσ⟩ := hsome
  obtain ⟨s, hs⟩ := outlook_sat hd hbase hbudget ⟨σ, (solves_append.1 hσ).1⟩
    (!f.disjunctions.isEmpty)
  rw [outcome_solve_eq hd hf, unconfirmed, followUp_of_sat hs]
  exact choose_firstChoice hd hbudget hf.of_mem_disjunctions hbase (firstChoice_heads hne ⟨σ, hσ⟩)

/-- A disjunction without equations that comes first is what cannot be met. -/
theorem outcome_solve_of_void (hd : scope.Declares xs) (hf : f.Proper xs)
    (hbudget : settings.budget = none) (hcs : f.disjunctions = c :: cs) (hvoid : c.equations = [])
    (hsome : ∃ σ, Solves scope f.conjunction σ) :
    (f.solve scope settings mode).outcome = .ok (.unsat (.clause c)) := by
  obtain ⟨s, hs⟩ := outlook_sat hd hf.of_mem_conjunction hbudget hsome (!f.disjunctions.isEmpty)
  rw [outcome_solve_eq hd hf, unconfirmed, followUp_of_sat hs, hcs, choose, hvoid]
  rfl

/-! ## What leads -/

theorem mem_leading : e ∈ f.leading ↔ ∃ c ∈ f.clauses, c.Leads e := by
  simp only [leading, heads, conjunction, disjunctions, List.mem_append, List.mem_flatMap,
    List.mem_filterMap, List.mem_filter]
  have hleads : ∀ c : Clause, c.Leads e ↔
      c.isAll = true ∧ e ∈ c.equations ∨ (!c.isAll) = true ∧ c.equations.head? = some e := by
    rintro ⟨connective, equations⟩
    cases connective <;> simp [Clause.Leads, Clause.isAll]
  simp only [hleads, and_or_left, exists_or, and_assoc]

theorem Proper.of_mem_leading (hf : f.Proper xs) : ∀ e ∈ f.leading, e.Proper xs := by
  intro e he
  obtain ⟨c, hc, hleads⟩ := mem_leading.1 he
  exact hf c hc e hleads.mem

theorem exists_leads_pieces : (∃ d ∈ pieces c, d.Leads e) ↔ c.Leads e := by
  obtain ⟨connective, equations⟩ := c
  simp only [mem_pieces]
  cases connective with
  | all => simp [Clause.Leads, Clause.allOf]
  | any =>
      by_cases hsize : equations.length = 1
      · obtain ⟨e', rfl⟩ := List.length_eq_one_iff.1 hsize
        simp [Clause.Leads, Clause.allOf, Clause.size, eq_comm]
      · simp [Clause.Leads, Clause.size, hsize]

end Formula

end FiniteDomain
