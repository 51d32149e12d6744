import FiniteDomain.Formula
import Mathlib

/-!
# How a formula stores its clauses

A clause is stored as it is, or as one clause for each of its equations. Both are stored
again as they are, so it makes no difference how often a clause was handed on from one formula
to another, and the clauses of a formula are the pieces of what it was made from, in order.
-/

namespace FiniteDomain

namespace Formula

variable {c d : Clause} {e : Equation}

/-! ## The pieces of a clause -/

theorem pieces_of_size_ne_one (hany : c.connective = .any) (hsize : c.size ≠ 1) :
    pieces c = [c] :=
  if_pos (by simp [Clause.isAny, hany, hsize])

theorem pieces_of_equations_eq_singleton (he : c.equations = [e]) :
    pieces c = [Clause.allOf [e]] := by
  rw [pieces, if_neg (by simp [Clause.size, he]), he]
  rfl

theorem mem_pieces : d ∈ pieces c ↔
    c.connective = .any ∧ c.size ≠ 1 ∧ d = c ∨
      (c.connective = .all ∨ c.size = 1) ∧ ∃ e ∈ c.equations, d = .allOf [e] := by
  obtain ⟨connective, equations⟩ := c
  rw [pieces]
  cases connective with
  | all => simp [Clause.isAny, @eq_comm _ d]
  | any =>
      by_cases hsize : (Clause.mk .any equations).size = 1
      · simp [Clause.isAny, hsize, @eq_comm _ d]
      · simp [Clause.isAny, hsize]

theorem subset_of_mem_pieces (h : d ∈ pieces c) : ∀ e ∈ d.equations, e ∈ c.equations := by
  rcases mem_pieces.1 h with ⟨-, -, rfl⟩ | ⟨-, e, he, rfl⟩
  · exact fun _ he => he
  · exact List.forall_mem_singleton.2 he

theorem ne_nil_of_mem_pieces (h : d ∈ pieces c) (hc : c.equations ≠ []) : d.equations ≠ [] := by
  rcases mem_pieces.1 h with ⟨-, -, rfl⟩ | ⟨-, e, -, rfl⟩
  · exact hc
  · exact List.cons_ne_nil e []

/-- What was stored is stored as it is. -/
theorem flatMap_pieces (c : Clause) : (pieces c).flatMap pieces = pieces c := by
  have hself : ∀ d ∈ pieces c, pieces d = [d] := by
    intro d hd
    rcases mem_pieces.1 hd with ⟨hany, hsize, rfl⟩ | ⟨-, e, -, rfl⟩
    · exact pieces_of_size_ne_one hany hsize
    · rfl
  rw [List.flatMap_congr hself]
  exact List.flatMap_singleton' _

theorem flatMap_pieces_flatMap (cs : List Clause) :
    (cs.flatMap pieces).flatMap pieces = cs.flatMap pieces := by
  rw [List.flatMap_assoc]
  simp only [flatMap_pieces]

/-! ## The clauses of a formula -/

theorem clauses_addAll (f : Formula) (cs : List Clause) :
    (f.addAll cs).clauses = f.clauses ++ cs.flatMap pieces := by
  induction cs generalizing f with
  | nil => simp [addAll]
  | cons c cs ih =>
      rw [addAll, List.foldl_cons, List.flatMap_cons, ← List.append_assoc]
      exact ih (f.add c)

theorem clauses_conjoin (f g : Formula) :
    (f.conjoin g).clauses = f.clauses ++ g.clauses.flatMap pieces :=
  clauses_addAll f g.clauses

theorem clauses_foldl_addConstraint (f : Formula) (cs : List Constraint) :
    (cs.foldl addConstraint f).clauses =
      f.clauses ++ cs.flatMap fun c => c.formula.clauses.flatMap pieces := by
  induction cs generalizing f with
  | nil => simp
  | cons c cs ih =>
      rw [List.foldl_cons, ih, addConstraint, clauses_conjoin, List.flatMap_cons, List.append_assoc]

theorem clauses_foldl_addEquation (f : Formula) (es : List Equation) :
    (es.foldl addEquation f).clauses = f.clauses ++ es.map fun e => Clause.allOf [e] := by
  induction es generalizing f with
  | nil => simp
  | cons e es ih =>
      rw [List.foldl_cons, ih, addEquation, List.map_cons, List.append_assoc]
      rfl

theorem clauses_ofClauses (cs : List Clause) : (ofClauses cs).clauses = cs.flatMap pieces := by
  rw [ofClauses, clauses_addAll]
  rfl

theorem clauses_ofClauses_singleton (c : Clause) : (ofClauses [c]).clauses = pieces c := by
  rw [clauses_ofClauses, List.flatMap_singleton]

end Formula

end FiniteDomain
