import FiniteDomain.Assignment
import Mathlib

/-!
# Assignments read by index

Inside the solvers variables are numbers and values are a function of them. An
assignment is what such a function becomes when it leaves the solver: the variables
in order, each with its value. As long as no two variables share a name, looking a
name up gives the value at its place.
-/

namespace FiniteDomain

/-- Do all variables have different names? -/
def DistinctNames (vars : Array Variable) : Prop := (vars.toList.map Variable.name).Nodup

namespace Assignment

variable {vars : Array Variable} {σ : Nat → Int} {x : Variable} {i : Nat}

/-- The value `σ i` for the variable at place `i`, in order. -/
def ofValues (vars : Array Variable) (σ : Nat → Int) : Assignment :=
  ⟨vars.toList.zipIdx.map fun p => (p.1, σ p.2)⟩

theorem map_fst_ofValues (vars : Array Variable) (σ : Nat → Int) :
    (ofValues vars σ).entries.map Prod.fst = vars.toList := by
  rw [ofValues, List.map_map]
  exact List.zipIdx_map_fst 0 vars.toList

theorem size_ofValues (vars : Array Variable) (σ : Nat → Int) :
    (ofValues vars σ).size = vars.size := by
  simp [ofValues, size]

/-- The first entry under a name is the only one. -/
theorem find?_zipIdx {xs : List Variable} (hnames : (xs.map Variable.name).Nodup)
    (hx : xs[i]? = some x) (k : Nat) (σ : Nat → Int) :
    ((xs.zipIdx k).map fun p => (p.1, σ p.2)).find? (fun e => e.1.name == x.name) =
      some (x, σ (k + i)) := by
  induction xs generalizing i k with
  | nil => simp at hx
  | cons y ys ih =>
      obtain ⟨hy, hys⟩ := List.nodup_cons.1 hnames
      rw [List.zipIdx_cons, List.map_cons, List.find?_cons]
      cases i with
      | zero =>
          have hyx : y = x := by simpa using hx
          subst hyx
          simp
      | succ i =>
          have hx' : ys[i]? = some x := by simpa using hx
          have hne : (y.name == x.name) = false := by
            rw [beq_eq_false_iff_ne]
            intro h
            exact hy (h ▸ List.mem_map_of_mem (List.mem_of_getElem? hx'))
          rw [show k + (i + 1) = k + 1 + i by omega]
          simp only [hne]
          exact ih hys hx' (k + 1)

theorem get?_ofValues (hnames : DistinctNames vars) (hx : vars[i]? = some x) (σ : Nat → Int) :
    (ofValues vars σ).get? x.name = some (σ i) := by
  rw [get?, ofValues, find?_zipIdx hnames (by rwa [Array.getElem?_toList])]
  simp

/-- A variable that has no value yet is put at the end. -/
theorem assign_of_not_mem {es : List (Variable × Int)} {v : Int}
    (h : x.name ∉ es.map fun e => e.1.name) : assign x v es = es ++ [(x, v)] := by
  induction es with
  | nil => rfl
  | cons e es ih =>
      obtain ⟨y, w⟩ := e
      rw [List.map_cons, List.mem_cons, not_or] at h
      have hne : y.same x = false := by
        rw [Variable.same, beq_eq_false_iff_ne]
        exact Ne.symm h.1
      rw [assign, hne, ih h.2]
      rfl

end Assignment

end FiniteDomain
