import FiniteDomain.Proofs.Holding
import FiniteDomain.Proofs.StoredClauses
import Mathlib

/-!
# A formula means the clauses it was given

Clauses come into a formula one by one, in lists, out of other formulas or as single
equations. Whichever way they come, what is stored are the pieces of the clauses as they
were given, in the order in which they were given.

Under an assignment that leaves out some names the order decides what is seen first, an
equation that settles the answer or a name without a value. Taking a conjunction to pieces
moves the borders between clauses but not the equations, and an evaluation stops at an
equation that fails whether the border is in front of it or not. That is why outcomes are
compared here as a whole, refusals included, and why it is enough to compare them for the
pieces of one clause: the shortcuts of a formula are those of its clauses put end to end.
-/

namespace FiniteDomain

/-! ## Questions with shortcuts -/

section Shortcuts

variable {α β : Type} {p : α → Except Fault Bool} {xs ys : List α} {fault : Fault}

theorem allM_singleton (p : α → Except Fault Bool) (x : α) : [x].allM p = p x := by
  rw [List.allM_cons]
  cases p x with
  | error fault => rfl
  | ok b => cases b <;> rfl

theorem anyM_singleton (p : α → Except Fault Bool) (x : α) : [x].anyM p = p x := by
  rw [List.anyM_cons]
  cases p x with
  | error fault => rfl
  | ok b => cases b <;> rfl

theorem allM_append (xs ys : List α) :
    (xs ++ ys).allM p = (do if ← xs.allM p then ys.allM p else return false) := by
  induction xs with
  | nil => rfl
  | cons x xs ih =>
      rw [List.cons_append, List.allM_cons, List.allM_cons, ih]
      cases p x with
      | error fault => rfl
      | ok b => cases b <;> rfl

/-- Asking the parts of each is asking each part. -/
theorem allM_flatMap (parts : α → List β) (p : β → Except Fault Bool) (xs : List α) :
    (xs.flatMap parts).allM p = xs.allM fun x => (parts x).allM p := by
  induction xs with
  | nil => rfl
  | cons x xs ih =>
      rw [List.flatMap_cons, allM_append, ih, List.allM_cons]

theorem exists_of_anyM_eq_error (h : xs.anyM p = .error fault) : ∃ x ∈ xs, p x = .error fault := by
  induction xs with
  | nil => cases h
  | cons x xs ih =>
      rw [List.anyM_cons] at h
      cases hx : p x with
      | error fault' =>
          rw [hx] at h
          cases h
          exact ⟨x, List.mem_cons_self, hx⟩
      | ok b =>
          rw [hx] at h
          cases b with
          | true => cases h
          | false =>
              obtain ⟨y, hy, hfault⟩ := ih h
              exact ⟨y, List.mem_cons_of_mem x hy, hfault⟩

theorem eq_error_of_map {f : Bool → Bool} {x : Except Fault Bool} (h : f <$> x = .error fault) :
    x = .error fault := by
  cases x with
  | error fault' => exact h
  | ok b => cases h

theorem exists_of_allM_eq_error (h : xs.allM p = .error fault) : ∃ x ∈ xs, p x = .error fault := by
  rw [List.allM_eq_not_anyM_not] at h
  obtain ⟨x, hx, hfault⟩ := exists_of_anyM_eq_error (eq_error_of_map h)
  exact ⟨x, hx, eq_error_of_map hfault⟩

end Shortcuts

variable {s : Assignment} {fault : Fault}

theorem Assignment.get_eq_error {name : String} (h : s.get name = .error fault) :
    fault = .unassigned name ∧ s.get? name = none := by
  unfold Assignment.get at h
  split at h
  · cases h
  · next hnone =>
      cases h
      exact ⟨rfl, hnone⟩

/-- An equation is refused for a name of its own that has no value. -/
theorem Equation.exists_of_holds_eq_error {e : Equation} (h : e.holds s = .error fault) :
    ∃ name ∈ e.names, fault = .unassigned name ∧ s.get? name = none := by
  cases e with
  | value name v equal =>
      rw [Equation.holds] at h
      cases hget : s.get name with
      | ok w =>
          rw [hget] at h
          cases h
      | error fault' =>
          rw [hget] at h
          cases h
          exact ⟨name, by simp [names], Assignment.get_eq_error hget⟩
  | pair left right equal =>
      rw [Equation.holds] at h
      cases hleft : s.get left with
      | error fault' =>
          rw [hleft] at h
          cases h
          exact ⟨left, by simp [names], Assignment.get_eq_error hleft⟩
      | ok v =>
          rw [hleft] at h
          cases hright : s.get right with
          | ok w =>
              rw [hright] at h
              cases h
          | error fault' =>
              rw [hright] at h
              cases h
              exact ⟨right, by simp [names], Assignment.get_eq_error hright⟩

namespace Clause

theorem allHold_eq_allM (s : Assignment) (es : List Equation) :
    allHold s es = es.allM fun e => e.holds s := by
  induction es with
  | nil => rfl
  | cons e es ih =>
      rw [allHold, List.allM_cons, ih]

theorem anyHolds_eq_anyM (s : Assignment) (es : List Equation) :
    anyHolds s es = es.anyM fun e => e.holds s := by
  induction es with
  | nil => rfl
  | cons e es ih =>
      rw [anyHolds, List.anyM_cons, ih]

theorem exists_of_holds_eq_error {c : Clause} (h : c.holds s = .error fault) :
    ∃ e ∈ c.equations, e.holds s = .error fault := by
  unfold holds at h
  split at h
  · rw [allHold_eq_allM] at h
    exact exists_of_allM_eq_error h
  · rw [anyHolds_eq_anyM] at h
    exact exists_of_anyM_eq_error h

/-- One equation has the same outcome under either connective. -/
theorem holds_of_equations_eq_singleton {c : Clause} {e : Equation} (h : c.equations = [e])
    (s : Assignment) : c.holds s = e.holds s := by
  unfold holds
  rw [h]
  split
  · rw [allHold_eq_allM, allM_singleton]
  · rw [anyHolds_eq_anyM, anyM_singleton]

end Clause

namespace Formula

variable {f g : Formula} {cs ds : List Clause}

theorem allHold_eq_allM (s : Assignment) (cs : List Clause) :
    allHold s cs = cs.allM fun c => c.holds s := by
  induction cs with
  | nil => rfl
  | cons c cs ih =>
      rw [allHold, List.allM_cons, ih]

/-- The pieces of a clause, asked one after the other, come out as the clause does. -/
theorem allM_pieces (s : Assignment) (c : Clause) :
    ((pieces c).allM fun d => d.holds s) = c.holds s := by
  have hsplit : ∀ es : List Equation,
      ((es.map fun e => Clause.allOf [e]).allM fun d => d.holds s) = Clause.allHold s es := by
    intro es
    induction es with
    | nil => rfl
    | cons e es ih =>
        rw [List.map_cons, List.allM_cons, ih, Clause.allHold,
          Clause.holds_of_equations_eq_singleton rfl]
  obtain ⟨connective, es⟩ := c
  cases connective with
  | all => exact hsplit es
  | any =>
      -- Only a disjunction of one equation is taken to pieces.
      by_cases hsize : es.length = 1
      · obtain ⟨e, rfl⟩ := List.length_eq_one_iff.1 hsize
        rw [pieces_of_equations_eq_singleton rfl, allM_singleton,
          Clause.holds_of_equations_eq_singleton rfl, Clause.holds_of_equations_eq_singleton rfl]
      · have hkept : pieces (.anyOf es) = [.anyOf es] := pieces_of_size_ne_one rfl hsize
        show (pieces (.anyOf es)).allM _ = _
        rw [hkept, allM_singleton]
        rfl

/-! ## Formulas as they are built -/

/-- Is `f` made of the clauses `cs`, given in this order? -/
inductive Built : Formula → List Clause → Prop where
  | empty : Built .empty []
  | add {f : Formula} {cs : List Clause} (h : Built f cs) (c : Clause) : Built (f.add c) (cs ++ [c])
  | addAll {f : Formula} {cs : List Clause} (h : Built f cs) (ds : List Clause) :
      Built (f.addAll ds) (cs ++ ds)
  | conjoin {f g : Formula} {cs ds : List Clause} (h : Built f cs) (h' : Built g ds) :
      Built (f.conjoin g) (cs ++ ds)
  | addConstraint {f : Formula} {c : Constraint} {cs ds : List Clause} (h : Built f cs)
      (h' : Built c.formula ds) : Built (f.addConstraint c) (cs ++ ds)
  | addEquation {f : Formula} {cs : List Clause} (h : Built f cs) (e : Equation) :
      Built (f.addEquation e) (cs ++ [.allOf [e]])
  | addPair {f : Formula} {cs : List Clause} (h : Built f cs) (left right : String) (equal : Bool) :
      Built (f.addPair left right equal) (cs ++ [.allOf [.pair left right equal]])
  | addValue {f : Formula} {cs : List Clause} (h : Built f cs) (name : String) (v : Int)
      (equal : Bool) : Built (f.addValue name v equal) (cs ++ [.allOf [.value name v equal]])

theorem eq_of_clauses_eq (h : f.clauses = g.clauses) : f = g :=
  congrArg Formula.mk h

theorem clauses_conjoin_of_eq (hf : f.clauses = cs.flatMap pieces)
    (hg : g.clauses = ds.flatMap pieces) : (f.conjoin g).clauses = (cs ++ ds).flatMap pieces := by
  rw [clauses_conjoin, hf, hg, flatMap_pieces_flatMap, List.flatMap_append]

theorem clauses_addEquation_of_eq (hf : f.clauses = cs.flatMap pieces) (e : Equation) :
    (f.addEquation e).clauses = (cs ++ [Clause.allOf [e]]).flatMap pieces := by
  show f.clauses ++ pieces (Clause.allOf [e]) = _
  rw [hf, List.flatMap_append, List.flatMap_singleton]

/-- A formula stores the pieces of its clauses, whichever way these came into it. -/
theorem Built.clauses_eq (h : Built f cs) : f.clauses = cs.flatMap pieces := by
  induction h with
  | empty => rfl
  | add _ c ih =>
      show _ ++ pieces c = _
      rw [ih, List.flatMap_append, List.flatMap_singleton]
  | addAll _ ds ih => rw [clauses_addAll, ih, List.flatMap_append]
  | conjoin _ _ ih ih' => exact clauses_conjoin_of_eq ih ih'
  | addConstraint _ _ ih ih' => exact clauses_conjoin_of_eq ih ih'
  | addEquation _ e ih => exact clauses_addEquation_of_eq ih e
  | addPair _ left right equal ih => exact clauses_addEquation_of_eq ih (.pair left right equal)
  | addValue _ name v equal ih => exact clauses_addEquation_of_eq ih (.value name v equal)

theorem Built.flatMap_clauses (h : Built f cs) : f.clauses.flatMap pieces = f.clauses := by
  rw [h.clauses_eq, flatMap_pieces_flatMap]

theorem Built.holds_eq (h : Built f cs) (s : Assignment) :
    f.holds s = cs.allM fun c => c.holds s := by
  calc f.holds s
      = f.clauses.allM fun c => c.holds s := allHold_eq_allM s f.clauses
    _ = cs.allM fun c => (pieces c).allM fun d => d.holds s := by rw [h.clauses_eq, allM_flatMap]
    _ = cs.allM fun c => c.holds s := by simp only [allM_pieces]

/-! ## The result -/

/-- Does `f` store the clauses `cs` in one form, and mean what they mean in this order? -/
structure Stores (f : Formula) (cs : List Clause) : Prop where
  /-- A stored clause asks for one equation, or for any one of none or of several. -/
  form : ∀ c ∈ f.clauses, c.connective = .all ∧ c.size = 1 ∨ c.connective = .any ∧ c.size ≠ 1
  /-- Under any assignment the outcome is that of the clauses as given, refusals included. -/
  holds_eq : ∀ s, f.holds s = cs.allM fun c => c.holds s
  /-- What is refused is a name without a value that a clause mentions. -/
  refused : ∀ s fault, f.holds s = .error fault →
    ∃ c ∈ cs, ∃ e ∈ c.equations, ∃ name ∈ e.names,
      fault = .unassigned name ∧ s.get? name = none
  /-- Adding the formula to another one adds its clauses as they are. -/
  conjoin_eq : ∀ g : Formula, (g.conjoin f).clauses = g.clauses ++ f.clauses
  /-- Bringing its clauses into form again changes nothing. -/
  ofClauses_clauses : ofClauses f.clauses = f
  /-- The clauses as given decide what is stored, not the way in which they were given. -/
  ofClauses_eq : ofClauses cs = f

/--
A formula that was built by any operations in any order is in form, has the outcome of the
clauses that went into it, one after the other with a stop at the first that fails or is
refused, and goes into another formula unchanged.
-/
theorem Built.stores (h : Built f cs) : f.Stores cs where
  form c hc := by
    rw [h.clauses_eq, List.mem_flatMap] at hc
    obtain ⟨d, -, hpiece⟩ := hc
    rcases mem_pieces.1 hpiece with ⟨hany, hsize, rfl⟩ | ⟨-, e, -, rfl⟩
    · exact Or.inr ⟨hany, hsize⟩
    · exact Or.inl ⟨rfl, rfl⟩
  holds_eq := h.holds_eq
  refused s fault hfault := by
    rw [h.holds_eq] at hfault
    obtain ⟨c, hc, hclause⟩ := exists_of_allM_eq_error hfault
    obtain ⟨e, he, hequation⟩ := Clause.exists_of_holds_eq_error hclause
    exact ⟨c, hc, e, he, Equation.exists_of_holds_eq_error hequation⟩
  conjoin_eq g := by rw [clauses_conjoin, h.flatMap_clauses]
  ofClauses_clauses := eq_of_clauses_eq ((clauses_ofClauses f.clauses).trans h.flatMap_clauses)
  ofClauses_eq := eq_of_clauses_eq ((clauses_ofClauses cs).trans h.clauses_eq.symm)

/-- Clauses of every shape, some of them out of another formula. -/
def assorted : Formula :=
  (((empty.addAll [.allOf [], .anyOf [.value "x" 0 false]]).conjoin
    (ofClauses [.allOf [.value "x" 1 true, .value "y" 2 true]])).add
      (.anyOf [.value "x" 1 true, .value "z" 1 true])).add (.anyOf [])

/-- A value for `x` alone. -/
def onlyX (v : Int) : Assignment := ⟨[(.ofWidth "x" 1 Nat.one_pos, v)]⟩

/-- With `x` right the missing `y` is come to, with `x` wrong it is not. -/
theorem stores_assorted : ∃ cs, Built assorted cs ∧ assorted.Stores cs ∧
    assorted.clauses = [.allOf [.value "x" 0 false], .allOf [.value "x" 1 true],
      .allOf [.value "y" 2 true], .anyOf [.value "x" 1 true, .value "z" 1 true], .anyOf []] ∧
    assorted.holds (onlyX 1) = .error (.unassigned "y") ∧
    assorted.holds (onlyX 0) = .ok false := by
  have hinner : Built (ofClauses [.allOf [.value "x" 1 true, .value "y" 2 true]]) _ :=
    Built.empty.addAll _
  have hbuilt : Built assorted _ := (((Built.empty.addAll _).conjoin hinner).add _).add _
  exact ⟨_, hbuilt, hbuilt.stores, rfl, rfl, rfl⟩

end Formula

end FiniteDomain
