import FiniteDomain.Formula
import FiniteDomain.Proofs.Declared
import Mathlib

/-!
# What holds under an assignment

Whether an equation holds depends on the values of the names it mentions and on
nothing else, and it can be told as soon as these names have values. For clauses and
formulas the same follows equation by equation. They are evaluated with shortcuts: an
answer may be found before a name without a value is come to, and therefore the
lemma about disjunctions has to ask that every equation can be told.
-/

namespace FiniteDomain

variable {s t : Assignment} {xs : List Variable}

theorem Assignment.get_congr {name : String} (h : s.get? name = t.get? name) :
    s.get name = t.get name := by
  rw [Assignment.get, h, Assignment.get]

theorem Assignment.get_eq_ok {name : String} {v : Int} (h : s.get? name = some v) :
    s.get name = .ok v := by
  rw [Assignment.get, h]

namespace Equation

variable {e : Equation}

/-- The names that an equation mentions. -/
def names : Equation → List String
  | value name _ _ => [name]
  | pair left right _ => [left, right]

/-- The names are declared, and no variable is asked to differ from itself. -/
structure Proper (xs : List Variable) (e : Equation) : Prop where
  declared : ∀ name ∈ e.names, name ∈ xs.map Variable.name
  not_reflexive : ∀ name, e ≠ pair name name false

theorem proper_value {name : String} (h : name ∈ xs.map Variable.name) (v : Int) (equal : Bool) :
    (value name v equal).Proper xs where
  declared := List.forall_mem_singleton.2 h
  not_reflexive _ heq := by
    cases heq

theorem proper_pair {left right : String} {equal : Bool} (hl : left ∈ xs.map Variable.name)
    (hr : right ∈ xs.map Variable.name) (h : left = right → equal = true) :
    (pair left right equal).Proper xs where
  declared := List.forall_mem_cons.2 ⟨hl, List.forall_mem_singleton.2 hr⟩
  not_reflexive name heq := by
    injection heq with hleft hright hequal
    rw [h (hleft.trans hright.symm)] at hequal
    cases hequal

theorem forall_proper_concat {es : List Equation} (hes : ∀ e ∈ es, e.Proper xs)
    (he : e.Proper xs) : ∀ e' ∈ es ++ [e], e'.Proper xs :=
  List.forall_mem_append.2 ⟨hes, List.forall_mem_singleton.2 he⟩

theorem holds_congr (h : ∀ name ∈ e.names, s.get? name = t.get? name) : e.holds s = e.holds t := by
  cases e with
  | value name v equal =>
      rw [holds, holds, Assignment.get_congr (h name (by simp [names]))]
  | pair left right equal =>
      rw [holds, holds, Assignment.get_congr (h left (by simp [names])),
        Assignment.get_congr (h right (by simp [names]))]

/-- A negated equation has the other answer, or the same fault. -/
theorem holds_negate (e : Equation) (s : Assignment) : e.negate.holds s = (e.holds s).map not := by
  have hflip : ∀ answer equal : Bool, (answer == !equal) = !(answer == equal) := by decide
  cases e with
  | value name v equal =>
      rw [negate, holds, holds]
      cases s.get name with
      | error fault => rfl
      | ok w => exact congrArg Except.ok (hflip _ equal)
  | pair left right equal =>
      rw [negate, holds, holds]
      cases s.get left with
      | error fault => rfl
      | ok v =>
          cases s.get right with
          | error fault => rfl
          | ok w => exact congrArg Except.ok (hflip _ equal)

theorem exists_holds (h : ∀ name ∈ e.names, ∃ v, s.get? name = some v) :
    ∃ b, e.holds s = .ok b := by
  cases e with
  | value name v equal =>
      obtain ⟨w, hw⟩ := h name (by simp [names])
      exact ⟨(w == v) == equal, by rw [holds, Assignment.get_eq_ok hw]; rfl⟩
  | pair left right equal =>
      obtain ⟨v, hv⟩ := h left (by simp [names])
      obtain ⟨w, hw⟩ := h right (by simp [names])
      exact ⟨(v == w) == equal, by
        rw [holds, Assignment.get_eq_ok hv, Assignment.get_eq_ok hw]; rfl⟩

/-- An equation over declared names can be told under an assignment that respects them. -/
theorem Proper.exists_holds (he : e.Proper xs) (hs : s.Respects xs) : ∃ b, e.holds s = .ok b := by
  refine Equation.exists_holds fun name hname => ?_
  obtain ⟨x, hx, rfl⟩ := List.mem_map.1 (he.declared name hname)
  obtain ⟨v, hv, -⟩ := hs x hx
  exact ⟨v, hv⟩

end Equation

namespace Clause

variable {c : Clause} {es : List Equation}

/-- All equations are proper. -/
def Proper (xs : List Variable) (c : Clause) : Prop := ∀ e ∈ c.equations, e.Proper xs

theorem allHold_iff : allHold s es = .ok true ↔ ∀ e ∈ es, e.holds s = .ok true := by
  induction es with
  | nil => simp [allHold]
  | cons e es ih =>
      rw [List.forall_mem_cons, ← ih, allHold]
      cases e.holds s with
      | error fault => simp [bind, Except.bind]
      | ok b =>
          cases b with
          | false => simp [bind, Except.bind, pure, Except.pure]
          | true => simp [bind, Except.bind]

theorem anyHolds_iff (h : ∀ e ∈ es, ∃ b, e.holds s = .ok b) :
    anyHolds s es = .ok true ↔ ∃ e ∈ es, e.holds s = .ok true := by
  induction es with
  | nil => simp [anyHolds]
  | cons e es ih =>
      have ih := ih fun e he => h e (List.mem_cons_of_mem _ he)
      obtain ⟨b, hb⟩ := h e List.mem_cons_self
      rw [anyHolds, hb]
      cases b with
      | false => simp [bind, Except.bind, ih, hb]
      | true => simp [bind, Except.bind, pure, Except.pure, hb]

theorem allHold_congr (h : ∀ e ∈ es, e.holds s = e.holds t) : allHold s es = allHold t es := by
  induction es with
  | nil => rfl
  | cons e es ih =>
      rw [allHold, allHold, h e List.mem_cons_self,
        ih fun e he => h e (List.mem_cons_of_mem _ he)]

theorem anyHolds_congr (h : ∀ e ∈ es, e.holds s = e.holds t) : anyHolds s es = anyHolds t es := by
  induction es with
  | nil => rfl
  | cons e es ih =>
      rw [anyHolds, anyHolds, h e List.mem_cons_self,
        ih fun e he => h e (List.mem_cons_of_mem _ he)]

theorem holds_congr (h : ∀ e ∈ c.equations, e.holds s = e.holds t) : c.holds s = c.holds t := by
  rw [holds, holds, allHold_congr h, anyHolds_congr h]

theorem holds_iff_of_all (hconn : c.connective = .all) :
    c.holds s = .ok true ↔ ∀ e ∈ c.equations, e.holds s = .ok true := by
  rw [holds, hconn]
  exact allHold_iff

theorem Proper.holds_iff_of_any (hc : c.Proper xs) (hs : s.Respects xs)
    (hconn : c.connective = .any) :
    c.holds s = .ok true ↔ ∃ e ∈ c.equations, e.holds s = .ok true := by
  rw [holds, hconn]
  exact anyHolds_iff fun e he => (hc e he).exists_holds hs

end Clause

namespace Formula

variable {f : Formula} {cs : List Clause}

/-- All clauses are proper. -/
def Proper (xs : List Variable) (f : Formula) : Prop := ∀ c ∈ f.clauses, c.Proper xs

theorem allHold_iff : allHold s cs = .ok true ↔ ∀ c ∈ cs, c.holds s = .ok true := by
  induction cs with
  | nil => simp [allHold]
  | cons c cs ih =>
      rw [List.forall_mem_cons, ← ih, allHold]
      cases c.holds s with
      | error fault => simp [bind, Except.bind]
      | ok b =>
          cases b with
          | false => simp [bind, Except.bind, pure, Except.pure]
          | true => simp [bind, Except.bind]

theorem allHold_congr (h : ∀ c ∈ cs, c.holds s = c.holds t) : allHold s cs = allHold t cs := by
  induction cs with
  | nil => rfl
  | cons c cs ih =>
      rw [allHold, allHold, h c List.mem_cons_self,
        ih fun c hc => h c (List.mem_cons_of_mem _ hc)]

end Formula

/-- A goal over declared names looks at nothing but their values. -/
theorem Formula.Proper.holds_congr {f : Formula} (hf : f.Proper xs)
    (h : ∀ name ∈ xs.map Variable.name, s.get? name = t.get? name) : f.holds s = f.holds t :=
  allHold_congr fun c hc => Clause.holds_congr fun e he =>
    Equation.holds_congr fun name hname => h name ((hf c hc e he).declared name hname)

theorem Clause.Proper.holds_congr {c : Clause} (hc : c.Proper xs)
    (h : ∀ name ∈ xs.map Variable.name, s.get? name = t.get? name) : c.holds s = c.holds t :=
  Clause.holds_congr fun e he =>
    Equation.holds_congr fun name hname => h name ((hc e he).declared name hname)

end FiniteDomain
