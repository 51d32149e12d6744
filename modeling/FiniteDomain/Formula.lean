import FiniteDomain.Clause

/-!
# Formulas and constraints

A formula is a conjunction of clauses. What is added to it is brought into one
form: a disjunction of two or more equations stays as it is, and so does the empty
one, which cannot be met; every other clause means that all of its equations hold,
and each of them becomes a clause of its own.

A constraint is a formula with a name.
-/

namespace FiniteDomain

/-- A conjunction of clauses. -/
structure Formula where
  clauses : List Clause
  deriving DecidableEq

namespace Formula

/-- The formula that asks for nothing. -/
def empty : Formula := ⟨[]⟩

/-- The number of clauses. -/
def size (f : Formula) : Nat := f.clauses.length

def isEmpty (f : Formula) : Bool := f.clauses.isEmpty

/-- Adds an equation as a clause of its own. -/
def addEquation (f : Formula) (e : Equation) : Formula :=
  ⟨f.clauses ++ [Clause.allOf [e]]⟩

/-- Adds a comparison of two variables. -/
def addPair (f : Formula) (left right : String) (equal : Bool) : Formula :=
  f.addEquation (.pair left right equal)

/-- Adds a comparison of a variable with a value. -/
def addValue (f : Formula) (name : String) (v : Int) (equal : Bool) : Formula :=
  f.addEquation (.value name v equal)

/-- The clauses under which a clause is stored. -/
def pieces (c : Clause) : List Clause :=
  if c.isAny && c.size != 1 then [c] else c.equations.map fun e => Clause.allOf [e]

/-- Adds a clause. -/
def add (f : Formula) (c : Clause) : Formula := ⟨f.clauses ++ pieces c⟩

/-- Adds clauses one after the other. -/
def addAll (f : Formula) (cs : List Clause) : Formula := cs.foldl add f

/-- Adds the clauses of another formula. -/
def conjoin (f g : Formula) : Formula := f.addAll g.clauses

/-- The formula made of some clauses. -/
def ofClauses (cs : List Clause) : Formula := empty.addAll cs

/-- Do all clauses hold? Those behind the first that fails are not looked at. -/
def allHold (s : Assignment) : List Clause → Except Fault Bool
  | [] => .ok true
  | c :: cs => do
      if ← c.holds s then allHold s cs else return false

/-- Does the formula hold under an assignment? -/
def holds (s : Assignment) (f : Formula) : Except Fault Bool := allHold s f.clauses

/-- The clauses in brackets. -/
def text (f : Formula) : String :=
  "[" ++ ", ".intercalate (f.clauses.map Clause.text) ++ "]"

end Formula

/-- A formula with a name, such as "the address is that of entry 3". -/
structure Constraint where
  name : String
  formula : Formula
  deriving DecidableEq

/-- The name, then the formula. -/
def Constraint.text (c : Constraint) : String := s!"{c.name}: {c.formula.text}"

/-- Adds the formula of a constraint. -/
def Formula.addConstraint (f : Formula) (c : Constraint) : Formula := f.conjoin c.formula

end FiniteDomain
