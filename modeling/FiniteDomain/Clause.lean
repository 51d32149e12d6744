import FiniteDomain.Equation

/-!
# Clauses

A clause asks for all of its equations or for any one of them. Asking for all of
no equations is asking for nothing; asking for any one of none cannot be met.
-/

namespace FiniteDomain

/-- How the equations of a clause are connected. -/
inductive Connective where
  /-- All equations must hold. -/
  | all
  /-- At least one equation must hold. -/
  | any
  deriving DecidableEq

/-- The word for a connective. -/
def Connective.text : Connective → String
  | all => "And"
  | any => "Or"

/-- Equations under one connective. -/
structure Clause where
  connective : Connective
  equations : List Equation
  deriving DecidableEq

namespace Clause

/-- The conjunction of some equations. -/
def allOf (equations : List Equation) : Clause := ⟨.all, equations⟩

/-- The disjunction of some equations. -/
def anyOf (equations : List Equation) : Clause := ⟨.any, equations⟩

def isAll (c : Clause) : Bool := c.connective == .all

def isAny (c : Clause) : Bool := c.connective == .any

/-- The number of equations. -/
def size (c : Clause) : Nat := c.equations.length

def isEmpty (c : Clause) : Bool := c.equations.isEmpty

/-- Adds an equation at the end. -/
def push (c : Clause) (e : Equation) : Clause :=
  { c with equations := c.equations ++ [e] }

/-- Adds equations at the end. -/
def append (c : Clause) (es : List Equation) : Clause :=
  { c with equations := c.equations ++ es }

/-- Do all equations hold? Those behind the first that fails are not looked at. -/
def allHold (s : Assignment) : List Equation → Except Fault Bool
  | [] => .ok true
  | e :: es => do
      if ← e.holds s then allHold s es else return false

/-- Does any equation hold? Those behind the first that holds are not looked at. -/
def anyHolds (s : Assignment) : List Equation → Except Fault Bool
  | [] => .ok false
  | e :: es => do
      if ← e.holds s then return true else anyHolds s es

/-- Does the clause hold under an assignment? -/
def holds (s : Assignment) (c : Clause) : Except Fault Bool :=
  match c.connective with
  | .all => allHold s c.equations
  | .any => anyHolds s c.equations

/-- The equations in parentheses, or the truth value of an empty clause. -/
def text (c : Clause) : String :=
  match c.connective, c.equations with
  | .all, [] => "true"
  | .any, [] => "false"
  | .all, es => "(" ++ " && ".intercalate (es.map Equation.text) ++ ")"
  | .any, es => "(" ++ " || ".intercalate (es.map Equation.text) ++ ")"

end Clause

end FiniteDomain
