import FiniteDomain.Clause

/-!
# Conflicts

Why there is no solution: the part of the problem at which the contradiction came
to light. A conflict names variables and says nothing about how it was found.
-/

namespace FiniteDomain

/-- Pairs of variables that must differ, in braces. -/
def differencesText (pairs : List (String × String)) : String :=
  "\x7b" ++ ", ".intercalate (pairs.map fun p => s!"{p.1} != {p.2}") ++ "\x7d"

/-- What cannot be met. -/
inductive Conflict where
  /-- This equation leaves its left variable without a value. -/
  | equation (e : Equation)
  /-- This variable had no value to begin with. -/
  | emptyDomain (name : String)
  /-- These equal variables have no value in common. -/
  | equality (a b : String)
  /-- These equal variables must also differ. -/
  | contradiction (a b : String)
  /-- These variables must differ and can only take the same value. -/
  | inequality (a b : String)
  /-- These pairs cannot all differ. -/
  | inequalities (pairs : List (String × String))
  /-- No equation of this clause can be met. -/
  | clause (c : Clause)
  deriving DecidableEq

/-- The text of a conflict. -/
def Conflict.message : Conflict → String
  | equation e => s!"UNSAT: {e.text}"
  | emptyDomain name => s!"UNSAT: Empty domain {name}"
  | equality a b => s!"UNSAT: Equality {a} == {b}"
  | contradiction a b => s!"UNSAT: {a} == {b} && {a} != {b}"
  | inequality a b => s!"UNSAT: Inequality {a} != {b}"
  | inequalities pairs => s!"UNSAT: {differencesText pairs}"
  | clause c => s!"UNSAT: {c.text}"

end FiniteDomain
