import FiniteDomain.ValueOrder

/-!
# Settings

What a caller may choose about how a problem is solved. None of it changes which
problems have a solution.
-/

namespace FiniteDomain

/-- How to solve. -/
structure Settings where
  /-- How many values a search may try. Without a bound it tries all it needs. -/
  budget : Option Nat := none
  /-- Is a witness checked against what was solved before it is handed out? -/
  verify : Bool := true
  /-- The order in which values are tried and witnesses are read off. -/
  order : ValueOrder := .ascending
  deriving DecidableEq

/-- May a search try its `tried`-th value? -/
def Settings.affords (settings : Settings) (tried : Nat) : Bool :=
  match settings.budget with
  | none => true
  | some budget => tried ≤ budget

end FiniteDomain
