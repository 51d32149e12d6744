import FiniteDomain.Conflict

/-!
# Verdicts

The answer to a problem, and what was asked about it.
-/

namespace FiniteDomain

/-- What is asked. -/
inductive Mode where
  /-- Only whether there is a solution. -/
  | decide
  /-- A solution as well. -/
  | witness
  deriving DecidableEq

/-- The word for a mode. -/
def Mode.text : Mode → String
  | decide => "Sat"
  | witness => "Map"

/-- The kind of an answer. -/
inductive Status where
  | sat
  | unsat
  | unknown
  deriving DecidableEq

/-- The word for a status. -/
def Status.text : Status → String
  | sat => "Sat"
  | unsat => "Unsat"
  | unknown => "Unknown"

/-- An answer. -/
inductive Verdict where
  /-- There is a solution. It is spelled out only if a witness was asked for. -/
  | sat (solution : Assignment)
  /-- There is none. -/
  | unsat (cause : Conflict)
  /-- The budget ran out while these pairs were still to be told apart. -/
  | unknown (pairs : List (String × String))
  deriving DecidableEq

namespace Verdict

def status : Verdict → Status
  | sat _ => .sat
  | unsat _ => .unsat
  | unknown _ => .unknown

def isSat (v : Verdict) : Bool := v.status == .sat

def isUnsat (v : Verdict) : Bool := v.status == .unsat

def solution? : Verdict → Option Assignment
  | sat solution => some solution
  | _ => none

end Verdict

/-- The text of a search that ran out of budget. -/
def exhaustedText (pairs : List (String × String)) : String :=
  s!"UNKNOWN: Search budget exhausted on {differencesText pairs}"

namespace Verdict

/-- Why there is no solution to show. -/
def errors : Verdict → List String
  | sat _ => []
  | unsat cause => [cause.message]
  | unknown pairs => [exhaustedText pairs]

def text : Verdict → String
  | sat solution => s!"SAT: {solution.text}"
  | unsat cause => cause.message
  | unknown pairs => exhaustedText pairs

end Verdict

end FiniteDomain
