import FiniteDomain.Demo.Report
import FiniteDomain.Solve.Clause

/-!
# The pigeonhole problem

Some pigeons are to sit in some holes, no two of them in the same one. Each pigeon
is a variable that is just wide enough for the numbers of the holes, and differs from
the numbers that are left over and from every other pigeon.
-/

namespace FiniteDomain.Demo.Pigeonhole

/-- What is asked for. -/
structure Request where
  pigeons : Nat
  /-- The number of holes, if it is not that of the pigeons. -/
  holes? : Option Nat
  budget? : Option Nat
  descending : Bool
  deriving DecidableEq

/-- An optional number. -/
def optionText : Option Nat → String
  | none => "None"
  | some n => s!"Some({n})"

/-- The request as it is echoed. -/
def Request.text (r : Request) : String :=
  "Cli \x7b n: " ++ toString r.pigeons ++ ", values: " ++ optionText r.holes? ++
    ", budget: " ++ optionText r.budget? ++ ", descending: " ++ toString r.descending ++
    " \x7d"

namespace Request

variable (r : Request)

/-- The number of holes. -/
def holes : Nat := r.holes?.getD r.pigeons

/-- The fewest bits, but at least one, in which all holes can be numbered from zero. -/
def width : Nat := Nat.log2 (max r.holes 2 - 1) + 1

theorem width_pos : 0 < r.width := Nat.succ_pos _

/-- A pigeon. -/
def pigeon (i : Nat) : Variable := .ofWidth s!"p{i}" r.width r.width_pos

/-- All pigeons. -/
def flock : List Variable := (List.range r.pigeons).map r.pigeon

/-- A pigeon sits in none of the numbers that are no hole. -/
def inHoles (x : Variable) : List Equation :=
  (List.range (valueCount r.width - r.holes)).map fun (k : Nat) =>
    .value x.name (r.holes + k) false

/-- Every pigeon differs from all that come after it. -/
def apart : List Variable → List Equation
  | [] => []
  | x :: xs => (xs.map fun y => Equation.pair x.name y.name false) ++ apart xs

/-- The whole problem. -/
def equations : List Equation := r.flock.flatMap r.inHoles ++ apart r.flock

/-- How it is solved. -/
def settings : Settings where
  budget := r.budget?
  order := if r.descending then .descending else .ascending

/-- The verdict. -/
def verdict : Except Fault Verdict := do
  let scope ← Scope.ofGroups [r.flock]
  ((Clause.allOf r.equations).solve scope r.settings .witness).outcome

/-- The lines that are printed before the problem is solved. -/
def preamble : List String :=
  [ s!"args = {r.text}"
  , s!"Encoding pigeonhole problem with {r.pigeons} pigeons, {r.holes} holes, " ++
      s!"{r.width}-bit variables"
  , s!"Total {r.equations.length} equations" ]

/-- Runs the demonstration. -/
def report : Report :=
  match r.verdict with
  | .ok v => .finished (r.preamble ++ [s!"status = {v.status.text}", v.text])
  | .error fault => .failed fault.message faultExitCode r.preamble

end Request

end FiniteDomain.Demo.Pigeonhole
