import FiniteDomain.Formula
import FiniteDomain.Network.Equality
import FiniteDomain.Scope
import FiniteDomain.Solve.Search

/-!
# Solving clauses

A conjunction is turned into a network: its equations are imposed one after the
other, equal variables are merged, and what is left are inequalities, which the
search decides. A disjunction is solved by solving its equations one at a time, each
as a conjunction of its own, until one has a solution.

A witness is checked against the clause before it is handed out.
-/

namespace FiniteDomain

namespace Network

/-- Imposes an equation. The index returned is that of its left variable. -/
def impose (scope : Scope) (net : Network) : Equation → Except Fault (Nat × Network)
  | .value name v equal => do
      let i ← scope.lookup name
      return (i, ← net.restrict i v equal)
  | .pair left right equal => do
      let i ← scope.lookup left
      let j ← scope.lookup right
      return (i, ← net.relate i j equal)

/-- Imposes equations until one leaves its left variable without a value. -/
def imposeAll (scope : Scope) : List Equation → Network → Except Fault Phase
  | [], net => .ok (.passed net)
  | e :: es, net => do
      let (i, net) ← net.impose scope e
      if net.viable i then imposeAll scope es net
      else return .stuck net (.equation e)

/-- Merges the equal variables of a network and decides its inequalities. -/
def solve (settings : Settings) (mode : Mode) (net : Network) : Traced Verdict := do
  .note (.merging net.equal.edgeCount)
  match ← net.collapse with
  | .stuck _ cause => refute cause
  | .passed net =>
      .note (.searching net.distinct.edgeCount)
      let (verdict, tried) ← net.search settings mode (net.distinct.edgeCount + 1) 0
      .note (.tried tried)
      return verdict

end Network

namespace Clause

/-- Refuses a witness that does not satisfy the clause. -/
def confirm (settings : Settings) (mode : Mode) (c : Clause) (verdict : Verdict) :
    Except Fault Unit :=
  match mode, verdict with
  | .witness, .sat s =>
      if settings.verify then do
        if ← c.holds s then return () else .error (.rejectedWitness s.text c.text)
      else return ()
  | _, _ => return ()

/-- Reports a clause, solves it in the given way and confirms the verdict. -/
def framed (scope : Scope) (settings : Settings) (mode : Mode) (c : Clause)
    (body : Traced Verdict) : Traced Verdict := do
  .note (.solving c scope.size mode)
  let verdict ← body
  .ofExcept (c.confirm settings mode verdict)
  return verdict

/-- Solves the network of some equations. -/
def solveEquations (scope : Scope) (settings : Settings) (mode : Mode)
    (es : List Equation) : Traced Verdict := do
  let imposed ← .ofExcept (Network.imposeAll scope es (.ofVariables scope.vars))
  match imposed.andThen Network.check with
  | .stuck _ cause => refute cause
  | .passed net => net.solve settings mode

/-- Solves a conjunction. -/
def solveAll (scope : Scope) (settings : Settings) (mode : Mode)
    (es : List Equation) : Traced Verdict :=
  (allOf es).framed scope settings mode (solveEquations scope settings mode es)

/--
Solves the equations of the disjunction `c` one at a time. What is returned when
none of them has a solution is the first answer that was left open, if there is one.
-/
def solveVariants (scope : Scope) (settings : Settings) (mode : Mode) (c : Clause) :
    List Equation → Option (List (String × String)) → Traced Verdict
  | [], some pairs => return .unknown pairs
  | [], none => refute (.clause c)
  | e :: es, undecided => do
      match ← solveAll scope settings mode [e] with
      | .sat s => return .sat s
      | .unknown pairs =>
          .note (.variantUndecided e)
          solveVariants scope settings mode c es (undecided <|> some pairs)
      | .unsat _ =>
          .note (.variantUnsatisfiable e)
          solveVariants scope settings mode c es undecided

/-- Solves a clause over the variables of a scope. -/
def solve (scope : Scope) (settings : Settings) (mode : Mode) (c : Clause) :
    Traced Verdict :=
  match c.connective with
  | .all => solveAll scope settings mode c.equations
  | .any =>
      c.framed scope settings mode (solveVariants scope settings mode c c.equations none)

end Clause

end FiniteDomain
