import FiniteDomain.Solve.Clause

/-!
# Solving formulas

The conjunctions of a formula are solved together as one. From each disjunction one
equation is chosen, in order and backtracking over the choices. A choice is extended
only if it has a solution as far as it goes; a complete one is solved in the mode
that was asked for.
-/

namespace FiniteDomain

namespace Formula

/-- The equations that must all hold. -/
def conjunction (f : Formula) : List Equation :=
  (f.clauses.filter Clause.isAll).flatMap Clause.equations

/-- The clauses of which one equation must hold. -/
def disjunctions (f : Formula) : List Clause := f.clauses.filter fun c => !c.isAll

/--
Has a choice a solution as far as it goes? That is asked only if there is more to
choose, since a complete choice is solved anyway.
-/
def outlook (scope : Scope) (settings : Settings) (ahead : Bool) (es : List Equation) :
    Traced Verdict :=
  if ahead then Clause.solveAll scope settings .decide es else return .sat .empty

/--
Goes on with `next` if the first answer is that there is a solution. Only then is
`next` worked out, which is what keeps a hopeless choice from being extended.
-/
def followUp (first : Traced Verdict) (next : Unit → Traced Verdict) : Traced Verdict := do
  match ← first with
  | .sat _ => next ()
  | .unsat cause => return .unsat cause
  | .unknown pairs => return .unknown pairs

/--
Tries the equations of the disjunction `c` on top of `chosen`. If `ahead` is set
there are disjunctions left, and an equation is only followed up by `deeper` if it
has a solution together with what was chosen. What is returned when none of them has
a solution is the first answer that was left open, if there is one.
-/
def tryEquations (scope : Scope) (settings : Settings) (ahead : Bool)
    (deeper : List Equation → Traced Verdict) (c : Clause) (chosen : List Equation) :
    List Equation → Option (List (String × String)) → Traced Verdict
  | [], some pairs => return .unknown pairs
  | [], none => refute (.clause c)
  | e :: es, undecided => do
      .note (.choosing e c)
      let candidate := chosen ++ [e]
      let verdict ← followUp (outlook scope settings ahead candidate) fun _ => deeper candidate
      match verdict with
      | .sat s => return .sat s
      | .unsat _ => tryEquations scope settings ahead deeper c chosen es undecided
      | .unknown pairs =>
          tryEquations scope settings ahead deeper c chosen es (undecided <|> some pairs)

/-- Chooses an equation from each clause of a list on top of what was chosen before. -/
def choose (scope : Scope) (settings : Settings) (mode : Mode) :
    List Clause → List Equation → Traced Verdict
  | [], chosen => Clause.solveAll scope settings mode chosen
  | c :: cs, chosen =>
      tryEquations scope settings (!cs.isEmpty) (choose scope settings mode cs) c chosen
        c.equations none

/-- Refuses a witness that does not satisfy the formula. -/
def confirm (settings : Settings) (mode : Mode) (f : Formula) (verdict : Verdict) :
    Except Fault Unit :=
  match mode, verdict with
  | .witness, .sat s =>
      if settings.verify then do
        if ← f.holds s then return () else .error (.rejectedWitness s.text f.text)
      else return ()
  | _, _ => return ()

/-- Solves a formula over the variables of a scope. -/
def solve (scope : Scope) (settings : Settings) (mode : Mode) (f : Formula) :
    Traced Verdict := do
  let base := f.conjunction
  let disjunctions := f.disjunctions
  .note (.solvingFormula base.length disjunctions.length)
  followUp (outlook scope settings (!disjunctions.isEmpty) base) fun _ => do
    let verdict ← choose scope settings mode disjunctions base
    .ofExcept (f.confirm settings mode verdict)
    return verdict

end Formula

end FiniteDomain
