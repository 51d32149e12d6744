import FiniteDomain.Domain.Basic
import FiniteDomain.Verdict

/-!
# Events

What a solver reports while it works. An event carries the parts of the problem it
is about; its text is made only when someone wants to read it.
-/

namespace FiniteDomain

/-- How much detail a reader has to ask for to see an event. -/
inductive Level where
  | debug
  | trace
  deriving DecidableEq

/-- The word for a level. -/
def Level.text : Level → String
  | debug => "DEBUG"
  | trace => "TRACE"

/-- A step of a solver. -/
inductive Event where
  /-- A clause is about to be solved. -/
  | solving (clause : Clause) (size : Nat) (mode : Mode)
  /-- A formula is about to be solved. -/
  | solvingFormula (equations disjunctions : Nat)
  /-- So many equalities are about to be merged away. -/
  | merging (equalities : Nat)
  /-- These variables are equal to the first one. -/
  | equalityClass (name : String) (members : List String)
  /-- So many inequalities are about to be decided. -/
  | searching (inequalities : Nat)
  /-- Two variables differ whatever values they take. -/
  | redundant (a b : String)
  /-- Two variables differ once these values are given up. -/
  | excludes (a b : String) (common : Domain)
  /-- These pairs can be told apart without trying values. -/
  | slack (pairs : List (String × String))
  /-- So many values of a variable are about to be tried. -/
  | branching (name : String) (values : Nat)
  /-- A value is tried. -/
  | trying (name : String) (value : Int)
  /-- The search is over after so many values. -/
  | tried (values : Nat)
  /-- A variable gets its value in the witness. -/
  | picked (name : String) (value : Int)
  /-- One equation of a disjunction could not be decided. -/
  | variantUndecided (e : Equation)
  /-- One equation of a disjunction cannot be met. -/
  | variantUnsatisfiable (e : Equation)
  /-- One equation of a disjunction is tried together with what was chosen before. -/
  | choosing (e : Equation) (clause : Clause)
  /-- There is no solution. -/
  | refuted (cause : Conflict)
  /-- The budget ran out. -/
  | exhausted (pairs : List (String × String))

namespace Event

def level : Event → Level
  | solving .. | solvingFormula .. | merging _ | equalityClass .. | searching _
  | tried _ | refuted _ | exhausted _ => .debug
  | redundant .. | excludes .. | slack _ | branching .. | trying .. | picked ..
  | variantUndecided _ | variantUnsatisfiable _ | choosing .. => .trace

def message : Event → String
  | solving clause size mode =>
      s!"Solving {clause.text} over {size} variables in {mode.text} mode"
  | solvingFormula equations disjunctions =>
      s!"Solving formula: {equations} equations, {disjunctions} disjunctions"
  | merging equalities => s!"Eliminating {equalities} equalities"
  | equalityClass name members =>
      s!"Equality class of {name}: [" ++ ", ".intercalate members ++ "]"
  | searching inequalities => s!"Solving {inequalities} inequalities"
  | redundant a b => s!"Inequality {a} != {b} is redundant"
  | excludes a b common => s!"Inequality {a} != {b} excludes {common.text}"
  | slack pairs => s!"Inequalities {differencesText pairs} need no search"
  | branching name values => s!"Branching on {name} over {values} values"
  | trying name value => s!"Trying {name} = {value}"
  | tried values => s!"Search tried {values} values"
  | picked name value => s!"Witness {name} = {value}"
  | variantUndecided e => s!"Variant {e.text} is undecided"
  | variantUnsatisfiable e => s!"Variant {e.text} is unsatisfiable"
  | choosing e clause => s!"Choosing {e.text} from {clause.text}"
  | refuted cause => cause.message
  | exhausted pairs => exhaustedText pairs

/-- The level, then the message. -/
def text (e : Event) : String := s!"{e.level.text} {e.message}"

/-- Does a reader who asked for `detail` see the event? -/
def visibleAt (detail : Level) (e : Event) : Bool :=
  detail == .trace || e.level == .debug

end Event

end FiniteDomain
