import FiniteDomain.Conflict
import FiniteDomain.Domain.Basic
import FiniteDomain.Graph

/-!
# Constraint networks

A network holds what a solver knows while it works: for every variable the values
it may still take, a graph of the pairs that must be equal and a graph of the pairs
that must differ. Variables are numbered by their place in `vars`.

When variables that must be equal have been merged, `leaders` gives for each of
them the one that speaks for its class; a variable that was never merged is its own
leader.

A phase of solving either passes and leaves a network to go on with, or gets stuck
at a conflict. The network of a stuck phase is what the phase had done by then.
-/

namespace FiniteDomain

/-- The working state of a solver. -/
structure Network where
  vars : Array Variable
  domains : Array Domain
  /-- Pairs that must take the same value. -/
  equal : Graph
  /-- Pairs that must take different values. -/
  distinct : Graph
  /-- For every variable, the first one of its class. -/
  leaders : Array Nat

/-- How a phase of solving ended. -/
inductive Phase where
  | passed (network : Network)
  | stuck (network : Network) (cause : Conflict)

namespace Phase

/-- The network a phase leaves behind. -/
def network : Phase → Network
  | passed network => network
  | stuck network _ => network

/-- The conflict a phase is stuck at. -/
def cause? : Phase → Option Conflict
  | passed _ => none
  | stuck _ cause => some cause

/-- Goes on with another phase, unless this one is stuck. -/
def andThen (p : Phase) (next : Network → Phase) : Phase :=
  match p with
  | passed network => next network
  | stuck network cause => stuck network cause

end Phase

namespace Network

/-- The network in which nothing is known but the variables. -/
def ofVariables (vars : Array Variable) : Network where
  vars
  domains := vars.map Domain.ofVariable
  equal := .edgeless vars.size
  distinct := .edgeless vars.size
  leaders := Array.range vars.size

/-- How many variables there are. -/
def size (net : Network) : Nat := net.vars.size

/-- The name of a variable. -/
def name (net : Network) (i : Nat) : String :=
  match net.vars[i]? with
  | some x => x.name
  | none => ""

/-- The values a variable may still take. -/
def domain (net : Network) (i : Nat) : Domain := net.domains.getD i .empty

/-- The variable that speaks for the class of `i`. -/
def leader (net : Network) (i : Nat) : Nat := net.leaders.getD i i

/-- Gives a variable another domain. -/
def setDomain (net : Network) (i : Nat) (d : Domain) : Network :=
  { net with domains := net.domains.setIfInBounds i d }

/-- Is there a value left for a variable? -/
def viable (net : Network) (i : Nat) : Bool := !(net.domain i).isEmpty

/-- The first variable that has no value left. -/
def emptied? (net : Network) : Option String :=
  (net.domains.findIdx? Domain.isEmpty).map net.name

/-- Refuses to go on with a variable that has no value left. -/
def check (net : Network) : Phase :=
  match net.emptied? with
  | some name => .stuck net (.emptyDomain name)
  | none => .passed net

/-- The pairs that must differ, by name. -/
def differences (net : Network) : List (String × String) :=
  net.distinct.edges.map fun e => (net.name e.1, net.name e.2)

/-! ## Imposing equations -/

/-- Refuses an index that belongs to no variable. -/
def requireVariable (net : Network) (i : Nat) : Except Fault Unit :=
  if i < net.size then .ok () else .error (.outOfBounds net.size i)

/-- Leaves a variable only the value `v`. -/
def pin (net : Network) (i : Nat) (v : Int) : Network :=
  net.setDomain i (.singleton v)

/-- Leaves a variable only the value `v`, if there is such a variable. -/
def fix (net : Network) (i : Nat) (v : Int) : Except Fault Network := do
  net.requireVariable i
  return net.pin i v

/-- Makes a variable equal, or unequal, to a value. -/
def restrict (net : Network) (i : Nat) (v : Int) (equal : Bool) :
    Except Fault Network := do
  net.requireVariable i
  let d := net.domain i
  return net.setDomain i (if equal then d.intersectInterval (.point v) else d.excludeValue v)

/--
Makes two variables equal, or unequal. A variable is equal to itself
already, and asking it to differ from itself is refused.
-/
def relate (net : Network) (i j : Nat) (equal : Bool) : Except Fault Network := do
  net.requireVariable i
  net.requireVariable j
  if i = j then
    if equal then return net else .error (.selfInequality (net.name i))
  else if equal then return { net with equal := net.equal.link i j }
  else return { net with distinct := net.distinct.link i j }

end Network

end FiniteDomain
