import FiniteDomain.Variable

/-!
# Assignments

An assignment gives values to variables and remembers the order in which the
variables came. A variable is looked up by its name. Assigning one again replaces
its value and keeps both its place and the declaration that came first.
-/

namespace FiniteDomain

/-- Values for some variables, in the order in which the variables came. -/
structure Assignment where
  entries : List (Variable × Int)
  deriving DecidableEq

namespace Assignment

def empty : Assignment := ⟨[]⟩

/-- How many variables have a value. -/
def size (s : Assignment) : Nat := s.entries.length

def isEmpty (s : Assignment) : Bool := s.entries.isEmpty

/-- The value under a name. -/
def get? (s : Assignment) (name : String) : Option Int :=
  (s.entries.find? fun e => e.1.name == name).map Prod.snd

def contains (s : Assignment) (name : String) : Bool := (s.get? name).isSome

/-- The value under a name, which has to be there. -/
def get (s : Assignment) (name : String) : Except Fault Int :=
  match s.get? name with
  | some v => .ok v
  | none => .error (.unassigned name)

/-- Gives `x` the value `v` in a list of entries. -/
def assign (x : Variable) (v : Int) : List (Variable × Int) → List (Variable × Int)
  | [] => [(x, v)]
  | (y, w) :: rest => if y.same x then (y, v) :: rest else (y, w) :: assign x v rest

/-- Gives a variable a value, replacing an earlier one. -/
def insert (s : Assignment) (x : Variable) (v : Int) : Assignment :=
  ⟨assign x v s.entries⟩

/-- Do both give the same names the same values in the same order? -/
def agrees (s t : Assignment) : Bool :=
  s.entries.map (fun e => (e.1.name, e.2)) == t.entries.map (fun e => (e.1.name, e.2))

/-- The entries in braces. -/
def text (s : Assignment) : String :=
  "\x7b" ++ ", ".intercalate (s.entries.map fun e => s!"{e.1.name} = {e.2}") ++ "\x7d"

end Assignment

end FiniteDomain
