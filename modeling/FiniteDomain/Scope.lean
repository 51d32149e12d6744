import FiniteDomain.Index
import FiniteDomain.Variable

/-!
# Scopes

The variables that a problem may mention. They are declared in groups; a name may
be declared again if the declaration says the same as the first one, and then it
keeps the place of the first. A variable's place is its index.
-/

namespace FiniteDomain

/-- Declared variables, each name once. -/
structure Scope where
  vars : Array Variable

namespace Scope

def empty : Scope := ⟨#[]⟩

/-- How many variables are declared. -/
def size (s : Scope) : Nat := s.vars.size

/-- The index of a name. -/
def find? (s : Scope) (name : String) : Option Nat :=
  s.vars.findIdx? fun x => x.name == name

/-- The index of a name, which has to be declared. -/
def lookup (s : Scope) (name : String) : Except Fault Nat :=
  match s.find? name with
  | some i => .ok i
  | none => .error (.undeclared name)

/-- Adds a declaration. -/
def declare (s : Scope) (x : Variable) : Except Fault Scope :=
  match s.vars.find? (·.same x) with
  | some first =>
      if first.width = x.width ∧ first.value? = x.value? then .ok s
      else .error (.conflictingDeclarations x.name first.declaration x.declaration)
  | none => do
      let _ ← Index.ofNat s.size
      .ok ⟨s.vars.push x⟩

/-- Adds the declarations of all groups, one group after the other. -/
def ofGroups (groups : List (List Variable)) : Except Fault Scope :=
  groups.flatten.foldlM declare empty

end Scope

end FiniteDomain
