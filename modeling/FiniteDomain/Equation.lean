import FiniteDomain.Assignment

/-!
# Equations

The atoms of the language: a variable is compared with a value or with another
variable, for equality or for inequality. Variables are mentioned by name.
-/

namespace FiniteDomain

/-- A comparison; `equal` tells `==` from `!=`. -/
inductive Equation where
  /-- A variable against a value. -/
  | value (name : String) (value : Int) (equal : Bool)
  /-- A variable against another one. -/
  | pair (left right : String) (equal : Bool)
  deriving DecidableEq

namespace Equation

/-- The name on the left. -/
def left : Equation → String
  | value name _ _ => name
  | pair left _ _ => left

/-- Is this an equality? -/
def isEqual : Equation → Bool
  | value _ _ equal => equal
  | pair _ _ equal => equal

/-- Is a variable compared with a value? -/
def isValue : Equation → Bool
  | value _ _ _ => true
  | pair _ _ _ => false

/-- The same comparison the other way round. -/
def negate : Equation → Equation
  | value name v equal => value name v !equal
  | pair left right equal => pair left right !equal

/-- Does the equation hold under an assignment? The left name is looked up first. -/
def holds (s : Assignment) : Equation → Except Fault Bool
  | value name v equal => do
      let w ← s.get name
      return (w == v) == equal
  | pair left right equal => do
      let v ← s.get left
      let w ← s.get right
      return (v == w) == equal

/-- The sign of a comparison. -/
def sign (equal : Bool) : String := if equal then "==" else "!="

def text : Equation → String
  | value name v equal => s!"{name} {sign equal} {v}"
  | pair left right equal => s!"{left} {sign equal} {right}"

end Equation

end FiniteDomain
