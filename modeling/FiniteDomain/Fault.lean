/-!
# Faults

A fault is a refusal: an argument that breaks a precondition, or an internal
check that did not come out as it should. It is not a verdict. A clause that
no assignment satisfies is answered, not refused, and its reason is a
`Conflict`.

The causes carry only the names, numbers and rendered texts their messages
need, so that every later module can raise them.
-/

namespace FiniteDomain

/-- Why an operation refused to go on. -/
inductive Fault where
  /-- A variable was declared with no bits. -/
  | zeroWidth (name : String)
  /-- A fixed value lies outside the range of its variable's width. -/
  | valueTooWide (value : Int) (name : String) (width : Nat)
  /-- The domain of all values of no bits was asked for. -/
  | emptyWidth
  /-- The bounds of an interval are in the wrong order. -/
  | malformedInterval (lo hi : Int)
  /-- An index does not fit into 32 bits. -/
  | indexTooLarge (index : Nat)
  /-- An edge would join a vertex to itself. -/
  | selfLoop (vertex : Nat)
  /-- An index is not below the number of variables. -/
  | outOfBounds (size index : Nat)
  /-- An equation mentions a variable that the assignment leaves out. -/
  | unassigned (name : String)
  /-- An equation asks a variable to differ from itself. -/
  | selfInequality (name : String)
  /-- A variable turned up in the class of its own equals. -/
  | selfEquality (name : String)
  /-- An equality is left over after all classes were merged. -/
  | equalitiesRemain
  /-- There is no value to pick for a variable. -/
  | emptyDomain (name : String)
  /-- The leader of a variable's class was given no value. -/
  | noValue (name : String)
  /-- Two variables of one network share a name. -/
  | incompleteAssignment
  /-- Two declarations of one name disagree. -/
  | conflictingDeclarations (name first second : String)
  /-- An equation mentions a variable outside the scope. -/
  | undeclared (name : String)
  /-- The witness that was found does not satisfy what was solved. -/
  | rejectedWitness (witness goal : String)
  /-- The search went deeper than there are inequalities to decide. -/
  | searchTooDeep
  deriving DecidableEq

/-- The text of a fault. -/
def Fault.message : Fault → String
  | zeroWidth name => s!"Variable {name} must have a positive width"
  | valueTooWide value name width =>
      s!"Value {value} of variable {name} does not fit into {width} bits"
  | emptyWidth => "Domain width must be positive"
  | malformedInterval lo hi => s!"Range [{lo}, {hi}] is malformed"
  | indexTooLarge index => s!"Variable index {index} is too large"
  | selfLoop vertex => s!"Self-loop on v{vertex} is not allowed"
  | outOfBounds size index =>
      s!"index out of bounds: the len is {size} but the index is {index}"
  | unassigned name => s!"Variable {name} is not assigned"
  | selfInequality name => s!"Unexpected inequality {name} != {name}"
  | selfEquality name => s!"Unexpected equality {name} == {name}"
  | equalitiesRemain => "The set of equalities has not been reduced"
  | emptyDomain name => s!"Empty domain of {name} while building a solution"
  | noValue name => s!"No value for {name}"
  | incompleteAssignment => "The solution does not cover every variable"
  | conflictingDeclarations name first second =>
      s!"Conflicting declarations of {name}: {first} and {second}"
  | undeclared name => s!"The variable has not been declared: {name}"
  | rejectedWitness witness goal => s!"Witness {witness} does not satisfy {goal}"
  | searchTooDeep => "The search exceeded its depth"

end FiniteDomain
