import FiniteDomain.Fault

/-!
# Variables

A variable is an unsigned integer of a fixed number of bits, with a name and
perhaps a value that is known from the start. The name alone identifies it: two
variables of one name are the same variable, whatever else they say.
-/

namespace FiniteDomain

/-- How many values so many bits have. -/
def valueCount (width : Nat) : Nat := Nat.pow 2 width

theorem valueCount_pos (width : Nat) : 0 < valueCount width :=
  Nat.pow_pos (by decide)

/-- The largest value of so many bits. -/
def maxOfWidth (width : Nat) : Int := (valueCount width : Int) - 1

theorem maxOfWidth_nonneg (width : Nat) : 0 ≤ maxOfWidth width := by
  have := valueCount_pos width
  unfold maxOfWidth
  omega

/-- A named unsigned integer of `width` bits. -/
structure Variable where
  name : String
  width : Nat
  /-- The value, if it is known from the start. -/
  value? : Option Int
  width_pos : 0 < width
  value_fits : ∀ v ∈ value?, 0 ≤ v ∧ v ≤ maxOfWidth width
  deriving DecidableEq

namespace Variable

/-- A variable that may take every value of its width, which is known to be positive. -/
def ofWidth (name : String) (width : Nat) (width_pos : 0 < width) : Variable where
  name
  width
  value? := none
  width_pos
  value_fits := by simp

/-- A variable that may take every value of its width. -/
def free (name : String) (width : Nat) : Except Fault Variable :=
  if h : 0 < width then .ok (ofWidth name width h) else .error (.zeroWidth name)

/-- A variable with a known value, which must fit into its width. -/
def fixed (name : String) (width : Nat) (value : Int) : Except Fault Variable :=
  if h : 0 < width then
    if fits : 0 ≤ value ∧ value ≤ maxOfWidth width then
      .ok { name, width, value? := some value, width_pos := h,
            value_fits := by simpa using fits }
    else .error (.valueTooWide value name width)
  else .error (.zeroWidth name)

def isFixed (x : Variable) : Bool := x.value?.isSome

/-- The largest value of the variable's width. -/
def maxValue (x : Variable) : Int := maxOfWidth x.width

/-- Is `v` a value of the variable's width? -/
def admits (x : Variable) (v : Int) : Bool := 0 ≤ v && v ≤ x.maxValue

/-- Are these one variable? Only the names count. -/
def same (x y : Variable) : Bool := x.name == y.name

/-- How a declaration is written: name, width and known value. -/
def declaration (x : Variable) : String :=
  match x.value? with
  | none => s!"{x.name}:{x.width}"
  | some v => s!"{x.name}:{x.width}={v}"

end Variable

end FiniteDomain
