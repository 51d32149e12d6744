import FiniteDomain.Fault

/-!
# Intervals

A closed interval of integers. There is no empty interval: that the bounds are
in order is part of the type, so an operation whose result may be empty returns
an `Option` or a list of pieces.
-/

namespace FiniteDomain

/-- The integers from `lo` to `hi`, both included. -/
structure Interval where
  lo : Int
  hi : Int
  lo_le_hi : lo ≤ hi
  deriving DecidableEq

namespace Interval

/-- The interval between two bounds, unless they are out of order. -/
def between? (lo hi : Int) : Option Interval :=
  if h : lo ≤ hi then some ⟨lo, hi, h⟩ else none

/-- The interval between two bounds, which must be in order. -/
def ofBounds (lo hi : Int) : Except Fault Interval :=
  match between? lo hi with
  | some a => .ok a
  | none => .error (.malformedInterval lo hi)

/-- The interval that holds one value. -/
def point (v : Int) : Interval := ⟨v, v, Int.le_refl v⟩

def isPoint (a : Interval) : Bool := a.lo == a.hi

/-- How many integers the interval holds. -/
def size (a : Interval) : Nat := (a.hi - a.lo + 1).toNat

/-- Is `v` between the bounds? -/
def contains (a : Interval) (v : Int) : Bool := a.lo ≤ v && v ≤ a.hi

instance : Membership Int Interval := ⟨fun a v => a.lo ≤ v ∧ v ≤ a.hi⟩

/-- Do the two intervals share a value? -/
def overlaps (a b : Interval) : Bool := a.lo ≤ b.hi && b.lo ≤ a.hi

/-- The values in both intervals. -/
def intersect? (a b : Interval) : Option Interval :=
  between? (max a.lo b.lo) (min a.hi b.hi)

/-- The least interval that holds both. -/
def hull (a b : Interval) : Interval :=
  ⟨min a.lo b.lo, max a.hi b.hi, by have := a.lo_le_hi; omega⟩

/-- The values of `a` that are not in `b`: a piece below `b` and a piece above. -/
def minus (a b : Interval) : List Interval :=
  (between? a.lo (min a.hi (b.lo - 1))).toList ++
    (between? (max a.lo (b.hi + 1)) a.hi).toList

/-- The values from the lower bound up. -/
def ascending (a : Interval) : List Int :=
  (List.range a.size).map fun (k : Nat) => a.lo + k

/-- The values from the upper bound down. -/
def descending (a : Interval) : List Int :=
  (List.range a.size).map fun (k : Nat) => a.hi - k

/-- A single value is written alone, any other interval by its bounds. -/
def text (a : Interval) : String :=
  if a.isPoint then toString a.lo else s!"[{a.lo}, {a.hi}]"

theorem mem_def (a : Interval) (v : Int) : v ∈ a ↔ a.lo ≤ v ∧ v ≤ a.hi := Iff.rfl

@[simp]
theorem contains_iff (a : Interval) (v : Int) : a.contains v = true ↔ v ∈ a := by
  simp [contains, mem_def]

theorem mem_of_between? {lo hi v : Int} {a : Interval} (h : between? lo hi = some a) :
    v ∈ a ↔ lo ≤ v ∧ v ≤ hi := by
  unfold between? at h
  split at h
  · cases h
    rfl
  · cases h

end Interval

end FiniteDomain
