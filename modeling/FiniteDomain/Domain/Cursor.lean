import FiniteDomain.Domain.Basic

/-!
# Cursors

A cursor walks through the values of a domain in one of the two orders, one value
at a time, and can be sent back to the start. It holds the intervals that are
still ahead, the nearest first; the interval it stands in loses its value on every
step and is dropped with its last one. The value under the cursor is therefore
always the near end of the first interval, and the cursor is at its end when there
is no interval left.
-/

namespace FiniteDomain

/-- A position in the enumeration of a domain. -/
structure Cursor where
  domain : Domain
  order : ValueOrder
  /-- The values that are still ahead, as intervals, the nearest first. -/
  ahead : List Interval
  deriving DecidableEq

namespace Cursor

/-- The intervals of a domain as a walk in the given order meets them. -/
def path (d : Domain) : ValueOrder → List Interval
  | .ascending => d.intervals
  | .descending => d.intervals.reverse

/-- A cursor on the first value of a domain. -/
def start (d : Domain) (order : ValueOrder) : Cursor := ⟨d, order, path d order⟩

/-- Back to the first value. -/
def rewind (c : Cursor) : Cursor := start c.domain c.order

/-- The end at which a walk enters an interval. -/
def nearEnd (a : Interval) : ValueOrder → Int
  | .ascending => a.lo
  | .descending => a.hi

/-- The interval without the value at which a walk enters it. -/
def dropNear (a : Interval) : ValueOrder → Option Interval
  | .ascending => Interval.between? (a.lo + 1) a.hi
  | .descending => Interval.between? a.lo (a.hi - 1)

/-- The value under the cursor, unless the walk is over. -/
def value? (c : Cursor) : Option Int := c.ahead.head?.map (nearEnd · c.order)

def hasValue (c : Cursor) : Bool := c.value?.isSome

/-- The cursor one value further on. At the end it stays where it is. -/
def advance (c : Cursor) : Cursor :=
  match c.ahead with
  | [] => c
  | a :: rest => { c with ahead := (dropNear a c.order).toList ++ rest }

/-- Takes the value under the cursor and moves on. -/
def next (c : Cursor) : Option Int × Cursor := (c.value?, c.advance)

/-- The values from the cursor on. -/
def remaining (c : Cursor) : List Int :=
  match c.order with
  | .ascending => c.ahead.flatMap Interval.ascending
  | .descending => c.ahead.flatMap Interval.descending

/-- The cursor behind the last value. -/
def finish (c : Cursor) : Cursor := { c with ahead := [] }

end Cursor

end FiniteDomain
