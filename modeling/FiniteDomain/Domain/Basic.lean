import FiniteDomain.Interval
import FiniteDomain.ValueOrder
import FiniteDomain.Variable

/-!
# Domains

A domain is the set of values that a variable may still take. It is kept as a
list of intervals in ascending order with a gap of at least one integer between
neighbours, so all values of 64 bits cost one interval. An empty domain is an
ordinary value: nothing is left to choose from.

`Normal` says that a list has that form. It is a predicate on the list and not
part of the type, so that what the operations do to the list and what they do to
the set can be stated apart.
-/

namespace FiniteDomain

/-- A finite set of integers, as a list of intervals. -/
structure Domain where
  intervals : List Interval
  deriving DecidableEq

namespace Domain

/-- The intervals ascend and no two of them could be written as one. -/
def Normal (d : Domain) : Prop :=
  d.intervals.Pairwise fun a b => a.hi + 1 < b.lo

instance : Membership Int Domain := ⟨fun d v => ∃ a ∈ d.intervals, v ∈ a⟩

/-- The domain without values. -/
def empty : Domain := ⟨[]⟩

def ofInterval (a : Interval) : Domain := ⟨[a]⟩

/-- The domain of one value. -/
def singleton (v : Int) : Domain := ofInterval (.point v)

/-- All values of so many bits. -/
def ofWidth (width : Nat) : Domain :=
  ofInterval ⟨0, maxOfWidth width, maxOfWidth_nonneg width⟩

/-- All values of so many bits, of which there must be at least one. -/
def full (width : Nat) : Except Fault Domain :=
  if width = 0 then .error .emptyWidth else .ok (ofWidth width)

/--
Adds an interval to a normal list. Intervals that overlap or touch the new one
are absorbed into it; the others keep their place.
-/
def insertInto (a : Interval) : List Interval → List Interval
  | [] => [a]
  | b :: bs =>
      if a.hi + 1 < b.lo then a :: b :: bs
      else if b.hi + 1 < a.lo then b :: insertInto a bs
      else insertInto (a.hull b) bs

/-- The union of intervals that come in any order and may overlap. -/
def ofIntervals (as : List Interval) : Domain :=
  ⟨as.foldl (fun done a => insertInto a done) []⟩

/-- The values a variable starts with: the known one, or all of its width. -/
def ofVariable (x : Variable) : Domain :=
  match x.value? with
  | some v => singleton v
  | none => ofWidth x.width

def isEmpty (d : Domain) : Bool := d.intervals.isEmpty

/-- Is there exactly one value? -/
def isSingleton (d : Domain) : Bool :=
  match d.intervals with
  | [a] => a.isPoint
  | _ => false

/-- How many values there are. -/
def size (d : Domain) : Nat := d.intervals.foldr (fun a n => a.size + n) 0

def contains (d : Domain) (v : Int) : Bool := d.intervals.any (·.contains v)

/-- The smallest value. -/
def min? (d : Domain) : Option Int := d.intervals.head?.map Interval.lo

/-- The largest value. -/
def max? (d : Domain) : Option Int := d.intervals.getLast?.map Interval.hi

/-- The value that comes first in the given order. -/
def first? (d : Domain) : ValueOrder → Option Int
  | .ascending => d.min?
  | .descending => d.max?

/-- All values in the given order. -/
def values (d : Domain) : ValueOrder → List Int
  | .ascending => d.intervals.flatMap Interval.ascending
  | .descending => d.intervals.reverse.flatMap Interval.descending

/-- Keeps the values in `a`. -/
def intersectInterval (d : Domain) (a : Interval) : Domain :=
  ⟨d.intervals.filterMap (·.intersect? a)⟩

/--
Walks along `bs` with `a` held fixed and collects what they share. Whichever of
the two intervals ends first is done with; once that is `a`, the walk goes on
with `rest` from where it stands.
-/
def meetWith (a : Interval) (rest : List Interval → List Interval) :
    List Interval → List Interval
  | [] => []
  | b :: bs =>
      (a.intersect? b).toList ++
        if a.hi < b.hi then rest (b :: bs) else meetWith a rest bs

/-- What two normal lists share, in one walk along both. -/
def meet : List Interval → List Interval → List Interval
  | [], _ => []
  | a :: as, bs => meetWith a (meet as) bs

/-- The values in both domains. -/
def intersect (d e : Domain) : Domain := ⟨meet d.intervals e.intervals⟩

/--
Walks along `bs` with `a` held fixed and stops at the first interval that shares
a value with it. The steps are those of `meetWith`.
-/
def touchWith (a : Interval) (rest : List Interval → Bool) : List Interval → Bool
  | [] => false
  | b :: bs =>
      a.overlaps b || if a.hi < b.hi then rest (b :: bs) else touchWith a rest bs

/-- Do two normal lists share a value? -/
def touch : List Interval → List Interval → Bool
  | [], _ => false
  | a :: as, bs => touchWith a (touch as) bs

/-- Is some value in both domains? Found without building what they share. -/
def overlaps (d e : Domain) : Bool := touch d.intervals e.intervals

/-- Drops the values in `a`. -/
def excludeInterval (d : Domain) (a : Interval) : Domain :=
  ⟨d.intervals.flatMap (·.minus a)⟩

/-- Drops one value. -/
def excludeValue (d : Domain) (v : Int) : Domain := d.excludeInterval (.point v)

/-- Drops the values of `e`. -/
def exclude (d e : Domain) : Domain := e.intervals.foldl excludeInterval d

/-- The intervals in braces. -/
def text (d : Domain) : String :=
  "\x7b" ++ ", ".intercalate (d.intervals.map Interval.text) ++ "\x7d"

theorem mem_def (d : Domain) (v : Int) : v ∈ d ↔ ∃ a ∈ d.intervals, v ∈ a := Iff.rfl

@[simp]
theorem contains_iff (d : Domain) (v : Int) : d.contains v = true ↔ v ∈ d := by
  simp [contains, mem_def]

end Domain

end FiniteDomain
