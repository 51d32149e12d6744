/-!
# Index sets

A set of indices, one bit each, packed into words of 64 bits. The number of
members is kept beside the words. A set grows on its own when an index beyond its
last word is inserted, and it never shrinks, so two sets with the same members may
differ in how many words they have; equality looks at the members alone.

`contains` is the view through which a set is understood: `toList` lists the
indices it answers `true` for, in ascending order.
-/

namespace FiniteDomain

/-- A set of indices as a bitmap. -/
structure IndexSet where
  /-- Bit `i % 64` of word `i / 64` belongs to index `i`. -/
  words : Array UInt64
  /-- How many bits are set. -/
  count : Nat

namespace IndexSet

/-- The bit of an index within its word. -/
def bit (i : Nat) : UInt64 := 1 <<< (UInt64.ofNat (i % 64))

/-- A set without members. -/
def empty : IndexSet := ⟨#[], 0⟩

/-- A set without members that holds the indices below `capacity` without growing. -/
def withCapacity (capacity : Nat) : IndexSet :=
  ⟨Array.replicate ((capacity + 63) / 64) 0, 0⟩

def contains (s : IndexSet) (i : Nat) : Bool :=
  (s.words.getD (i / 64) 0) &&& bit i != 0

def isEmpty (s : IndexSet) : Bool := s.count == 0

/-- Appends empty words until there are at least `n`. -/
def grow (words : Array UInt64) (n : Nat) : Array UInt64 :=
  words ++ Array.replicate (n - words.size) 0

/-- Adds an index. -/
def insert (s : IndexSet) (i : Nat) : IndexSet :=
  if s.contains i then s
  else
    { words := (grow s.words (i / 64 + 1)).modify (i / 64) (· ||| bit i)
      count := s.count + 1 }

/-- Adds an index and tells whether it was new. -/
def insertNew (s : IndexSet) (i : Nat) : Bool × IndexSet :=
  (!s.contains i, s.insert i)

/-- Takes an index out. -/
def erase (s : IndexSet) (i : Nat) : IndexSet :=
  if s.contains i then
    { words := s.words.modify (i / 64) (· &&& ~~~ bit i)
      count := s.count - 1 }
  else s

/-- Takes an index out and tells whether it was there. -/
def eraseOld (s : IndexSet) (i : Nat) : Bool × IndexSet :=
  (s.contains i, s.erase i)

/-- The members whose bits are in word `k`, in ascending order. -/
def inWord (s : IndexSet) (k : Nat) : List Nat :=
  if s.words.getD k 0 == 0 then []
  else ((List.range 64).map (64 * k + ·)).filter s.contains

/-- Puts the members in the first words, so many of them, in front of a list. -/
def collect (s : IndexSet) : Nat → List Nat → List Nat
  | 0, later => later
  | k + 1, later => collect s k (s.inWord k ++ later)

/-- The members in ascending order. -/
def toList (s : IndexSet) : List Nat := s.collect s.words.size []

/-- Counts the members anew. -/
def recount (s : IndexSet) : IndexSet := { s with count := s.toList.length }

/-- All members of both sets. -/
def union (s t : IndexSet) : IndexSet :=
  let wide := grow s.words t.words.size
  recount ⟨wide.mapIdx fun k w => w ||| t.words.getD k 0, 0⟩

/-- Adds the indices of a list one by one. -/
def insertAll (s : IndexSet) (is : List Nat) : IndexSet := is.foldl insert s

/-- The set of the indices in a list. -/
def ofList (is : List Nat) : IndexSet := empty.insertAll is

/-- Two sets are equal when they have the same members. -/
instance : BEq IndexSet := ⟨fun s t => s.count == t.count && s.toList == t.toList⟩

end IndexSet

end FiniteDomain
