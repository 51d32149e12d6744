import FiniteDomain.Fault

/-!
# Indices

The variables of one problem are numbered from zero in the order in which they
are declared. Inside the library a number is a plain `Nat`; `Index` is the form
in which a number from outside is accepted, and it ends at 32 bits.
-/

namespace FiniteDomain

/-- How many variables can be told apart: as many as 32 bits have values. -/
def Index.limit : Nat := 4294967296

/-- The number of a variable. -/
structure Index where
  val : Nat
  val_lt : val < Index.limit
  deriving DecidableEq

namespace Index

/-- Accepts a number that fits into 32 bits. -/
def ofNat (i : Nat) : Except Fault Index :=
  if h : i < limit then .ok ⟨i, h⟩ else .error (.indexTooLarge i)

/-- How an index is written when there is no variable to name. -/
def text (i : Index) : String := s!"v{i.val}"

instance : Ord Index := ⟨fun a b => compare a.val b.val⟩

end Index

end FiniteDomain
