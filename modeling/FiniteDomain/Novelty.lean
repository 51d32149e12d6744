/-!
# Novelty

Which items of a list are new when they come up. This is what a set tells of the items
that are put into it one after the other, each compared with the others by the equality
of its type.
-/

namespace FiniteDomain

variable {α : Type} [BEq α]

/-- For every item of a list, whether it is neither in `seen` nor came before. -/
def noveltyAfter (seen : List α) : List α → List Bool
  | [] => []
  | x :: xs => (!seen.contains x) :: noveltyAfter (x :: seen) xs

/-- For every item of a list, whether no equal item came before it. -/
def novelty (xs : List α) : List Bool := noveltyAfter [] xs

end FiniteDomain
