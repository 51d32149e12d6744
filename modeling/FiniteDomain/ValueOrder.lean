/-!
# Value orders

The order in which the values of a domain are taken, both by the search and when
a witness is read off.
-/

namespace FiniteDomain

/-- Smallest value first, or largest value first. -/
inductive ValueOrder where
  | ascending
  | descending
  deriving DecidableEq

/-- The word for an order. -/
def ValueOrder.text : ValueOrder → String
  | ascending => "Ascending"
  | descending => "Descending"

end FiniteDomain
