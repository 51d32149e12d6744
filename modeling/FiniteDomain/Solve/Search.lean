import FiniteDomain.Network.Inequality
import FiniteDomain.Network.Witness
import FiniteDomain.Settings

/-!
# Searching

The inequalities that are left when equal variables have been merged are decided by
trying values. At every level of the search all inequalities that the domains decide
are dropped first. If then no variable is critical there is a solution; otherwise
the values of the tightest critical variable are tried in turn.

The search is given a depth, which is bookkeeping and not a bound on what it can
solve. Fixing the variable that a level branches on decides all inequalities of that
variable on the next level, so every level but the first starts from at least one
inequality less than the level above, and one level more than there are
inequalities is deep enough.
-/

namespace FiniteDomain

/-- The verdict that there is no solution. -/
def refute (cause : Conflict) : Traced Verdict := do
  .note (.refuted cause)
  return .unsat cause

namespace Network

/-- The verdict on a network that has a solution. -/
def accept (settings : Settings) (mode : Mode) (net : Network) : Traced Verdict :=
  match mode with
  | .decide => return .sat .empty
  | .witness => do
      let (s, _) ← net.witness settings.order
      return .sat s

/--
Tries values for one variable until one of them gives an answer that is not a
refutation. Along with the verdict goes the number of values tried so far in the
whole search.
-/
def tryValues (settings : Settings) (deeper : Network → Nat → Traced (Verdict × Nat))
    (net : Network) (x : Nat) : List Int → Nat → Traced (Verdict × Nat)
  | [], tried => do
      let verdict ← refute (.inequalities net.differences)
      return (verdict, tried)
  | v :: vs, tried =>
      let tried := tried + 1
      if settings.affords tried then do
        .note (.trying (net.name x) v)
        match ← deeper (net.pin x v) tried with
        | (.unsat _, tried) => tryValues settings deeper net x vs tried
        | (verdict, tried) => return (verdict, tried)
      else do
        .note (.exhausted net.differences)
        return (.unknown net.differences, tried)

/-- Decides the inequalities of a network, no deeper than so many levels. -/
def search (settings : Settings) (mode : Mode) :
    Nat → Network → Nat → Traced (Verdict × Nat)
  | 0, _, _ => .fail .searchTooDeep
  | depth + 1, net, tried =>
      if net.distinct.isEdgeless then do
        let verdict ← net.accept settings mode
        return (verdict, tried)
      else do
        match ← net.prune with
        | .stuck _ cause =>
            let verdict ← refute cause
            return (verdict, tried)
        | .passed net =>
            match net.critical? with
            | none =>
                .note (.slack net.differences)
                let verdict ← net.accept settings mode
                return (verdict, tried)
            | some x =>
                let values := (net.domain x).values settings.order
                .note (.branching (net.name x) values.length)
                tryValues settings (search settings mode depth) net x values tried

end Network

end FiniteDomain
