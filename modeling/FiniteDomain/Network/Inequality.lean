import FiniteDomain.Network.Basic
import FiniteDomain.Traced

/-!
# Deciding inequalities

An inequality between two variables is decided where their domains allow it. If
they share no value there is nothing to do. If they share one value and one of the
two can take no other, the other one gives that value up. Either way the inequality
is dropped. All others are left to the search.

A variable with more values than it has neighbours to differ from can always be
given a value, whatever its neighbours take. Only the others are critical, and the
search branches on the one with the fewest values.
-/

namespace FiniteDomain

namespace Network

/-- Drops the inequality between two variables. -/
def relax (net : Network) (a b : Nat) : Network :=
  { net with distinct := net.distinct.unlink a b }

/-- Makes `loser` give up the value that `a` and `b` share, and drops their inequality. -/
def concede (net : Network) (a b loser : Nat) (common : Domain) : Traced Phase := do
  .note (.excludes (net.name a) (net.name b) common)
  return .passed ((net.setDomain loser ((net.domain loser).exclude common)).relax a b)

/-- Decides the inequality between two variables if their domains allow it. -/
def decideInequality (net : Network) (a b : Nat) : Traced Phase :=
  let d := net.domain a
  let e := net.domain b
  if d.overlaps e then
    let common := d.intersect e
    if common.isSingleton then
      match d.isSingleton, e.isSingleton with
      | true, true => return .stuck net (.inequality (net.name a) (net.name b))
      | true, false => net.concede a b b common
      | false, true => net.concede a b a common
      | false, false => return .passed net
    else return .passed net
  else do
    .note (.redundant (net.name a) (net.name b))
    return .passed (net.relax a b)

/-- Decides the inequalities of a list, each once. -/
def decideInequalities : List (Nat × Nat) → Network → Traced Phase
  | [], net => return .passed net
  | (a, b) :: rest, net => do
      match ← net.decideInequality a b with
      | .passed net => decideInequalities rest net
      | .stuck net cause => return .stuck net cause

/-- Decides all inequalities that there are, each once. -/
def prune (net : Network) : Traced Phase := decideInequalities net.distinct.edges net

/-- Does a variable have no more values than neighbours to differ from? -/
def isCritical (net : Network) (a : Nat) : Bool :=
  (net.domain a).size ≤ net.distinct.degree a

/-- The one of two variables with fewer values; the first one if they have as many. -/
def tighter (net : Network) (best : Option Nat) (a : Nat) : Option Nat :=
  match best with
  | none => some a
  | some b => if (net.domain a).size < (net.domain b).size then some a else some b

/-- The first critical variable among those with the fewest values. -/
def critical? (net : Network) : Option Nat :=
  (net.distinct.vertices.filter net.isCritical).foldl net.tighter none

end Network

end FiniteDomain
