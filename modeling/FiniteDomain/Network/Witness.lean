import FiniteDomain.Network.Basic
import FiniteDomain.Traced

/-!
# Reading off a witness

One variable after the other takes the first value of its domain, and its
neighbours give up what no longer fits. Nothing is tried twice, so this succeeds
only on a network whose inequalities leave enough room. Variables that were merged
into a class take the value of its leader.
-/

namespace FiniteDomain

namespace Network

/-- Gives `i` the value `v` and adapts the domains of its neighbours. -/
def settle (net : Network) (i : Nat) (v : Int) : Network :=
  let only := Domain.singleton v
  let same := (net.equal.neighbors i).toList.foldl
    (fun net j => net.setDomain j ((net.domain j).intersect only)) (net.pin i v)
  (net.distinct.neighbors i).toList.foldl
    (fun net j => net.setDomain j ((net.domain j).exclude only)) same

/-- Picks a value for every leader in a list. The values picked are kept by index. -/
def pick (order : ValueOrder) :
    List Nat → Network → Array (Option Int) → Traced (Network × Array (Option Int))
  | [], net, values => return (net, values)
  | i :: rest, net, values =>
      if net.leader i = i then
        match (net.domain i).first? order with
        | none => .fail (.emptyDomain (net.name i))
        | some v => do
            .note (.picked (net.name i) v)
            pick order rest (net.settle i v) (values.setIfInBounds i (some v))
      else pick order rest net values

/-- Assigns every numbered variable of a list the value of its leader. -/
def assignFrom (net : Network) (values : Array (Option Int)) :
    List (Variable × Nat) → Assignment → Except Fault Assignment
  | [], s => .ok s
  | (x, i) :: rest, s =>
      match values.getD (net.leader i) none with
      | none => .error (.noValue x.name)
      | some v => assignFrom net values rest (s.insert x v)

/-- A value for every variable, and the network with these values settled. -/
def witness (net : Network) (order : ValueOrder) : Traced (Assignment × Network) := do
  let (net, values) ← pick order (List.range net.size) net (Array.replicate net.size none)
  let s ← .ofExcept (net.assignFrom values net.vars.toList.zipIdx .empty)
  if s.size = net.size then return (s, net) else .fail .incompleteAssignment

end Network

end FiniteDomain
