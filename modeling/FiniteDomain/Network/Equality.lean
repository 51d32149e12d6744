import FiniteDomain.Network.Basic
import FiniteDomain.Traced

/-!
# Merging equal variables

The classes of variables that must be equal are the connected components of the
graph `equal`. Each class is merged into its first variable, its leader: the values
that all members can take become the domain of each of them, and a pair that must
differ is passed on to the leader. When all classes are merged the graph has no
edges left, and the members are kept only to be given their leader's value.

The search for a component runs in rounds and is given one round per vertex. That
is enough: a round that is not the last finds a vertex that no earlier round found.
-/

namespace FiniteDomain

namespace Graph

/-- The vertices next to a frontier that are neither `start` nor seen before. -/
def frontierAfter (g : Graph) (start : Nat) (seen frontier : IndexSet) : IndexSet :=
  .ofList <| (frontier.toList.flatMap fun a => (g.neighbors a).toList).filter
    fun b => b != start && !seen.contains b

/-- Spreads from a frontier for so many rounds, or until nothing new is found. -/
def spread (g : Graph) (start : Nat) : Nat → IndexSet → IndexSet → IndexSet
  | 0, seen, _ => seen
  | rounds + 1, seen, frontier =>
      if frontier.isEmpty then seen
      else
        let next := g.frontierAfter start seen frontier
        spread g start rounds (seen.union next) next

/-- All vertices that can be reached from `start`, without `start` itself. -/
def component (g : Graph) (start : Nat) : IndexSet :=
  g.spread start g.order (g.neighbors start) (g.neighbors start)

end Graph

namespace Network

/-- The variables that must be equal to `head`, which is not one of them. -/
def classOf (net : Network) (head : Nat) : Except Fault IndexSet :=
  let members := net.equal.component head
  if members.contains head then .error (.selfEquality (net.name head))
  else .ok members

/-- Narrows the domain of `head` to what the members of a list can take as well. -/
def narrow (head : Nat) : List Nat → Network → Phase
  | [], net => .passed net
  | m :: ms, net =>
      let net := net.setDomain head ((net.domain head).intersect (net.domain m))
      if net.viable head then narrow head ms net
      else .stuck net (.equality (net.name head) (net.name m))

/-- Gives the members of a list the domain of `head`. -/
def share (head : Nat) (members : List Nat) (net : Network) : Network :=
  members.foldl (fun net' m => net'.setDomain m (net.domain head)) net

/-- Makes `head` differ from the variables that its equal `m` had to differ from. -/
def redirect (head : Nat) (members : IndexSet) (m : Nat) : List Nat → Network → Phase
  | [], net => .passed net
  | other :: others, net =>
      if other = head || members.contains other then
        .stuck net (.contradiction (net.name m) (net.name other))
      else
        redirect head members m others
          { net with distinct := net.distinct.link head other }

/-- Takes over the inequalities of the members of a list, one member at a time. -/
def takeOver (head : Nat) (members : IndexSet) : List Nat → Network → Phase
  | [], net => .passed net
  | m :: ms, net =>
      let others := (net.distinct.neighbors m).toList
      (redirect head members m others { net with distinct := net.distinct.isolate m }).andThen
        (takeOver head members ms)

/-- Moves the inequalities of a class to `head`. -/
def gather (head : Nat) (members : IndexSet) (net : Network) : Phase :=
  match (net.distinct.neighbors head).toList.find? members.contains with
  | some m => .stuck net (.contradiction (net.name head) (net.name m))
  | none => takeOver head members members.toList net

/-- Makes `head` the leader of the members of a list. -/
def lead (head : Nat) (members : List Nat) (net : Network) : Network :=
  { net with
    leaders := members.foldl (fun leaders m => leaders.setIfInBounds m head) net.leaders }

/-- Merges a class into `head`. -/
def mergeClass (head : Nat) (members : IndexSet) (net : Network) : Phase :=
  (narrow head members.toList net).andThen fun net =>
    (gather head members (share head members.toList net)).andThen fun net =>
      .passed (lead head members.toList net)

/-- Merges the class of every variable in a list that no class has swallowed yet. -/
def mergeClasses : List Nat → IndexSet → Network → Traced Phase
  | [], _, net => return .passed net
  | head :: heads, swallowed, net =>
      if swallowed.contains head then mergeClasses heads swallowed net
      else do
        let members ← .ofExcept (net.classOf head)
        .note (.equalityClass (net.name head) (members.toList.map net.name))
        match mergeClass head members net with
        | .passed net => mergeClasses heads (swallowed.union members) net
        | .stuck net cause => return .stuck net cause

/-- Forgets all equalities. -/
def clearEqual (net : Network) : Network :=
  { net with equal := (List.range net.size).foldl Graph.isolate net.equal }

/-- Merges all classes of equal variables. -/
def collapse (net : Network) : Traced Phase := do
  match ← mergeClasses net.equal.vertices (.withCapacity net.size) net with
  | .stuck net cause => return .stuck net cause
  | .passed net =>
      let net := net.clearEqual
      if net.equal.isEdgeless then return .passed net else .fail .equalitiesRemain

end Network

end FiniteDomain
