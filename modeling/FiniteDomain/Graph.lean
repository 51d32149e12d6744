import FiniteDomain.Index
import FiniteDomain.IndexSet

/-!
# Graphs

An undirected graph without loops on the vertices `0, …, n - 1`. Every vertex has
a row, the set of its neighbours, and an edge is recorded in both of its rows; the
number of edges is kept beside them.

There are two layers. `link`, `unlink` and `isolate` take for granted that their
vertices exist and differ. The checked operations below them refuse what would
break the graph, and are the ones to use on numbers from outside.
-/

namespace FiniteDomain

/-- An undirected graph as one row of neighbours per vertex. -/
structure Graph where
  rows : Array IndexSet
  /-- How many edges there are, each counted once. -/
  edgeCount : Nat

namespace Graph

/-- The graph on `n` vertices without edges. -/
def edgeless (n : Nat) : Graph :=
  ⟨Array.replicate n (IndexSet.withCapacity n), 0⟩

/-- The number of vertices. -/
def order (g : Graph) : Nat := g.rows.size

def isEdgeless (g : Graph) : Bool := g.edgeCount == 0

/-- The neighbours of a vertex. -/
def neighbors (g : Graph) (a : Nat) : IndexSet := g.rows.getD a .empty

/-- The number of neighbours of a vertex. -/
def degree (g : Graph) (a : Nat) : Nat := (g.neighbors a).count

/-- Is there an edge between `a` and `b`? -/
def adjacent (g : Graph) (a b : Nat) : Bool := (g.neighbors a).contains b

/-- Joins two vertices. -/
def link (g : Graph) (a b : Nat) : Graph :=
  { rows := (g.rows.modify a (·.insert b)).modify b (·.insert a)
    edgeCount := if g.adjacent a b then g.edgeCount else g.edgeCount + 1 }

/-- Parts two vertices. -/
def unlink (g : Graph) (a b : Nat) : Graph :=
  { rows := (g.rows.modify a (·.erase b)).modify b (·.erase a)
    edgeCount := if g.adjacent a b then g.edgeCount - 1 else g.edgeCount }

/-- Removes every edge at a vertex. -/
def isolate (g : Graph) (a : Nat) : Graph :=
  let row := g.neighbors a
  { rows := row.toList.foldl (fun rows b => rows.modify b (·.erase a))
      (g.rows.setIfInBounds a .empty)
    edgeCount := g.edgeCount - row.count }

/-- The vertices that have an edge, in ascending order. -/
def vertices (g : Graph) : List Nat :=
  (List.range g.order).filter fun a => !(g.neighbors a).isEmpty

/-- The later neighbours of a vertex, as edges. -/
def edgesFrom (g : Graph) (a : Nat) : List (Nat × Nat) :=
  ((g.neighbors a).toList.filter (a < ·)).map fun b => (a, b)

/-- Every edge once, its smaller vertex first, in lexicographic order. -/
def edges (g : Graph) : List (Nat × Nat) := g.vertices.flatMap g.edgesFrom

/-- Two graphs are equal when they have as many vertices and the same edges. -/
instance : BEq Graph := ⟨fun g h => g.rows == h.rows && g.edgeCount == h.edgeCount⟩

/-! ## Checked operations -/

/-- Refuses a vertex that does not exist. -/
def requireVertex (g : Graph) (a : Nat) : Except Fault Unit :=
  if a < g.order then .ok () else .error (.outOfBounds g.order a)

/-- Joins two vertices and tells whether the edge is new. -/
def add (g : Graph) (a b : Nat) : Except Fault (Bool × Graph) := do
  if a = b then .error (.selfLoop a)
  g.requireVertex a
  g.requireVertex b
  .ok (!g.adjacent a b, g.link a b)

/-- Parts two vertices and tells whether there was an edge. -/
def remove (g : Graph) (a b : Nat) : Except Fault (Bool × Graph) := do
  g.requireVertex a
  g.requireVertex b
  .ok (g.adjacent a b, g.unlink a b)

/-- Is there an edge at `a` that leads to `b`? Only `a` has to exist. -/
def contains (g : Graph) (a b : Nat) : Except Fault Bool := do
  g.requireVertex a
  .ok (g.adjacent a b)

/-- The neighbours of a vertex, which has to exist. -/
def row (g : Graph) (a : Nat) : Except Fault IndexSet := do
  g.requireVertex a
  .ok (g.neighbors a)

/-- Removes every edge at a vertex and returns its former neighbours. -/
def detach (g : Graph) (a : Nat) : Except Fault (IndexSet × Graph) := do
  g.requireVertex a
  .ok (g.neighbors a, g.isolate a)

/-- Joins two vertices that are given by numbers of any size. -/
def addIndices (g : Graph) (edge : Nat × Nat) : Except Fault Graph := do
  let a ← Index.ofNat edge.1
  let b ← Index.ofNat edge.2
  let (_, g) ← g.add a.val b.val
  return g

/-- The graph on `n` vertices with the given edges. -/
def ofEdges (n : Nat) (edges : List (Nat × Nat)) : Except Fault Graph :=
  edges.foldlM addIndices (edgeless n)

end Graph

end FiniteDomain
