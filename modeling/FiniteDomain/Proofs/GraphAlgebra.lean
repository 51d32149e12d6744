import FiniteDomain.Proofs.CheckedGraph
import FiniteDomain.Proofs.IndexSetAlgebra
import FiniteDomain.Proofs.OperationSequence
import Mathlib

/-!
# Graphs compute with finite sets of edges

Whatever edges were added to a graph, removed from it or taken off with a vertex, it stands
for the finite set of unordered pairs that the same steps give. Its rows are symmetric, its
counts are those of the set, and what an operation tells about the edge is what happened to
the set.

Both counts are kept by looking at one row while more rows change. What makes them right is
that a row is the set of the edges at its vertex: the number of edges is then the number of
pairs in order, and each degree the number of pairs with the vertex in it.

Equality compares rows, and rows are equal if they have the same members, so two graphs of
as many vertices are equal exactly if they stand for the same set.
-/

namespace FiniteDomain

/-- Index sets whose counts are right are equal exactly if they have the same members. -/
theorem IndexSet.Sound.beq_iff {s t : IndexSet} (hs : s.Sound) (ht : t.Sound) :
    (s == t) = true ↔ ∀ i, s.contains i = true ↔ t.contains i = true := by
  rw [IndexSet.beq_iff]
  refine ⟨fun h i => ?_, fun h => ?_⟩
  · rw [← IndexSet.mem_toList, h.2, IndexSet.mem_toList]
  · have hlist : s.toList = t.toList :=
      IndexSet.toList_eq_of_contains fun i => Bool.eq_iff_iff.2 (h i)
    exact ⟨by rw [hs, ht, hlist], hlist⟩

namespace Graph

variable {g h : Graph} {n m a b : Nat} {E F : Finset (Sym2 Nat)}

/-! ## Graphs and sets of edges side by side -/

/-- Is `g` a graph on `n` vertices made in the same steps as the set `E` of edges? No step is
refused. -/
inductive Built (n : Nat) : Graph → Finset (Sym2 Nat) → Prop where
  | edgeless : Built n (.edgeless n) ∅
  | add {g g' : Graph} {E : Finset (Sym2 Nat)} {a b : Nat} {fresh : Bool} (h : Built n g E)
      (hadd : g.add a b = .ok (fresh, g')) : Built n g' (E ∪ {s(a, b)})
  | remove {g g' : Graph} {E : Finset (Sym2 Nat)} {a b : Nat} {old : Bool} (h : Built n g E)
      (hremove : g.remove a b = .ok (old, g')) : Built n g' (E \ {s(a, b)})
  | detach {g g' : Graph} {E : Finset (Sym2 Nat)} {a : Nat} {row : IndexSet} (h : Built n g E)
      (hdetach : g.detach a = .ok (row, g')) : Built n g' (E.filter (a ∉ ·))

/-- Are the edges of `g` those of the set, each in both of its rows? -/
def Has (g : Graph) (E : Finset (Sym2 Nat)) : Prop :=
  ∀ a b, g.adjacent a b = true ↔ s(a, b) ∈ E

/-! ## What the checked operations return -/

theorem add_eq_ok_iff {r : Bool × Graph} : g.add a b = .ok r ↔
    (a < g.order ∧ b < g.order ∧ a ≠ b) ∧ (!g.adjacent a b, g.link a b) = r := by
  unfold add requireVertex
  by_cases hab : a = b <;> by_cases ha : a < g.order <;> by_cases hb : b < g.order <;>
    simp [hab, ha, hb, bind, Except.bind]

theorem remove_eq_ok_iff {r : Bool × Graph} : g.remove a b = .ok r ↔
    (a < g.order ∧ b < g.order) ∧ (g.adjacent a b, g.unlink a b) = r := by
  unfold remove requireVertex
  by_cases ha : a < g.order <;> by_cases hb : b < g.order <;> simp [ha, hb, bind, Except.bind]

theorem detach_eq_ok_iff {r : IndexSet × Graph} : g.detach a = .ok r ↔
    a < g.order ∧ (g.neighbors a, g.isolate a) = r := by
  unfold detach requireVertex
  by_cases ha : a < g.order <;> simp [ha, bind, Except.bind]

/-- Parting a vertex from itself changes nothing, since it is not its own neighbour. -/
theorem Sound.unlink_self (hg : g.Sound n) (a : Nat) : g.unlink a a = g := by
  have hrow : ∀ c (hc : c < g.rows.size), a = c → (g.rows[c]).erase a = g.rows[c] := by
    intro c hc hac
    have hloop : (g.neighbors c).contains a = false := hac ▸ hg.irrefl a
    rw [neighbors, Array.getD_eq_getD_getElem?, Array.getElem?_eq_getElem hc] at hloop
    rw [IndexSet.erase, if_neg (by simpa using hloop)]
  have hrows : g.rows.modify a (·.erase a) = g.rows := by
    refine Array.ext Array.size_modify fun c hc hc' => ?_
    rw [Array.getElem_modify]
    split
    · next hac => exact hrow c hc' hac
    · rfl
  rw [Graph.unlink, hrows, hrows, hg.irrefl]
  rfl

/-- Each step keeps the graph in form and does to its edges what it does to the set. -/
theorem Built.sound (h : Built n g E) : g.Sound n ∧ g.Has E := by
  induction h with
  | edgeless =>
      refine ⟨sound_edgeless n, fun a b => ?_⟩
      simp
  | @add g g' E a b fresh _ hadd ih =>
      obtain ⟨hg, hE⟩ := ih
      obtain ⟨⟨ha, hb, hab⟩, heq⟩ := add_eq_ok_iff.1 hadd
      cases heq
      refine ⟨hg.link (hg.order_eq ▸ ha) (hg.order_eq ▸ hb) hab, fun c d => ?_⟩
      rw [adjacent_link ha hb hab, hE, Finset.mem_union, Finset.mem_singleton, Sym2.eq_iff]
  | @remove g g' E a b old _ hremove ih =>
      obtain ⟨hg, hE⟩ := ih
      obtain ⟨⟨ha, hb⟩, heq⟩ := remove_eq_ok_iff.1 hremove
      cases heq
      by_cases hab : a = b
      · subst hab
        have hloop : s(a, a) ∉ E := by
          rw [← hE, hg.irrefl]
          exact Bool.false_ne_true
        rw [hg.unlink_self, Finset.sdiff_singleton_eq_erase, Finset.erase_eq_of_notMem hloop]
        exact ⟨hg, hE⟩
      · refine ⟨hg.unlink (hg.order_eq ▸ ha) (hg.order_eq ▸ hb) hab, fun c d => ?_⟩
        rw [adjacent_unlink ha hb hab, hE, Finset.mem_sdiff, Finset.mem_singleton, Sym2.eq_iff,
          not_or]
  | @detach g g' E a row _ hdetach ih =>
      obtain ⟨hg, hE⟩ := ih
      obtain ⟨-, heq⟩ := detach_eq_ok_iff.1 hdetach
      cases heq
      refine ⟨hg.isolate a, fun c d => ?_⟩
      rw [adjacent_isolate hg, hE, Finset.mem_filter, Sym2.mem_iff, not_or, ne_comm, @ne_comm _ d]

/-- A step on vertices that exist is not refused. -/
theorem Built.link (h : Built n g E) (ha : a < n) (hb : b < n) (hab : a ≠ b) :
    Built n (g.link a b) (E ∪ {s(a, b)}) :=
  h.add (add_eq_ok_iff.2 ⟨⟨h.sound.1.lt_order ha, h.sound.1.lt_order hb, hab⟩, rfl⟩)

theorem Built.unlink (h : Built n g E) (ha : a < n) (hb : b < n) :
    Built n (g.unlink a b) (E \ {s(a, b)}) :=
  h.remove (remove_eq_ok_iff.2 ⟨⟨h.sound.1.lt_order ha, h.sound.1.lt_order hb⟩, rfl⟩)

theorem Built.isolate (h : Built n g E) (ha : a < n) :
    Built n (g.isolate a) (E.filter (a ∉ ·)) :=
  h.detach (detach_eq_ok_iff.2 ⟨h.sound.1.lt_order ha, rfl⟩)

/-! ## Counts -/

/-- The number of edges is that of the set: each pair in order stands for one edge. -/
theorem Has.edgeCount_eq (hE : g.Has E) (hg : g.Sound n) : g.edgeCount = E.card := by
  rw [hg.edgeCount_eq]
  refine Finset.card_bij (fun e _ => s(e.1, e.2)) ?_ ?_ ?_
  · intro e he
    exact (hE _ _).1 (Finset.mem_filter.1 he).2.2
  · intro e he e' he' heq
    have hlt := (Finset.mem_filter.1 he).2.1
    have hlt' := (Finset.mem_filter.1 he').2.1
    rcases Sym2.eq_iff.1 heq with ⟨h1, h2⟩ | ⟨h1, h2⟩
    · exact Prod.ext h1 h2
    · omega
  · intro e
    induction e using Sym2.ind with
    | h a b =>
      intro he
      have hab := (hE a b).2 he
      have hmem : ∀ {c d}, g.adjacent c d = true → c < d → (c, d) ∈
          (Finset.range n ×ˢ Finset.range n).filter fun e =>
            e.1 < e.2 ∧ g.adjacent e.1 e.2 = true := by
        intro c d hcd hlt
        rw [Finset.mem_filter, Finset.mem_product, Finset.mem_range, Finset.mem_range]
        exact ⟨⟨hg.lt_left hcd, hg.lt_right hcd⟩, hlt, hcd⟩
      rcases Nat.lt_or_gt_of_ne (hg.ne hab) with hlt | hgt
      · exact ⟨(a, b), hmem hab hlt, rfl⟩
      · exact ⟨(b, a), hmem (hg.symm _ _ hab) hgt, Sym2.eq_swap⟩

/-- The degree of a vertex is the number of edges with the vertex in it. -/
theorem Has.degree_eq (hE : g.Has E) (hg : g.Sound n) (a : Nat) :
    g.degree a = (E.filter (a ∈ ·)).card := by
  rw [hg.degree_eq]
  refine Finset.card_bij (fun b _ => s(a, b)) ?_ ?_ ?_
  · intro b hb
    exact Finset.mem_filter.2 ⟨(hE a b).1 (Finset.mem_filter.1 hb).2, Sym2.mem_mk_left a b⟩
  · exact fun b _ c _ heq => Sym2.congr_right.1 heq
  · intro e he
    obtain ⟨he, b, rfl⟩ := Finset.mem_filter.1 he
    have hab := (hE a b).2 he
    exact ⟨b, Finset.mem_filter.2 ⟨Finset.mem_range.2 (hg.lt_right hab), hab⟩, rfl⟩

theorem Has.mem_vertices (hE : g.Has E) (hg : g.Sound n) : a ∈ g.vertices ↔ 0 < g.degree a := by
  rw [hg.mem_vertices, hE.degree_eq hg, Finset.card_pos]
  refine ⟨?_, ?_⟩
  · rintro ⟨b, hab⟩
    exact ⟨s(a, b), Finset.mem_filter.2 ⟨(hE a b).1 hab, Sym2.mem_mk_left a b⟩⟩
  · rintro ⟨e, he⟩
    obtain ⟨he, b, rfl⟩ := Finset.mem_filter.1 he
    exact ⟨b, (hE a b).2 he⟩

/-! ## Listing -/

/-- Edges are listed by their smaller vertex first, then by the other one. -/
theorem pairwise_edges (g : Graph) : g.edges.Pairwise (Prod.Lex (· < ·) (· < ·)) := by
  refine List.pairwise_flatMap.2 ⟨?_, ?_⟩
  · intro a _
    refine List.pairwise_map.2 (((IndexSet.pairwise_toList _).filter _).imp ?_)
    exact fun hbc => Prod.Lex.right a hbc
  · refine (pairwise_vertices g).imp fun {a b} hab e he f hf => ?_
    obtain ⟨c, -, rfl⟩ := List.mem_map.1 he
    obtain ⟨d, -, rfl⟩ := List.mem_map.1 hf
    exact Prod.Lex.left c d hab

/-! ## Equality -/

theorem neighbors_eq_getElem (ha : a < g.rows.size) : g.neighbors a = g.rows[a] := by
  rw [neighbors, Array.getD_eq_getD_getElem?, Array.getElem?_eq_getElem ha]
  rfl

/-- Rows are compared one by one, each by its members. -/
theorem Sound.rows_beq_iff (hg : g.Sound n) (hh : h.Sound m) : (g.rows == h.rows) = true ↔
    n = m ∧ ∀ a b, g.adjacent a b = true ↔ h.adjacent a b = true := by
  show Array.isEqv g.rows h.rows (· == ·) = true ↔ _
  rw [Array.isEqv_iff_rel, ← hg.order_eq, ← hh.order_eq]
  refine ⟨?_, ?_⟩
  · rintro ⟨hsize, hrow⟩
    have horder : g.order = h.order := hsize
    refine ⟨horder, fun a b => ?_⟩
    rcases Nat.lt_or_ge a g.order with ha | ha
    · have heq := hrow a ha
      rw [← neighbors_eq_getElem ha, ← neighbors_eq_getElem (Nat.lt_of_lt_of_eq ha horder),
        (hg.sound_row a).beq_iff (hh.sound_row a)] at heq
      exact heq b
    · rw [adjacent, adjacent, neighbors_of_order_le ha, neighbors_of_order_le (horder ▸ ha)]
  · rintro ⟨horder, hadj⟩
    refine ⟨horder, fun a ha => ?_⟩
    rw [← neighbors_eq_getElem ha, ← neighbors_eq_getElem (Nat.lt_of_lt_of_eq ha horder),
      (hg.sound_row a).beq_iff (hh.sound_row a)]
    exact hadj a

theorem Sound.beq_iff (hg : g.Sound n) (hh : h.Sound m) :
    (g == h) = true ↔ n = m ∧ ∀ a b, g.adjacent a b = true ↔ h.adjacent a b = true := by
  show (g.rows == h.rows && g.edgeCount == h.edgeCount) = true ↔ _
  rw [Bool.and_eq_true, hg.rows_beq_iff hh, beq_iff_eq]
  refine and_iff_left_of_imp ?_
  rintro ⟨rfl, hadj⟩
  exact Nat.le_antisymm (hg.edgeCount_le hh fun a b => (hadj a b).1)
    (hh.edgeCount_le hg fun a b => (hadj a b).2)

/-! ## The result -/

/-- Is `g` the graph on `n` vertices with the edges `E`, and do its operations know it? -/
structure Refines (g : Graph) (n : Nat) (E : Finset (Sym2 Nat)) : Prop where
  order_eq : g.order = n
  /-- The rows of both ends know an edge, and no row knows its own vertex. -/
  contains_iff : ∀ a b, (g.neighbors a).contains b = true ↔ s(a, b) ∈ E
  symm : ∀ a b, (g.neighbors a).contains b = (g.neighbors b).contains a
  irrefl : ∀ a, (g.neighbors a).contains a = false
  lt_of_mem : ∀ a b, s(a, b) ∈ E → a < n ∧ b < n
  edgeCount_eq : g.edgeCount = E.card
  degree_eq : ∀ a, g.degree a = (E.filter (a ∈ ·)).card
  handshake : ∑ a ∈ Finset.range n, g.degree a = 2 * g.edgeCount
  /-- Adding and removing tell whether the set has changed. -/
  add_iff : ∀ a < n, ∀ b < n, a ≠ b → ∃ fresh, g.add a b = .ok (fresh, g.link a b) ∧
    (fresh = true ↔ E ∪ {s(a, b)} ≠ E)
  remove_iff : ∀ a < n, ∀ b < n, ∃ old, g.remove a b = .ok (old, g.unlink a b) ∧
    (old = true ↔ E \ {s(a, b)} ≠ E)
  /-- Detaching returns what was next to the vertex. -/
  detach_iff : ∀ a < n, ∃ row, g.detach a = .ok (row, g.isolate a) ∧
    ∀ b, row.contains b = true ↔ s(a, b) ∈ E
  /-- No row is looked for that is not there, and no count falls below zero. -/
  linkChecked_eq : ∀ a < n, ∀ b < n, a ≠ b → g.linkChecked a b = .ok (g.link a b)
  unlinkChecked_eq : ∀ a < n, ∀ b < n, g.unlinkChecked a b = .ok (g.unlink a b)
  isolateChecked_eq : ∀ a < n, g.isolateChecked a = .ok (g.isolate a)
  /-- Every edge is listed once, its smaller vertex first. -/
  edges_ascending : g.edges.Pairwise (Prod.Lex (· < ·) (· < ·))
  mem_edges : ∀ a b, (a, b) ∈ g.edges ↔ a < b ∧ s(a, b) ∈ E
  vertices_ascending : g.vertices.Pairwise (· < ·)
  mem_vertices : ∀ a, a ∈ g.vertices ↔ 0 < g.degree a

theorem Has.refines (hE : g.Has E) (hg : g.Sound n) : g.Refines n E where
  order_eq := hg.order_eq
  contains_iff := hE
  symm := hg.comm
  irrefl := hg.irrefl
  lt_of_mem a b hab := ⟨hg.lt_left ((hE a b).2 hab), hg.lt_right ((hE a b).2 hab)⟩
  edgeCount_eq := hE.edgeCount_eq hg
  degree_eq := hE.degree_eq hg
  handshake := hg.handshake
  add_iff a ha b hb hab := by
    refine ⟨_, add_eq_ok_iff.2 ⟨⟨hg.lt_order ha, hg.lt_order hb, hab⟩, rfl⟩, ?_⟩
    rw [Bool.not_eq_true', Bool.eq_false_iff, ne_eq, hE, ne_eq, Finset.union_eq_left,
      Finset.singleton_subset_iff]
  remove_iff a ha b hb := by
    refine ⟨_, remove_eq_ok_iff.2 ⟨⟨hg.lt_order ha, hg.lt_order hb⟩, rfl⟩, ?_⟩
    rw [hE, ne_eq, Finset.sdiff_eq_self_iff_disjoint, Finset.disjoint_singleton_right, not_not]
  detach_iff a ha := ⟨_, detach_eq_ok_iff.2 ⟨hg.lt_order ha, rfl⟩, hE a⟩
  linkChecked_eq _ ha _ hb hab := hg.linkChecked_eq ha hb hab
  unlinkChecked_eq _ ha _ hb := hg.unlinkChecked_eq ha hb
  isolateChecked_eq _ ha := hg.isolateChecked_eq ha
  edges_ascending := pairwise_edges g
  mem_edges a b := by rw [hg.mem_edges, hE, and_comm]
  vertices_ascending := pairwise_vertices g
  mem_vertices _ := hE.mem_vertices hg

/--
A graph that was built by any operations in any order is the simple graph whose edges the
same steps on sets give, and is equal to another one exactly if that one has as many
vertices and the same edges.
-/
theorem Built.refines_edges (h : Built n g E) :
    g.Refines n E ∧ ∀ m g' F, Built m g' F → ((g == g') = true ↔ n = m ∧ E = F) := by
  obtain ⟨hg, hE⟩ := h.sound
  refine ⟨hE.refines hg, fun m g' F h' => ?_⟩
  obtain ⟨hg', hF⟩ := h'.sound
  rw [hg.beq_iff hg']
  refine and_congr_right fun _ => ?_
  simp only [hE _ _, hF _ _]
  refine ⟨fun heq => ?_, fun heq a b => by rw [heq]⟩
  ext e
  induction e using Sym2.ind with
  | h a b => exact heq a b

/-! ## Graphs from lists of edges -/

/-- Can a graph on `n` vertices have this edge, and do its ends have indices? -/
def Admits (n : Nat) (e : Nat × Nat) : Prop :=
  e.1 ≠ e.2 ∧ (e.1 < n ∧ e.1 < Index.limit) ∧ e.2 < n ∧ e.2 < Index.limit

theorem addIndices_eq_ok_iff {e : Nat × Nat} :
    g.addIndices e = .ok h ↔ Admits g.order e ∧ g.link e.1 e.2 = h := by
  by_cases ha : e.1 < Index.limit
  · by_cases hb : e.2 < Index.limit
    · have hstep : g.addIndices e = (g.add e.1 e.2).map Prod.snd := by
        simp only [addIndices, Index.ofNat, ha, hb, dif_pos, bind, Except.bind]
        cases g.add e.1 e.2 <;> rfl
      rw [hstep]
      cases hadd : g.add e.1 e.2 with
      | ok r =>
          obtain ⟨⟨ha', hb', hne⟩, rfl⟩ := add_eq_ok_iff.1 hadd
          exact ⟨fun heq => ⟨⟨hne, ⟨ha', ha⟩, hb', hb⟩, Except.ok.inj heq⟩,
            fun heq => congrArg Except.ok heq.2⟩
      | error fault =>
          refine ⟨fun heq => (by cases heq), ?_⟩
          rintro ⟨⟨hne, ⟨ha', -⟩, hb', -⟩, -⟩
          cases hadd.symm.trans (add_eq_ok_iff.2 ⟨⟨ha', hb', hne⟩, rfl⟩)
    · simp [addIndices, Index.ofNat, Admits, ha, hb, bind, Except.bind]
  · simp [addIndices, Index.ofNat, Admits, ha, bind, Except.bind]

/-- Edges are taken one after the other, unless one of them is not admitted. -/
theorem Built.foldlM_addIndices {es : List (Nat × Nat)} (hg : Built n g E) :
    ((∃ h, es.foldlM addIndices g = .ok h) ↔ ∀ e ∈ es, Admits n e) ∧
      ∀ h, es.foldlM addIndices g = .ok h →
        Built n h (E ∪ (es.map fun e => s(e.1, e.2)).toFinset) := by
  induction es generalizing g E with
  | nil =>
      refine ⟨⟨fun _ => List.forall_mem_nil _, fun _ => ⟨g, rfl⟩⟩, fun h hh => ?_⟩
      cases hh
      rw [List.map_nil, List.toFinset_nil, Finset.union_empty]
      exact hg
  | cons e es ih =>
      have horder := hg.sound.1.order_eq
      rw [List.foldlM_cons, List.forall_mem_cons]
      cases hadd : g.addIndices e with
      | ok next =>
          obtain ⟨he, rfl⟩ := addIndices_eq_ok_iff.1 hadd
          rw [horder] at he
          obtain ⟨hiff, hbuilt⟩ := ih (hg.link he.2.1.1 he.2.2.1 he.1)
          refine ⟨hiff.trans (and_iff_right he).symm, fun h hh => ?_⟩
          rw [List.map_cons, List.toFinset_cons, Finset.insert_eq, ← Finset.union_assoc]
          exact hbuilt h hh
      | error fault =>
          refine ⟨⟨fun hh => (by cases hh.choose_spec), fun hes => ?_⟩, fun h hh => by cases hh⟩
          cases hadd.symm.trans (addIndices_eq_ok_iff.2 ⟨horder ▸ hes.1, rfl⟩)

/-- A graph is read from a list of edges if all of them are admitted, and has those edges. -/
theorem built_ofEdges (n : Nat) (es : List (Nat × Nat)) :
    ((∃ g, ofEdges n es = .ok g) ↔ ∀ e ∈ es, Admits n e) ∧
      ∀ g, ofEdges n es = .ok g → Built n g (es.map fun e => s(e.1, e.2)).toFinset := by
  obtain ⟨hiff, hbuilt⟩ := Built.edgeless.foldlM_addIndices
  refine ⟨hiff, fun g hg => ?_⟩
  rw [← Finset.empty_union (List.toFinset _)]
  exact hbuilt g hg

/-- A triangle whose rows reach into a second word. -/
def triangle : Graph := (((edgeless 70).link 3 65).link 65 64).link 64 3

/-- The triangle without one of its edges, after another edge has come and gone. -/
def worn : Graph := ((triangle.unlink 65 64).link 69 0).isolate 69

/-- What is left is a path, equal to the one whose edges were added the other way round. -/
theorem refines_worn : ∃ E, Built 70 worn E ∧ worn.Refines 70 E ∧ worn.edgeCount = 2 ∧
    worn.degree 3 = 2 ∧ (worn == ((edgeless 70).link 3 64).link 65 3) = true := by
  have htriangle : Built 70 triangle _ :=
    ((Built.edgeless.link (by decide) (by decide) (by decide)).link
      (by decide) (by decide) (by decide)).link (by decide) (by decide) (by decide)
  have hbuilt : Built 70 worn _ :=
    ((htriangle.unlink (by decide) (by decide)).link
      (by decide) (by decide) (by decide)).isolate (by decide)
  have hpath : Built 70 (((edgeless 70).link 3 64).link 65 3) _ :=
    (Built.edgeless.link (by decide) (by decide) (by decide)).link
      (by decide) (by decide) (by decide)
  obtain ⟨hrefines, hequal⟩ := hbuilt.refines_edges
  refine ⟨_, hbuilt, hrefines, ?_, ?_, ?_⟩
  · rw [hrefines.edgeCount_eq]
    decide
  · rw [hrefines.degree_eq]
    decide
  · rw [hequal _ _ _ hpath]
    decide

end Graph

end FiniteDomain
