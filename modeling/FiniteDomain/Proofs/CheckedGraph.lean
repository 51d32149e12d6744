import FiniteDomain.Proofs.Checked
import FiniteDomain.Proofs.GraphComponent
import Mathlib

/-!
# Graphs whose vertices exist

`link`, `unlink` and `isolate` take it for granted that their vertices exist and
differ, and that no count is lowered below zero. On a sound graph, and at vertices
that exist, they may: the checked forms do the same and never stop.

The one thing that is not plain from the rows is the number of edges, which `isolate`
lowers by a whole row at once. That it holds as much follows from the handshake
equation, since the edges at one vertex count once for that vertex and once for the
vertices at their other ends.
-/

namespace FiniteDomain

open Checked

namespace Graph

variable {g : Graph} {n a b start : Nat} {rows : Array IndexSet}

/-- Changes a row, which has to be there. -/
def modifyRow (f : IndexSet → Checked IndexSet) (rows : Array IndexSet) (a : Nat) :
    Checked (Array IndexSet) := do
  require rows.size a
  let row ← f (rows.getD a .empty)
  return rows.setIfInBounds a row

/-- Are the counts of all rows right? -/
def SoundRows (rows : Array IndexSet) : Prop := ∀ c, (rows.getD c .empty).Sound

theorem setIfInBounds_getD {f : IndexSet → IndexSet} (ha : a < rows.size) :
    rows.setIfInBounds a (f (rows.getD a .empty)) = rows.modify a f := by
  refine Array.ext ?_ fun c hc hc' => ?_
  · rw [Array.size_setIfInBounds, Array.size_modify]
  · rw [Array.getElem_setIfInBounds, Array.getElem_modify]
    split
    · next hac =>
        subst hac
        simp
    · rfl

theorem modifyRow_eq {f : IndexSet → Checked IndexSet} {f' : IndexSet → IndexSet}
    (ha : a < rows.size) (hf : f (rows.getD a .empty) = .ok (f' (rows.getD a .empty))) :
    modifyRow f rows a = .ok (rows.modify a f') := by
  rw [modifyRow, require_of_lt ha, hf, ← setIfInBounds_getD ha]
  rfl

theorem SoundRows.modify {f : IndexSet → IndexSet} (h : SoundRows rows)
    (hf : ∀ s, s.Sound → (f s).Sound) (ha : a < rows.size) : SoundRows (rows.modify a f) := by
  intro c
  rw [IndexSet.getD_modify _ _ _ ha]
  split
  · exact hf _ (h c)
  · exact h c

theorem SoundRows.setIfInBounds (h : SoundRows rows) (a : Nat) :
    SoundRows (rows.setIfInBounds a .empty) := by
  intro c
  rw [Array.getD_eq_getD_getElem?, Array.getElem?_setIfInBounds]
  split
  · split <;> exact IndexSet.sound_empty
  · rw [← Array.getD_eq_getD_getElem?]
    exact h c

/-! ## Operations -/

/-- The neighbours of a vertex that has a row. -/
def neighborsChecked (g : Graph) (a : Nat) : Checked IndexSet := do
  require g.order a
  return g.neighbors a

/-- Joins two vertices that exist and differ. -/
def linkChecked (g : Graph) (a b : Nat) : Checked Graph := do
  if a = b then refuse (.selfLoop a)
  else
    let rows ← modifyRow (·.insertChecked b) g.rows a
    let rows ← modifyRow (·.insertChecked a) rows b
    return ⟨rows, if g.adjacent a b then g.edgeCount else g.edgeCount + 1⟩

/-- Parts two vertices that exist, with an eye on all counts. -/
def unlinkChecked (g : Graph) (a b : Nat) : Checked Graph := do
  let rows ← modifyRow (·.eraseChecked b) g.rows a
  let rows ← modifyRow (·.eraseChecked a) rows b
  if g.adjacent a b then
    let edgeCount ← subtract g.edgeCount 1
    return ⟨rows, edgeCount⟩
  else return ⟨rows, g.edgeCount⟩

/-- Removes every edge at a vertex that exists, with an eye on all counts. -/
def isolateChecked (g : Graph) (a : Nat) : Checked Graph := do
  let row ← g.neighborsChecked a
  let rows ← row.toList.foldlM (modifyRow (·.eraseChecked a)) (g.rows.setIfInBounds a .empty)
  let edgeCount ← subtract g.edgeCount row.count
  return ⟨rows, edgeCount⟩

/-- Lists every edge once. -/
def edgesChecked (g : Graph) : Checked (List (Nat × Nat)) := do
  let _ ← g.vertices.mapM g.neighborsChecked
  return g.edges

/-- The vertices next to a frontier that are neither `start` nor seen before. -/
def frontierAfterChecked (g : Graph) (start : Nat) (seen frontier : IndexSet) :
    Checked IndexSet := do
  let rows ← frontier.toList.mapM g.neighborsChecked
  IndexSet.ofListChecked <|
    (rows.flatMap IndexSet.toList).filter fun b => b != start && !seen.contains b

/-- Spreads from a frontier for so many rounds, or until nothing new is found. -/
def spreadChecked (g : Graph) (start : Nat) : Nat → IndexSet → IndexSet → Checked IndexSet
  | 0, seen, _ => .ok seen
  | rounds + 1, seen, frontier =>
      if frontier.isEmpty then .ok seen
      else do
        let next ← g.frontierAfterChecked start seen frontier
        spreadChecked g start rounds (seen.union next) next

/-- All vertices that can be reached from `start`, without `start` itself. -/
def componentChecked (g : Graph) (start : Nat) : Checked IndexSet := do
  let row ← g.neighborsChecked start
  g.spreadChecked start g.order row row

theorem neighborsChecked_eq (ha : a < g.order) : g.neighborsChecked a = .ok (g.neighbors a) := by
  rw [neighborsChecked, require_of_lt ha]
  rfl

theorem edgesChecked_eq (g : Graph) : g.edgesChecked = .ok g.edges := by
  have hrows : g.vertices.mapM g.neighborsChecked = .ok (g.vertices.map g.neighbors) := by
    refine mapM_eq_ok fun a ha => neighborsChecked_eq ?_
    exact List.mem_range.1 (List.mem_of_mem_filter ha)
  rw [edgesChecked, hrows]
  rfl

namespace Sound

/-- A vertex has no more neighbours than there are edges. -/
theorem degree_le_edgeCount (hg : g.Sound n) (a : Nat) : g.degree a ≤ g.edgeCount := by
  -- Each edge at `a` counts once for `a` and once for its other end.
  have hends : ∀ c, (if c = a then g.degree a else 0) + (if g.adjacent a c = true then 1 else 0) ≤
      g.degree c := by
    intro c
    by_cases hca : c = a
    · subst hca
      simp [hg.irrefl]
    · rw [if_neg hca, Nat.zero_add]
      split
      · next hac =>
          have hmem := IndexSet.mem_toList.2 (hg.symm a c hac)
          have hpos := List.length_pos_of_mem hmem
          rwa [← hg.sound_row c] at hpos
      · exact Nat.zero_le _
  have hsum := Finset.sum_le_sum fun c (_ : c ∈ Finset.range n) => hends c
  rw [Finset.sum_add_distrib, hg.sum_adjacent, Finset.sum_ite_eq', hg.handshake] at hsum
  split at hsum
  · omega
  · next hmem =>
      rw [Finset.mem_range, ← hg.order_eq, Nat.not_lt] at hmem
      rw [degree, neighbors_of_order_le hmem]
      exact Nat.zero_le _

theorem lt_order (hg : g.Sound n) (ha : a < n) : a < g.order := hg.order_eq.symm ▸ ha

theorem linkChecked_eq (hg : g.Sound n) (ha : a < n) (hb : b < n) (hab : a ≠ b) :
    g.linkChecked a b = .ok (g.link a b) := by
  have hfirst : modifyRow (·.insertChecked b) g.rows a = .ok (g.rows.modify a (·.insert b)) :=
    modifyRow_eq (hg.lt_order ha) (IndexSet.insertChecked_eq _ b)
  have hb' : b < (g.rows.modify a (·.insert b)).size := by
    rw [Array.size_modify]
    exact hg.lt_order hb
  have hsecond : modifyRow (·.insertChecked a) (g.rows.modify a (·.insert b)) b =
      .ok ((g.rows.modify a (·.insert b)).modify b (·.insert a)) :=
    modifyRow_eq hb' (IndexSet.insertChecked_eq _ a)
  rw [linkChecked, if_neg hab, hfirst, ok_bind, hsecond, ok_bind]
  rfl

theorem unlinkChecked_eq (hg : g.Sound n) (ha : a < n) (hb : b < n) :
    g.unlinkChecked a b = .ok (g.unlink a b) := by
  have hrows : SoundRows g.rows := hg.sound_row
  have hfirst : modifyRow (·.eraseChecked b) g.rows a = .ok (g.rows.modify a (·.erase b)) :=
    modifyRow_eq (hg.lt_order ha) ((hrows a).eraseChecked_eq b)
  have hrows' : SoundRows (g.rows.modify a (·.erase b)) :=
    hrows.modify (fun s hs => hs.erase b) (hg.lt_order ha)
  have hb' : b < (g.rows.modify a (·.erase b)).size := by
    rw [Array.size_modify]
    exact hg.lt_order hb
  have hsecond : modifyRow (·.eraseChecked a) (g.rows.modify a (·.erase b)) b =
      .ok ((g.rows.modify a (·.erase b)).modify b (·.erase a)) :=
    modifyRow_eq hb' ((hrows' b).eraseChecked_eq a)
  rw [unlinkChecked, hfirst, ok_bind, hsecond, ok_bind, Graph.unlink]
  cases hadj : g.adjacent a b with
  | true =>
      have hpos : 1 ≤ g.edgeCount := by
        by_contra hzero
        have hedgeless : g.isEdgeless = true := by
          rw [isEdgeless, beq_iff_eq]
          omega
        rw [hg.isEdgeless_iff.1 hedgeless] at hadj
        cases hadj
      rw [if_pos rfl, subtract_of_le hpos]
      rfl
  | false => rfl

theorem isolateChecked_eq (hg : g.Sound n) (ha : a < n) :
    g.isolateChecked a = .ok (g.isolate a) := by
  have hrows : SoundRows (g.rows.setIfInBounds a .empty) :=
    SoundRows.setIfInBounds hg.sound_row a
  -- Erasing `a` from one row keeps the counts of all rows right, so the next row can follow.
  have hfold : (g.neighbors a).toList.foldlM (modifyRow (·.eraseChecked a))
      (g.rows.setIfInBounds a .empty) = .ok ((g.neighbors a).toList.foldl
        (fun rows b => rows.modify b (·.erase a)) (g.rows.setIfInBounds a .empty)) := by
    refine foldlM_eq_ok (fun rows => SoundRows rows ∧ rows.size = g.order) ?_
      ⟨hrows, Array.size_setIfInBounds⟩
    intro b hb rows h
    obtain ⟨hsound, hsize⟩ := h
    have hb : b < rows.size := by
      rw [hsize]
      exact hg.lt_order (hg.lt_right (IndexSet.mem_toList.1 hb))
    refine ⟨modifyRow_eq hb ((hsound b).eraseChecked_eq a), ?_, ?_⟩
    · exact hsound.modify (fun s hs => hs.erase a) hb
    · rw [Array.size_modify, hsize]
  have hcount : (g.neighbors a).count ≤ g.edgeCount := hg.degree_le_edgeCount a
  rw [isolateChecked, neighborsChecked_eq (hg.lt_order ha), ok_bind, hfold, ok_bind,
    subtract_of_le hcount]
  rfl

end Sound

namespace Undirected

theorem frontierAfterChecked_eq (hg : g.Undirected n) {seen frontier : IndexSet}
    (hfrontier : ∀ a, frontier.contains a = true → a < n) :
    g.frontierAfterChecked start seen frontier = .ok (g.frontierAfter start seen frontier) := by
  have hrows : frontier.toList.mapM g.neighborsChecked = .ok (frontier.toList.map g.neighbors) :=
    mapM_eq_ok fun a ha =>
      neighborsChecked_eq ((hfrontier a (IndexSet.mem_toList.1 ha)).trans_le hg.le_order)
  rw [frontierAfterChecked, hrows, ok_bind, IndexSet.ofListChecked_eq, frontierAfter,
    List.flatMap_map]

theorem spreadChecked_eq (hg : g.Undirected n) (start : Nat) {rounds : Nat} :
    ∀ {seen frontier : IndexSet}, (∀ a, frontier.contains a = true → a < n) →
      g.spreadChecked start rounds seen frontier = .ok (g.spread start rounds seen frontier) := by
  induction rounds with
  | zero =>
      intro seen frontier _
      rfl
  | succ rounds ih =>
      intro seen frontier hfrontier
      rw [spreadChecked, spread]
      split
      · rfl
      · rw [hg.frontierAfterChecked_eq hfrontier]
        refine ih fun b hb => ?_
        obtain ⟨⟨a, -, hab⟩, -⟩ := contains_frontierAfter.1 hb
        exact hg.lt_right a b hab

theorem componentChecked_eq (hg : g.Undirected n) (hstart : start < n) :
    g.componentChecked start = .ok (g.component start) := by
  rw [componentChecked, neighborsChecked_eq (hstart.trans_le hg.le_order)]
  exact hg.spreadChecked_eq start fun a ha => hg.lt_right start a ha

end Undirected

end Graph

end FiniteDomain
