import FiniteDomain.Proofs.ClassMerge
import FiniteDomain.Proofs.GraphAlgebra
import FiniteDomain.Proofs.GraphComponent
import Mathlib

/-!
# Graphs with vertices put in between

Vertices without edges may be put in between the vertices of a graph. What was vertex `a`
is then vertex `ρ a`, where `ρ` keeps the order, and the new graph is the contraction of the
old one along `ρ`: its edges are the old ones, moved.

Everything that is read off a graph moves along. Rows, vertices and edges are listed in
ascending order, and since `ρ` keeps that order the new lists are the old ones, entry by
entry. In particular the counts are the same, whatever words the rows are made of.
-/

namespace FiniteDomain

variable {ρ : ℕ ↪o ℕ}

namespace IndexSet

variable {s t s' t' : IndexSet} {i : Nat}

/-- Are the members of `t` those of `s`, each moved along `ρ`? -/
def Image (ρ : ℕ ↪o ℕ) (s t : IndexSet) : Prop :=
  ∀ k, t.contains k = true ↔ ∃ i, s.contains i = true ∧ ρ i = k

namespace Image

theorem contains_eq (h : Image ρ s t) (i : Nat) : t.contains (ρ i) = s.contains i := by
  rw [Bool.eq_iff_iff, h]
  refine ⟨?_, fun hi => ⟨i, hi, rfl⟩⟩
  rintro ⟨j, hj, hji⟩
  rwa [← ρ.injective hji]

theorem toList_eq (h : Image ρ s t) : t.toList = s.toList.map ρ := by
  refine (pairwise_toList t).eq_of_mem_iff ?_ fun k => ?_
  · exact (pairwise_toList s).map ρ fun _ _ hlt => ρ.strictMono hlt
  · rw [mem_toList, h, List.mem_map]
    simp only [mem_toList]

theorem union (h : Image ρ s t) (h' : Image ρ s' t') : Image ρ (s.union s') (t.union t') := by
  intro k
  simp only [contains_union, Bool.or_eq_true, h k, h' k, or_and_right, exists_or]

theorem withCapacity (n m : Nat) : Image ρ (.withCapacity n) (.withCapacity m) := by
  intro k
  simp

end Image

end IndexSet

namespace Graph

variable {g g' : Graph} {n m a b : Nat}

/-- The edges that are listed are the edges that are counted. -/
theorem Sound.length_edges (hg : g.Sound n) : g.edges.length = g.edgeCount := by
  rw [hg.edgeCount_eq, ← List.toFinset_card_of_nodup (nodup_edges g)]
  congr 1
  ext ⟨a, b⟩
  rw [List.mem_toFinset, hg.mem_edges, Finset.mem_filter, Finset.mem_product, Finset.mem_range,
    Finset.mem_range, and_comm]
  exact ⟨fun hab => ⟨⟨hg.lt_left hab.2, hg.lt_right hab.2⟩, hab⟩, fun hab => hab.2⟩

namespace Contracts

section

variable (h : g.Contracts ρ g')

include h

theorem adjacent_eq (a b : Nat) : g'.adjacent (ρ a) (ρ b) = g.adjacent a b := by
  rw [Bool.eq_iff_iff, h]
  refine ⟨?_, fun hab => ⟨a, b, hab, rfl, rfl⟩⟩
  rintro ⟨c, d, hcd, hc, hd⟩
  rwa [← ρ.injective hc, ← ρ.injective hd]

theorem image_neighbors (a : Nat) : IndexSet.Image ρ (g.neighbors a) (g'.neighbors (ρ a)) := by
  intro k
  refine (h (ρ a) k).trans ⟨?_, ?_⟩
  · rintro ⟨c, b, hcb, hc, rfl⟩
    rw [ρ.injective hc] at hcb
    exact ⟨b, hcb, rfl⟩
  · rintro ⟨b, hab, rfl⟩
    exact ⟨a, b, hab, rfl, rfl⟩

theorem not_adjacent {k : Nat} (hk : k ∉ Set.range ρ) (b : Nat) : g'.adjacent k b = false := by
  rw [Bool.eq_false_iff, ne_eq, h]
  rintro ⟨a, _, -, rfl, -⟩
  exact hk ⟨a, rfl⟩

/-! ## What is listed and counted -/

theorem vertices_eq (hg : g.Sound n) (hg' : g'.Sound m) : g'.vertices = g.vertices.map ρ := by
  refine (pairwise_vertices g').eq_of_mem_iff ?_ fun k => ?_
  · exact (pairwise_vertices g).map ρ fun _ _ hlt => ρ.strictMono hlt
  · rw [hg'.mem_vertices, List.mem_map]
    simp only [hg.mem_vertices, h k]
    refine ⟨?_, ?_⟩
    · rintro ⟨_, a, b, hab, rfl, rfl⟩
      exact ⟨a, ⟨b, hab⟩, rfl⟩
    · rintro ⟨a, ⟨b, hab⟩, rfl⟩
      exact ⟨ρ b, a, b, hab, rfl, rfl⟩

theorem edges_eq (hg : g.Sound n) (hg' : g'.Sound m) :
    g'.edges = g.edges.map fun e => (ρ e.1, ρ e.2) := by
  refine (pairwise_edges g').eq_of_mem_iff ?_ fun e => ?_
  · refine (pairwise_edges g).map _ fun e f hlex => ?_
    cases hlex with
    | left b d hlt => exact Prod.Lex.left _ _ (ρ.strictMono hlt)
    | right a hlt => exact Prod.Lex.right _ (ρ.strictMono hlt)
  · obtain ⟨c, d⟩ := e
    rw [hg'.mem_edges, List.mem_map, h]
    refine ⟨?_, ?_⟩
    · rintro ⟨⟨a, b, hab, rfl, rfl⟩, hlt⟩
      exact ⟨(a, b), hg.mem_edges.2 ⟨hab, ρ.lt_iff_lt.1 hlt⟩, rfl⟩
    · rintro ⟨⟨a, b⟩, hab, heq⟩
      cases heq
      rw [hg.mem_edges] at hab
      exact ⟨⟨a, b, hab.1, rfl, rfl⟩, ρ.lt_iff_lt.2 hab.2⟩

theorem edgeCount_eq (hg : g.Sound n) (hg' : g'.Sound m) : g'.edgeCount = g.edgeCount := by
  rw [← hg.length_edges, ← hg'.length_edges, h.edges_eq hg hg', List.length_map]

theorem degree_eq (hg : g.Sound n) (hg' : g'.Sound m) (a : Nat) :
    g'.degree (ρ a) = g.degree a := by
  rw [degree, hg'.sound_row, (h.image_neighbors a).toList_eq, List.length_map,
    ← hg.sound_row, degree]

/-! ## What is connected -/

theorem connected_iff {k : Nat} :
    g'.Connected (ρ a) k ↔ ∃ b, g.Connected a b ∧ ρ b = k := by
  refine ⟨fun hc => ?_, ?_⟩
  · induction hc with
    | refl => exact ⟨a, Connected.refl g a, rfl⟩
    | tail _ hstep ih =>
        obtain ⟨b, hab, rfl⟩ := ih
        obtain ⟨c, hbc, hc⟩ := (h.image_neighbors b _).1 hstep
        exact ⟨c, hab.trans (Connected.of_adjacent hbc), hc⟩
  · rintro ⟨b, hab, rfl⟩
    induction hab with
    | refl => exact Connected.refl g' _
    | tail _ hstep ih =>
        refine ih.trans (Connected.of_adjacent ?_)
        rwa [h.adjacent_eq]

theorem image_component (hg : g.Sound n) (hg' : g'.Sound m) (a : Nat) :
    IndexSet.Image ρ (g.component a) (g'.component (ρ a)) := by
  intro k
  rw [contains_component hg', h.connected_iff]
  simp only [contains_component hg]
  refine ⟨?_, ?_⟩
  · rintro ⟨⟨b, hab, rfl⟩, hne⟩
    exact ⟨b, ⟨hab, fun heq => hne (heq ▸ rfl)⟩, rfl⟩
  · rintro ⟨b, ⟨hab, hne⟩, rfl⟩
    exact ⟨⟨b, hab, rfl⟩, fun heq => hne (ρ.injective heq)⟩

/-! ## What is changed -/

theorem isolate (hg : g.Sound n) (hg' : g'.Sound m) (a : Nat) :
    (g.isolate a).Contracts ρ (g'.isolate (ρ a)) := by
  intro c d
  rw [adjacent_isolate hg', h]
  simp only [adjacent_isolate hg]
  refine ⟨?_, ?_⟩
  · rintro ⟨⟨c, d, hcd, rfl, rfl⟩, hc, hd⟩
    exact ⟨c, d, ⟨hcd, fun heq => hc (heq ▸ rfl), fun heq => hd (heq ▸ rfl)⟩, rfl, rfl⟩
  · rintro ⟨c, d, ⟨hcd, hc, hd⟩, rfl, rfl⟩
    exact ⟨⟨c, d, hcd, rfl, rfl⟩, fun heq => hc (ρ.injective heq), fun heq => hd (ρ.injective heq)⟩

section Edge

variable (hg : g.Sound n) (hg' : g'.Sound m) (ha : a < n) (hb : b < n) (ha' : ρ a < m)
  (hb' : ρ b < m) (hab : a ≠ b)

include hg hg' ha hb ha' hb' hab

theorem link : (g.link a b).Contracts ρ (g'.link (ρ a) (ρ b)) := by
  intro c d
  rw [adjacent_link (hg'.order_eq ▸ ha') (hg'.order_eq ▸ hb') (ρ.injective.ne hab), h]
  simp only [adjacent_link (hg.order_eq ▸ ha) (hg.order_eq ▸ hb) hab]
  refine ⟨?_, ?_⟩
  · rintro (⟨c, d, hcd, rfl, rfl⟩ | ⟨rfl, rfl⟩ | ⟨rfl, rfl⟩)
    · exact ⟨c, d, Or.inl hcd, rfl, rfl⟩
    · exact ⟨a, b, Or.inr (Or.inl ⟨rfl, rfl⟩), rfl, rfl⟩
    · exact ⟨b, a, Or.inr (Or.inr ⟨rfl, rfl⟩), rfl, rfl⟩
  · rintro ⟨c, d, hcd | ⟨rfl, rfl⟩ | ⟨rfl, rfl⟩, rfl, rfl⟩
    · exact Or.inl ⟨c, d, hcd, rfl, rfl⟩
    · exact Or.inr (Or.inl ⟨rfl, rfl⟩)
    · exact Or.inr (Or.inr ⟨rfl, rfl⟩)

theorem unlink : (g.unlink a b).Contracts ρ (g'.unlink (ρ a) (ρ b)) := by
  intro c d
  rw [adjacent_unlink (hg'.order_eq ▸ ha') (hg'.order_eq ▸ hb') (ρ.injective.ne hab), h]
  simp only [adjacent_unlink (hg.order_eq ▸ ha) (hg.order_eq ▸ hb) hab]
  refine ⟨?_, ?_⟩
  · rintro ⟨⟨c, d, hcd, rfl, rfl⟩, hforth, hback⟩
    refine ⟨c, d, ⟨hcd, ?_, ?_⟩, rfl, rfl⟩
    · rintro ⟨rfl, rfl⟩
      exact hforth ⟨rfl, rfl⟩
    · rintro ⟨rfl, rfl⟩
      exact hback ⟨rfl, rfl⟩
  · rintro ⟨c, d, ⟨hcd, hforth, hback⟩, rfl, rfl⟩
    refine ⟨⟨c, d, hcd, rfl, rfl⟩, fun heq => hforth ?_, fun heq => hback ?_⟩
    · exact ⟨ρ.injective heq.1, ρ.injective heq.2⟩
    · exact ⟨ρ.injective heq.1, ρ.injective heq.2⟩

end Edge

end

end Contracts

end Graph

end FiniteDomain
