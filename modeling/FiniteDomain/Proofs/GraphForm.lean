import FiniteDomain.Proofs.GraphSound
import Mathlib

/-!
# One graph for one set of edges

Index sets with the same members may differ in how many words they have, and so two
graphs with the same edges need not be the same. They are if every row is as wide as the
vertices ask for, and it is: a graph starts with rows of that width, and an edge between
vertices of the graph never widens a row. Then the words are determined by the members,
the row counts by the words, and the number of edges by the degrees, so a graph can be
told by its edges alone, whatever the order in which they came.
-/

namespace FiniteDomain

namespace IndexSet

variable {s t : IndexSet} {i : Nat}

/-- An index that falls into one of the words adds no word. -/
theorem size_words_insert (h : i / 64 < s.words.size) :
    (s.insert i).words.size = s.words.size := by
  unfold insert
  split
  · rfl
  · rw [Array.size_modify, size_grow]
    omega

/-- As many words and the same members make the same set. -/
theorem eq_of_contains (hs : s.Sound) (ht : t.Sound) (hsize : s.words.size = t.words.size)
    (h : ∀ i, s.contains i = t.contains i) : s = t := by
  have hwords : s.words = t.words := by
    refine Array.ext hsize fun k hk hk' => ?_
    rw [← UInt64.toNat_inj]
    refine Nat.eq_of_testBit_eq fun j => ?_
    rcases Nat.lt_or_ge j 64 with hj | hj
    · -- The bit belongs to one index, and whether that is a member is the same for both.
      have hbit := h (64 * k + j)
      have hdiv : (64 * k + j) / 64 = k := by omega
      have hmod : (64 * k + j) % 64 = j := by omega
      rw [contains_eq, contains_eq, hdiv, hmod] at hbit
      simpa [Array.getD_eq_getD_getElem?, hk, hk'] using hbit
    · have hpow : 2 ^ 64 ≤ 2 ^ j := Nat.pow_le_pow_right Nat.two_pos hj
      rw [Nat.testBit_lt_two_pow (Nat.lt_of_lt_of_le (UInt64.toNat_lt _) hpow),
        Nat.testBit_lt_two_pow (Nat.lt_of_lt_of_le (UInt64.toNat_lt _) hpow)]
  have hcount : s.count = t.count := by
    rw [hs, ht, toList_eq_of_contains h]
  cases s
  cases t
  congr

end IndexSet

namespace Graph

variable {g h : Graph} {n a b : Nat}

/-- Every row has as many words as an index set for `n` vertices starts with. -/
def Fitted (g : Graph) (n : Nat) : Prop :=
  ∀ a < n, (g.neighbors a).words.size = (n + 63) / 64

theorem fitted_edgeless (n : Nat) : (edgeless n).Fitted n := by
  intro a ha
  rw [neighbors, edgeless, Array.getD_eq_getD_getElem?, Array.getElem?_replicate, if_pos ha]
  simp [IndexSet.withCapacity]

theorem Fitted.link (hf : g.Fitted n) (hg : g.Sound n) (ha : a < n) (hb : b < n) (hab : a ≠ b) :
    (g.link a b).Fitted n := by
  intro c hc
  rw [neighbors_link (hg.order_eq.symm ▸ ha) (hg.order_eq.symm ▸ hb) hab]
  split
  · rw [IndexSet.size_words_insert, hf a ha]
    rw [hf a ha]
    omega
  · split
    · rw [IndexSet.size_words_insert, hf b hb]
      rw [hf b hb]
      omega
    · exact hf c hc

/-- Fitted graphs with the same edges are the same. -/
theorem Fitted.eq_of_adjacent (hf : g.Fitted n) (hf' : h.Fitted n) (hg : g.Sound n) (hh : h.Sound n)
    (hadj : ∀ a b, g.adjacent a b = true ↔ h.adjacent a b = true) : g = h := by
  have hrow : ∀ (k : Graph) (a : Nat) (ha : a < k.rows.size), k.neighbors a = k.rows[a] := by
    intro k a ha
    rw [neighbors, Array.getD_eq_getD_getElem?, Array.getElem?_eq_getElem ha]
    rfl
  have hsize : g.rows.size = h.rows.size := hg.order_eq.trans hh.order_eq.symm
  have hrows : g.rows = h.rows := by
    refine Array.ext hsize fun a ha ha' => ?_
    have hn : a < n := hg.order_eq ▸ ha
    rw [← hrow g a ha, ← hrow h a ha']
    refine IndexSet.eq_of_contains (hg.sound_row a) (hh.sound_row a) ?_ fun b => ?_
    · rw [hf a hn, hf' a hn]
    · exact Bool.eq_iff_iff.2 (hadj a b)
  have hcount : g.edgeCount = h.edgeCount :=
    Nat.le_antisymm (hg.edgeCount_le hh fun a b => (hadj a b).1)
      (hh.edgeCount_le hg fun a b => (hadj a b).2)
  cases g
  cases h
  congr

end Graph

end FiniteDomain
