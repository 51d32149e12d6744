import FiniteDomain.Network.Equality
import FiniteDomain.Proofs.GraphSound
import Mathlib

/-!
# Components are what paths reach

`component` spreads from a vertex in rounds; `Connected` says that there is a path.
The two agree. One direction is immediate, since a round only follows edges. For
the other the search keeps the set it has seen closed, up to the frontier: an edge
that leaves a vertex behind the frontier leads to a vertex already seen, or back to
the start, which is never seen. When the frontier is empty nothing is missing.

The limit on the rounds is bookkeeping. `Spreads` is the search without it, which ends
when the frontier is empty and not before. That it does end is a matter of counting. A
round that finds a vertex makes the seen set larger, and the set never holds all vertices
because it never holds the start. So there are fewer rounds than vertices, and a limit
that allows for as many does not decide anything.
-/

namespace FiniteDomain

namespace Graph

variable {g : Graph} {n a b start : Nat} {seen frontier : IndexSet}

/-- Is there a path between two vertices? -/
def Connected (g : Graph) : Nat → Nat → Prop :=
  Relation.ReflTransGen fun a b => g.adjacent a b = true

theorem Connected.refl (g : Graph) (a : Nat) : g.Connected a a := Relation.ReflTransGen.refl

theorem Connected.of_adjacent (h : g.adjacent a b = true) : g.Connected a b :=
  Relation.ReflTransGen.single h

theorem Connected.trans {c : Nat} (hab : g.Connected a b) (hbc : g.Connected b c) :
    g.Connected a c :=
  Relation.ReflTransGen.trans hab hbc

theorem Undirected.connected_symm (hg : g.Undirected n) (h : g.Connected a b) :
    g.Connected b a := by
  induction h with
  | refl => exact Connected.refl g a
  | tail _ hcd ih => exact (Connected.of_adjacent (hg.symm _ _ hcd)).trans ih

theorem Connected.symm (hg : g.Sound n) (h : g.Connected a b) : g.Connected b a :=
  hg.undirected.connected_symm h

/-- A path that ends somewhere else starts with an edge. -/
theorem Connected.exists_adjacent (h : g.Connected a b) (hne : a ≠ b) :
    ∃ c, g.adjacent a c = true := by
  rcases Relation.ReflTransGen.cases_head h with heq | ⟨c, hac, -⟩
  · exact absurd heq hne
  · exact ⟨c, hac⟩

/-- What is connected to another vertex has an edge, so it exists. -/
theorem Undirected.lt_of_connected (hg : g.Undirected n) (h : g.Connected a b) (hne : b ≠ a) :
    b < n := by
  rcases Relation.ReflTransGen.cases_tail h with heq | ⟨c, -, hcb⟩
  · exact absurd heq hne
  · exact hg.lt_right c b hcb

theorem Connected.lt (hg : g.Sound n) (h : g.Connected a b) (hne : b ≠ a) : b < n :=
  hg.undirected.lt_of_connected h hne

theorem contains_frontierAfter :
    (g.frontierAfter start seen frontier).contains b = true ↔
      (∃ a, frontier.contains a = true ∧ g.adjacent a b = true) ∧
        b ≠ start ∧ seen.contains b = false := by
  rw [frontierAfter, IndexSet.contains_ofList, decide_eq_true_eq, List.mem_filter,
    List.mem_flatMap]
  simp only [IndexSet.mem_toList, Bool.and_eq_true, bne_iff_ne, ne_eq, Bool.not_eq_true']
  rfl

/-- What holds before every round of a search from `start`. -/
structure Spreading (g : Graph) (start : Nat) (seen frontier : IndexSet) : Prop where
  sound_frontier : frontier.Sound
  reached : ∀ a, seen.contains a = true → g.Connected start a ∧ a ≠ start
  seen_of_frontier : ∀ a, frontier.contains a = true → seen.contains a = true
  /-- Behind the frontier every edge leads to what was seen, or to the start. -/
  closed : ∀ a b, a = start ∨ seen.contains a = true → frontier.contains a = false →
    g.adjacent a b = true → b = start ∨ seen.contains b = true

namespace Spreading

theorem first (hg : g.Undirected n) (start : Nat) :
    Spreading g start (g.neighbors start) (g.neighbors start) where
  sound_frontier := hg.sound_row start
  reached a h := by
    refine ⟨Connected.of_adjacent h, ?_⟩
    rintro rfl
    exact Bool.false_ne_true ((hg.irrefl a).symm.trans h)
  seen_of_frontier _ h := h
  closed a b ha hfrontier hab := by
    rcases ha with rfl | ha
    · exact Or.inr hab
    · rw [hfrontier] at ha
      cases ha

theorem next (h : Spreading g start seen frontier) :
    Spreading g start (seen.union (g.frontierAfter start seen frontier))
      (g.frontierAfter start seen frontier) where
  sound_frontier := IndexSet.sound_ofList _
  reached a ha := by
    rw [IndexSet.contains_union, Bool.or_eq_true] at ha
    rcases ha with ha | ha
    · exact h.reached a ha
    · obtain ⟨⟨c, hc, hca⟩, hne, -⟩ := contains_frontierAfter.1 ha
      have hstart := (h.reached c (h.seen_of_frontier c hc)).1
      exact ⟨hstart.trans (Connected.of_adjacent hca), hne⟩
  seen_of_frontier a ha := by
    rw [IndexSet.contains_union, ha, Bool.or_true]
  closed a b ha hfrontier hab := by
    rw [IndexSet.contains_union, Bool.or_eq_true] at ha ⊢
    -- Not in the new frontier, so `a` was seen before this round.
    have hseen : a = start ∨ seen.contains a = true := by
      rcases ha with ha | ha | ha
      · exact Or.inl ha
      · exact Or.inr ha
      · rw [hfrontier] at ha
        cases ha
    cases hold : frontier.contains a with
    | false =>
        rcases h.closed a b hseen hold hab with hb | hb
        · exact Or.inl hb
        · exact Or.inr (Or.inl hb)
    | true =>
        by_cases hbs : b = start
        · exact Or.inl hbs
        · cases hb : seen.contains b with
          | true => exact Or.inr (Or.inl rfl)
          | false =>
              exact Or.inr (Or.inr (contains_frontierAfter.2 ⟨⟨a, hold, hab⟩, hbs, hb⟩))

/-- The start has an edge and is never seen, so there is always a vertex left to see. -/
theorem length_lt (h : Spreading g start seen frontier) (hg : g.Undirected n)
    (ha : seen.contains a = true) : seen.toList.length < n := by
  obtain ⟨hconn, hne⟩ := h.reached a ha
  obtain ⟨c, hc⟩ := hconn.exists_adjacent hne.symm
  have hstart : start < n := hg.lt_right c start (hg.symm start c hc)
  have hle : seen.toList.length ≤ ((List.range n).erase start).length := by
    refine IndexSet.length_toList_le fun i hi => ?_
    obtain ⟨hconn, hne⟩ := h.reached i hi
    rw [List.nodup_range.mem_erase_iff, List.mem_range]
    exact ⟨hne, hg.lt_of_connected hconn hne⟩
  rw [List.length_erase_of_mem (List.mem_range.2 hstart), List.length_range] at hle
  omega

/-- A round that finds a vertex has one more to show. -/
theorem length_lt_next (h : Spreading g start seen frontier)
    (hfound : (g.frontierAfter start seen frontier).isEmpty = false) :
    seen.toList.length < (seen.union (g.frontierAfter start seen frontier)).toList.length := by
  obtain ⟨c, hc⟩ := (IndexSet.isEmpty_eq_false_iff h.next.sound_frontier).1 hfound
  refine IndexSet.length_toList_lt (j := c) (fun i hi => ?_) (contains_frontierAfter.1 hc).2.2 ?_
  · rw [IndexSet.contains_union, hi, Bool.true_or]
  · rw [IndexSet.contains_union, hc, Bool.or_true]

/-- A search whose frontier is empty has seen all that can be reached. -/
theorem mem_of_connected (h : Spreading g start seen frontier) (hdone : frontier.isEmpty = true)
    (hconn : g.Connected start b) : b = start ∨ seen.contains b = true := by
  induction hconn with
  | refl => exact Or.inl rfl
  | tail _ hcd ih =>
      exact h.closed _ _ ih ((IndexSet.isEmpty_iff h.sound_frontier).1 hdone _) hcd

end Spreading

/-! ## The search without a limit -/

/-- The search that makes rounds until the frontier is empty: it made so many and has then seen
`found`. -/
inductive Spreads (g : Graph) (start : Nat) : IndexSet → IndexSet → Nat → IndexSet → Prop where
  | done {seen frontier : IndexSet} (hempty : frontier.isEmpty = true) :
      Spreads g start seen frontier 0 seen
  | round {seen frontier found : IndexSet} {rounds : Nat} (hfound : frontier.isEmpty = false)
      (hrest : Spreads g start (seen.union (g.frontierAfter start seen frontier))
        (g.frontierAfter start seen frontier) rounds found) :
      Spreads g start seen frontier (rounds + 1) found

namespace Spreads

variable {found : IndexSet} {rounds limit : Nat}

/-- A limit that the search does not reach changes nothing. -/
theorem spread_eq (h : Spreads g start seen frontier rounds found) (hlimit : rounds ≤ limit) :
    g.spread start limit seen frontier = found := by
  induction h generalizing limit with
  | done hempty =>
      cases limit with
      | zero => rfl
      | succ limit => rw [spread, if_pos hempty]
  | round hfound _ ih =>
      obtain ⟨limit, rfl⟩ := Nat.exists_eq_succ_of_ne_zero (Nat.ne_zero_of_lt hlimit)
      rw [spread, hfound, if_neg Bool.false_ne_true]
      exact ih (Nat.le_of_succ_le_succ hlimit)

/-- A search that has ended has found what can be reached. -/
theorem contains_iff (h : Spreads g start seen frontier rounds found)
    (hspreading : Spreading g start seen frontier) :
    found.contains b = true ↔ g.Connected start b ∧ b ≠ start := by
  induction h with
  | done hempty =>
      refine ⟨hspreading.reached b, ?_⟩
      rintro ⟨hconn, hne⟩
      exact (hspreading.mem_of_connected hempty hconn).resolve_left hne
  | round _ _ ih => exact ih hspreading.next

end Spreads

/-- A search ends, and has made no more rounds than there were vertices left to see. -/
theorem Spreading.exists_spreads (hg : g.Undirected n) {limit : Nat}
    (h : Spreading g start seen frontier)
    (henough : frontier.isEmpty = false → n ≤ seen.toList.length + limit) :
    ∃ rounds ≤ limit, ∃ found, Spreads g start seen frontier rounds found := by
  induction limit generalizing seen frontier with
  | zero =>
      cases hempty : frontier.isEmpty with
      | true => exact ⟨0, Nat.le_refl 0, seen, .done hempty⟩
      | false =>
          obtain ⟨a, ha⟩ := (IndexSet.isEmpty_eq_false_iff h.sound_frontier).1 hempty
          have hlt := h.length_lt hg (h.seen_of_frontier a ha)
          have hle := henough hempty
          omega
  | succ limit ih =>
      cases hempty : frontier.isEmpty with
      | true => exact ⟨0, Nat.zero_le _, seen, .done hempty⟩
      | false =>
          obtain ⟨rounds, hle, found, hrest⟩ := ih h.next fun hnext => by
            have hlt := h.length_lt_next hnext
            have hle := henough hempty
            omega
          exact ⟨rounds + 1, Nat.succ_le_succ hle, found, .round hempty hrest⟩

/-- The component of a vertex is what the search without a limit finds, in fewer rounds than there
are vertices. -/
theorem Undirected.spreads_component (hg : g.Undirected n) (start : Nat) :
    ∃ rounds ≤ n - 1,
      Spreads g start (g.neighbors start) (g.neighbors start) rounds (g.component start) := by
  have henough : (g.neighbors start).isEmpty = false →
      n ≤ (g.neighbors start).toList.length + (n - 1) := by
    intro hrow
    obtain ⟨a, ha⟩ := (IndexSet.isEmpty_eq_false_iff (hg.sound_row start)).1 hrow
    have hpos := List.length_pos_of_mem (IndexSet.mem_toList.2 ha)
    omega
  obtain ⟨rounds, hle, found, h⟩ := (Spreading.first hg start).exists_spreads hg henough
  have hlimit : rounds ≤ g.order := by
    have := hg.le_order
    omega
  have heq : g.component start = found := h.spread_eq hlimit
  exact ⟨rounds, hle, heq ▸ h⟩

/-- The component of a vertex is what can be reached from it, without itself. -/
theorem Undirected.contains_component (hg : g.Undirected n) :
    (g.component start).contains b = true ↔ g.Connected start b ∧ b ≠ start := by
  obtain ⟨rounds, -, h⟩ := hg.spreads_component start
  exact h.contains_iff (Spreading.first hg start)

theorem contains_component (hg : g.Sound n) :
    (g.component start).contains b = true ↔ g.Connected start b ∧ b ≠ start :=
  hg.undirected.contains_component

end Graph

end FiniteDomain
