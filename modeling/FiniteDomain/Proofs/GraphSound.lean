import FiniteDomain.Graph
import FiniteDomain.Proofs.IndexSetMembers
import Mathlib

/-!
# Graphs stay undirected and loopless

`adjacent` is the view of a graph. `Sound` collects what the operations keep: an
edge is in both of its rows, no vertex is its own neighbour, the cached row counts
are right, and the degrees add up to twice the cached number of edges. The last
line is the handshake equation; it is how the edge count is kept honest, since the
operations look at one row when they count and change two or more.

From the handshake equation everything about the edge count follows by comparing
degrees: a graph with fewer edges has a smaller count, and a count of zero means
that there is no edge.
-/

namespace FiniteDomain

namespace Graph

variable {g h : Graph} {n a b c d : Nat}

/-! ## Rows -/

/-- Changes one row and leaves the others alone. -/
theorem neighbors_modify (g : Graph) (m : Nat) (f : IndexSet → IndexSet) {a : Nat}
    (ha : a < g.order) (c : Nat) :
    (Graph.mk (g.rows.modify a f) m).neighbors c =
      if a = c then f (g.neighbors c) else g.neighbors c :=
  IndexSet.getD_modify _ _ _ ha c

theorem neighbors_of_order_le (h : g.order ≤ a) : g.neighbors a = .empty := by
  rw [neighbors, Array.getD_eq_getD_getElem?, Array.getElem?_eq_none h]
  rfl

theorem lt_order_of_adjacent (h : g.adjacent a b = true) : a < g.order := by
  by_contra hge
  rw [adjacent, neighbors_of_order_le (Nat.le_of_not_lt hge), IndexSet.contains_empty] at h
  cases h

@[simp]
theorem order_edgeless (n : Nat) : (edgeless n).order = n := by
  simp [edgeless, order]

@[simp]
theorem order_link (g : Graph) (a b : Nat) : (g.link a b).order = g.order := by
  simp [link, order]

@[simp]
theorem order_unlink (g : Graph) (a b : Nat) : (g.unlink a b).order = g.order := by
  simp [unlink, order]

theorem neighbors_link (ha : a < g.order) (hb : b < g.order) (hab : a ≠ b) (c : Nat) :
    (g.link a b).neighbors c =
      if c = a then (g.neighbors a).insert b
      else if c = b then (g.neighbors b).insert a
      else g.neighbors c := by
  let mid : Graph := ⟨g.rows.modify a (·.insert b), g.edgeCount⟩
  have hmid : b < mid.order := by simpa [mid, order] using hb
  refine (neighbors_modify mid _ (·.insert a) hmid c).trans ?_
  rw [neighbors_modify g _ _ ha c]
  by_cases hca : c = a
  · subst hca
    rw [if_neg hab.symm, if_pos rfl, if_pos rfl]
  · by_cases hcb : c = b
    · subst hcb
      rw [if_pos rfl, if_neg (Ne.symm hca), if_neg hca, if_pos rfl]
    · rw [if_neg (Ne.symm hcb), if_neg (Ne.symm hca), if_neg hca, if_neg hcb]

theorem neighbors_unlink (ha : a < g.order) (hb : b < g.order) (hab : a ≠ b) (c : Nat) :
    (g.unlink a b).neighbors c =
      if c = a then (g.neighbors a).erase b
      else if c = b then (g.neighbors b).erase a
      else g.neighbors c := by
  let mid : Graph := ⟨g.rows.modify a (·.erase b), g.edgeCount⟩
  have hmid : b < mid.order := by simpa [mid, order] using hb
  refine (neighbors_modify mid _ (·.erase a) hmid c).trans ?_
  rw [neighbors_modify g _ _ ha c]
  by_cases hca : c = a
  · subst hca
    rw [if_neg hab.symm, if_pos rfl, if_pos rfl]
  · by_cases hcb : c = b
    · subst hcb
      rw [if_pos rfl, if_neg (Ne.symm hca), if_neg hca, if_pos rfl]
    · rw [if_neg (Ne.symm hcb), if_neg (Ne.symm hca), if_neg hca, if_neg hcb]

/-- Takes `a` out of the rows of a list, each of which occurs once. -/
theorem getD_foldl_erase {rows : Array IndexSet} {bs : List Nat} (hbs : bs.Nodup)
    (hlt : ∀ b ∈ bs, b < rows.size) (a c : Nat) :
    (bs.foldl (fun rows b => rows.modify b (·.erase a)) rows).getD c .empty =
      if c ∈ bs then (rows.getD c .empty).erase a else rows.getD c .empty := by
  induction bs generalizing rows with
  | nil => simp
  | cons b bs ih =>
      obtain ⟨hb, hbs⟩ := List.nodup_cons.1 hbs
      have hlt' : ∀ b' ∈ bs, b' < (rows.modify b (·.erase a)).size := by
        intro b' hb'
        rw [Array.size_modify]
        exact hlt b' (List.mem_cons_of_mem _ hb')
      rw [List.foldl_cons, ih hbs hlt',
        IndexSet.getD_modify _ _ _ (hlt b List.mem_cons_self)]
      by_cases hcb : c = b
      · subst hcb
        simp [hb]
      · simp [hcb, Ne.symm hcb]

theorem size_foldl_erase (rows : Array IndexSet) (bs : List Nat) (a : Nat) :
    (bs.foldl (fun rows b => rows.modify b (·.erase a)) rows).size = rows.size := by
  induction bs generalizing rows with
  | nil => rfl
  | cons b bs ih => rw [List.foldl_cons, ih, Array.size_modify]

@[simp]
theorem order_isolate (g : Graph) (a : Nat) : (g.isolate a).order = g.order := by
  simp [isolate, order, size_foldl_erase]

/-! ## The invariant -/

/-- What holds of every graph that is built by the operations. -/
structure Sound (g : Graph) (n : Nat) : Prop where
  order_eq : g.order = n
  sound_row : ∀ a, (g.neighbors a).Sound
  symm : ∀ a b, g.adjacent a b = true → g.adjacent b a = true
  irrefl : ∀ a, g.adjacent a a = false
  handshake : ∑ a ∈ Finset.range n, g.degree a = 2 * g.edgeCount

/-- What walking along edges asks of a graph. How many edges there are does not matter, nor do
vertices from `n` on, which have none. -/
structure Undirected (g : Graph) (n : Nat) : Prop where
  le_order : n ≤ g.order
  sound_row : ∀ a, (g.neighbors a).Sound
  symm : ∀ a b, g.adjacent a b = true → g.adjacent b a = true
  irrefl : ∀ a, g.adjacent a a = false
  lt_right : ∀ a b, g.adjacent a b = true → b < n

namespace Sound

theorem comm (hg : g.Sound n) (a b : Nat) : g.adjacent a b = g.adjacent b a := by
  rw [Bool.eq_iff_iff]
  exact ⟨hg.symm a b, hg.symm b a⟩

theorem lt_left (hg : g.Sound n) (h : g.adjacent a b = true) : a < n :=
  hg.order_eq ▸ lt_order_of_adjacent h

theorem lt_right (hg : g.Sound n) (h : g.adjacent a b = true) : b < n :=
  hg.lt_left (hg.symm a b h)

theorem ne (hg : g.Sound n) (h : g.adjacent a b = true) : a ≠ b := by
  intro hab
  subst hab
  rw [hg.irrefl] at h
  cases h

theorem undirected (hg : g.Sound n) : g.Undirected n where
  le_order := hg.order_eq.ge
  sound_row := hg.sound_row
  symm := hg.symm
  irrefl := hg.irrefl
  lt_right _ _ := hg.lt_right

/-- The degree of a vertex is the number of its neighbours. -/
theorem degree_eq (hg : g.Sound n) (a : Nat) :
    g.degree a = ((Finset.range n).filter fun b => g.adjacent a b = true).card := by
  rw [degree, hg.sound_row a, ← List.toFinset_card_of_nodup (IndexSet.nodup_toList _)]
  congr 1
  ext b
  rw [List.mem_toFinset, IndexSet.mem_toList, Finset.mem_filter, Finset.mem_range]
  exact ⟨fun h => ⟨hg.lt_right h, h⟩, And.right⟩

theorem sum_adjacent (hg : g.Sound n) (a : Nat) :
    ∑ b ∈ Finset.range n, (if g.adjacent a b = true then 1 else 0) = g.degree a := by
  rw [hg.degree_eq, Finset.card_filter]

end Sound

/-! ## Adjacency after each operation -/

@[simp]
theorem adjacent_edgeless (n a b : Nat) : (edgeless n).adjacent a b = false := by
  rw [adjacent, neighbors, edgeless, Array.getD_eq_getD_getElem?, Array.getElem?_replicate]
  split <;> simp

theorem adjacent_link (ha : a < g.order) (hb : b < g.order) (hab : a ≠ b) :
    (g.link a b).adjacent c d = true ↔
      g.adjacent c d = true ∨ (c = a ∧ d = b) ∨ (c = b ∧ d = a) := by
  rw [adjacent, neighbors_link ha hb hab, adjacent]
  split
  · next hca =>
      subst hca
      rw [IndexSet.contains_insert, Bool.or_eq_true, decide_eq_true_eq]
      have : ¬(c = b ∧ d = c) := fun h => hab h.1
      tauto
  · next hca =>
      split
      · next hcb =>
          subst hcb
          rw [IndexSet.contains_insert, Bool.or_eq_true, decide_eq_true_eq]
          tauto
      · tauto

theorem adjacent_unlink (ha : a < g.order) (hb : b < g.order) (hab : a ≠ b) :
    (g.unlink a b).adjacent c d = true ↔
      g.adjacent c d = true ∧ ¬(c = a ∧ d = b) ∧ ¬(c = b ∧ d = a) := by
  rw [adjacent, neighbors_unlink ha hb hab, adjacent]
  split
  · next hca =>
      subst hca
      rw [IndexSet.contains_erase, Bool.and_eq_true, decide_eq_true_eq]
      have : ¬(c = b ∧ d = c) := fun h => hab h.1
      tauto
  · next hca =>
      split
      · next hcb =>
          subst hcb
          rw [IndexSet.contains_erase, Bool.and_eq_true, decide_eq_true_eq]
          tauto
      · tauto

theorem neighbors_isolate (hg : g.Sound n) (a c : Nat) :
    (g.isolate a).neighbors c =
      if c = a then .empty
      else if g.adjacent a c = true then (g.neighbors c).erase a
      else g.neighbors c := by
  have hmem : c ∈ (g.neighbors a).toList ↔ g.adjacent a c = true := IndexSet.mem_toList
  have hlt : ∀ b ∈ (g.neighbors a).toList, b < (g.rows.setIfInBounds a .empty).size := by
    intro b hb
    rw [Array.size_setIfInBounds]
    have hb := hg.lt_right (IndexSet.mem_toList.1 hb)
    rwa [← hg.order_eq] at hb
  refine (getD_foldl_erase (IndexSet.nodup_toList _) hlt a c).trans ?_
  simp only [hmem]
  by_cases hca : c = a
  · subst hca
    rw [if_pos rfl, if_neg (by rw [hg.irrefl]; exact Bool.false_ne_true),
      Array.getD_eq_getD_getElem?, Array.getElem?_setIfInBounds, if_pos rfl]
    split <;> rfl
  · have hrow : (g.rows.setIfInBounds a .empty).getD c .empty = g.neighbors c := by
      rw [Array.getD_eq_getD_getElem?, Array.getElem?_setIfInBounds_ne (Ne.symm hca),
        neighbors, Array.getD_eq_getD_getElem?]
    rw [if_neg hca, hrow]

theorem adjacent_isolate (hg : g.Sound n) (a : Nat) :
    (g.isolate a).adjacent c d = true ↔ g.adjacent c d = true ∧ c ≠ a ∧ d ≠ a := by
  rw [adjacent, neighbors_isolate hg, adjacent]
  split
  · next hca => simp [hca]
  · next hca =>
      split
      · rw [IndexSet.contains_erase, Bool.and_eq_true, decide_eq_true_eq]
        tauto
      · next hac =>
          have hd : g.adjacent c d = true → d ≠ a := by
            rintro hcd rfl
            exact hac (hg.symm c d hcd)
          show g.adjacent c d = true ↔ _
          tauto

/-! ## The operations keep the invariant -/

theorem sound_edgeless (n : Nat) : (edgeless n).Sound n where
  order_eq := order_edgeless n
  sound_row a := by
    rw [neighbors, edgeless, Array.getD_eq_getD_getElem?, Array.getElem?_replicate]
    split
    · exact IndexSet.sound_withCapacity n
    · exact IndexSet.sound_empty
  symm a b h := by
    rw [adjacent_edgeless] at h
    cases h
  irrefl a := adjacent_edgeless n a a
  handshake := by
    refine Finset.sum_eq_zero fun a _ => ?_
    rw [degree, neighbors, edgeless, Array.getD_eq_getD_getElem?, Array.getElem?_replicate]
    split <;> rfl

theorem count_insert (s : IndexSet) (i : Nat) :
    (s.insert i).count = s.count + if s.contains i then 0 else 1 := by
  unfold IndexSet.insert
  split <;> rfl

theorem count_erase {s : IndexSet} (hs : s.Sound) (i : Nat) :
    (s.erase i).count + (if s.contains i then 1 else 0) = s.count := by
  unfold IndexSet.erase
  split
  · next h =>
      have hpos := List.length_pos_of_mem (IndexSet.mem_toList.2 h)
      rw [← hs] at hpos
      exact Nat.sub_add_cancel hpos
  · rfl

theorem Sound.link (hg : g.Sound n) (ha : a < n) (hb : b < n) (hab : a ≠ b) :
    (g.link a b).Sound n := by
  have ha' : a < g.order := hg.order_eq ▸ ha
  have hb' : b < g.order := hg.order_eq ▸ hb
  refine ⟨(order_link g a b).trans hg.order_eq, ?_, ?_, ?_, ?_⟩
  · intro c
    rw [neighbors_link ha' hb' hab]
    split
    · exact (hg.sound_row a).insert b
    · split
      · exact (hg.sound_row b).insert a
      · exact hg.sound_row c
  · intro c d
    rw [adjacent_link ha' hb' hab, adjacent_link ha' hb' hab, hg.comm c d]
    tauto
  · intro c
    rw [← Bool.not_eq_true, adjacent_link ha' hb' hab, hg.irrefl]
    intro h
    rcases h with h | ⟨rfl, h⟩ | ⟨rfl, h⟩
    · cases h
    · exact hab h
    · exact hab h.symm
  · -- A new edge adds one to the degree of each of its ends.
    have hdeg : ∀ c, (g.link a b).degree c = g.degree c +
        if g.adjacent a b = true then 0
        else (if c = a then 1 else 0) + (if c = b then 1 else 0) := by
      intro c
      rw [degree, neighbors_link ha' hb' hab]
      split
      · next hca =>
          subst hca
          rw [count_insert, if_neg hab, degree, adjacent]
      · next hca =>
          split
          · next hcb =>
              subst hcb
              rw [count_insert, degree, hg.comm, adjacent]
          · rw [degree]
            simp
    simp only [hdeg, Finset.sum_add_distrib, hg.handshake]
    rw [Graph.link]
    cases g.adjacent a b with
    | true => simp
    | false =>
        simp only [Bool.false_eq_true, if_false, Finset.sum_add_distrib,
          Finset.sum_ite_eq', Finset.mem_range, ha, hb, if_true]
        omega

theorem Sound.unlink (hg : g.Sound n) (ha : a < n) (hb : b < n) (hab : a ≠ b) :
    (g.unlink a b).Sound n := by
  have ha' : a < g.order := hg.order_eq ▸ ha
  have hb' : b < g.order := hg.order_eq ▸ hb
  refine ⟨(order_unlink g a b).trans hg.order_eq, ?_, ?_, ?_, ?_⟩
  · intro c
    rw [neighbors_unlink ha' hb' hab]
    split
    · exact (hg.sound_row a).erase b
    · split
      · exact (hg.sound_row b).erase a
      · exact hg.sound_row c
  · intro c d
    rw [adjacent_unlink ha' hb' hab, adjacent_unlink ha' hb' hab, hg.comm c d]
    tauto
  · intro c
    rw [← Bool.not_eq_true, adjacent_unlink ha' hb' hab, hg.irrefl]
    exact fun h => Bool.false_ne_true h.1
  · have hdeg : ∀ c, (g.unlink a b).degree c + (if g.adjacent a b = true then
        (if c = a then 1 else 0) + (if c = b then 1 else 0) else 0) = g.degree c := by
      intro c
      rw [degree, neighbors_unlink ha' hb' hab]
      split
      · next hca =>
          subst hca
          rw [if_neg hab, degree, adjacent, ← count_erase (hg.sound_row c) b]
      · next hca =>
          split
          · next hcb =>
              subst hcb
              rw [hg.comm, degree, adjacent, ← count_erase (hg.sound_row c) a]
          · rw [degree]
            simp
    have hsum := hg.handshake
    simp only [← hdeg, Finset.sum_add_distrib] at hsum
    rw [Graph.unlink] at hsum ⊢
    cases hadj : g.adjacent a b with
    | true =>
        simp only [hadj, if_true, Finset.sum_add_distrib, Finset.sum_ite_eq',
          Finset.mem_range, ha, hb] at hsum ⊢
        omega
    | false =>
        simp only [hadj, Bool.false_eq_true, if_false, Finset.sum_const_zero, add_zero] at hsum ⊢
        exact hsum

theorem Sound.isolate (hg : g.Sound n) (a : Nat) : (g.isolate a).Sound n := by
  refine ⟨(order_isolate g a).trans hg.order_eq, ?_, ?_, ?_, ?_⟩
  · intro c
    rw [neighbors_isolate hg]
    split
    · exact IndexSet.sound_empty
    · split
      · exact (hg.sound_row c).erase a
      · exact hg.sound_row c
  · intro c d
    rw [adjacent_isolate hg, adjacent_isolate hg, hg.comm c d]
    tauto
  · intro c
    rw [← Bool.not_eq_true, adjacent_isolate hg, hg.irrefl]
    exact fun h => Bool.false_ne_true h.1
  · -- The vertex loses all of its edges, each of its neighbours one.
    have hdeg : ∀ c, (g.isolate a).degree c +
        ((if g.adjacent a c = true then 1 else 0) + (if c = a then g.degree a else 0)) =
          g.degree c := by
      intro c
      rw [degree, neighbors_isolate hg]
      by_cases hca : c = a
      · subst hca
        rw [if_pos rfl, if_pos rfl, hg.irrefl]
        simp [IndexSet.empty]
      · rw [if_neg hca, if_neg hca]
        split
        · next hac =>
            have hcontains : (g.neighbors c).contains a = true := hg.symm a c hac
            rw [degree, ← count_erase (hg.sound_row c) a, if_pos hcontains]
        · rfl
    have hsum := Finset.sum_congr rfl fun c (_ : c ∈ Finset.range n) => hdeg c
    simp only [Finset.sum_add_distrib] at hsum
    rw [hg.sum_adjacent, Finset.sum_ite_eq', hg.handshake] at hsum
    have hcount : (g.isolate a).edgeCount = g.edgeCount - g.degree a := rfl
    rw [hcount]
    split at hsum
    · omega
    · next hmem =>
        have hzero : g.degree a = 0 := by
          rw [Finset.mem_range, ← hg.order_eq, Nat.not_lt] at hmem
          rw [degree, neighbors_of_order_le hmem]
          rfl
        omega

/-! ## Counting edges -/

theorem Sound.degree_le (hg : g.Sound n) (hh : h.Sound n)
    (hsub : ∀ c d, g.adjacent c d = true → h.adjacent c d = true) (a : Nat) :
    g.degree a ≤ h.degree a := by
  rw [hg.degree_eq, hh.degree_eq]
  exact Finset.card_le_card (Finset.monotone_filter_right _ fun d _ => hsub a d)

theorem Sound.edgeCount_le (hg : g.Sound n) (hh : h.Sound n)
    (hsub : ∀ c d, g.adjacent c d = true → h.adjacent c d = true) :
    g.edgeCount ≤ h.edgeCount := by
  have hsum := Finset.sum_le_sum fun a (_ : a ∈ Finset.range n) => hg.degree_le hh hsub a
  rw [hg.handshake, hh.handshake] at hsum
  omega

/-- Losing an edge shows in the number of edges. -/
theorem Sound.edgeCount_lt (hg : g.Sound n) (hh : h.Sound n)
    (hsub : ∀ c d, g.adjacent c d = true → h.adjacent c d = true)
    (hgab : g.adjacent a b = false) (hhab : h.adjacent a b = true) :
    g.edgeCount < h.edgeCount := by
  have hdeg : g.degree a < h.degree a := by
    rw [hg.degree_eq, hh.degree_eq]
    refine Finset.card_lt_card (Finset.ssubset_iff_subset_ne.2 ⟨?_, ?_⟩)
    · exact Finset.monotone_filter_right _ fun d _ => hsub a d
    · intro heq
      have hmem : b ∈ (Finset.range n).filter fun d => h.adjacent a d = true :=
        Finset.mem_filter.2 ⟨Finset.mem_range.2 (hh.lt_right hhab), hhab⟩
      rw [← heq, Finset.mem_filter, hgab] at hmem
      exact Bool.false_ne_true hmem.2
  have hsum := Finset.sum_lt_sum (fun c (_ : c ∈ Finset.range n) => hg.degree_le hh hsub c)
    ⟨a, Finset.mem_range.2 (hh.lt_left hhab), hdeg⟩
  rw [hg.handshake, hh.handshake] at hsum
  omega

theorem Sound.isEdgeless_iff (hg : g.Sound n) :
    g.isEdgeless = true ↔ ∀ a b, g.adjacent a b = false := by
  rw [isEdgeless, beq_iff_eq]
  refine ⟨?_, ?_⟩
  · intro hzero a b
    rw [← Bool.not_eq_true]
    intro hab
    have hlt := (sound_edgeless n).edgeCount_lt hg (fun c d h => by simp at h)
      (adjacent_edgeless n a b) hab
    omega
  · intro hnone
    have hle := hg.edgeCount_le (sound_edgeless n) fun c d hcd => by
      rw [hnone] at hcd
      cases hcd
    exact Nat.le_zero.1 hle

/-! ## Listing vertices and edges -/

theorem Undirected.mem_vertices (hg : g.Undirected n) :
    a ∈ g.vertices ↔ ∃ b, g.adjacent a b = true := by
  rw [vertices, List.mem_filter, List.mem_range, Bool.not_eq_true', ← Bool.not_eq_true,
    IndexSet.isEmpty_iff (hg.sound_row a)]
  refine ⟨?_, ?_⟩
  · intro h
    obtain ⟨-, h⟩ := h
    simpa [adjacent] using h
  · intro h
    obtain ⟨b, hab⟩ := h
    refine ⟨lt_order_of_adjacent hab, fun h => ?_⟩
    exact Bool.false_ne_true ((h b).symm.trans hab)

theorem Sound.mem_vertices (hg : g.Sound n) :
    a ∈ g.vertices ↔ ∃ b, g.adjacent a b = true :=
  hg.undirected.mem_vertices

theorem Sound.lt_of_mem_vertices (hg : g.Sound n) (ha : a ∈ g.vertices) : a < n := by
  obtain ⟨b, hab⟩ := hg.mem_vertices.1 ha
  exact hg.lt_left hab

theorem pairwise_vertices (g : Graph) : g.vertices.Pairwise (· < ·) :=
  List.pairwise_lt_range.filter _

theorem Sound.mem_edges (hg : g.Sound n) :
    (a, b) ∈ g.edges ↔ g.adjacent a b = true ∧ a < b := by
  simp only [edges, edgesFrom, List.mem_flatMap, List.mem_map, List.mem_filter,
    IndexSet.mem_toList, decide_eq_true_eq, Prod.mk.injEq]
  refine ⟨?_, ?_⟩
  · intro h
    obtain ⟨c, -, d, ⟨hcd, hlt⟩, rfl, rfl⟩ := h
    exact ⟨hcd, hlt⟩
  · intro h
    obtain ⟨hab, hlt⟩ := h
    exact ⟨a, hg.mem_vertices.2 ⟨b, hab⟩, b, ⟨hab, hlt⟩, rfl, rfl⟩

/-- No edge is listed twice. -/
theorem nodup_edges (g : Graph) : g.edges.Nodup := by
  refine List.nodup_flatMap.2 ⟨?_, ?_⟩
  · intro a _
    exact ((IndexSet.nodup_toList _).filter _).map fun b c hbc => congrArg Prod.snd hbc
  · refine (pairwise_vertices g).imp ?_
    intro a b hab e hea heb
    simp only [edgesFrom, List.mem_map] at hea heb
    obtain ⟨_, -, rfl⟩ := hea
    obtain ⟨_, -, heq⟩ := heb
    exact absurd (congrArg Prod.fst heq) (Nat.ne_of_gt hab)

end Graph

end FiniteDomain
