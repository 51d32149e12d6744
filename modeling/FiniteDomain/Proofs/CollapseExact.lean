import FiniteDomain.Proofs.ClassMerge
import FiniteDomain.Proofs.GraphComponent
import Mathlib

/-!
# Merging all classes is exact

Heads are visited in ascending order, and a head that an earlier class swallowed is
passed over. What makes one pass enough is that a class is merged whole or not at
all: as long as its first variable is still ahead, every variable of it is its own
leader, so that nothing which was done to other classes has reached it. `Merging`
says so, and gives leaders, domains and inequalities half-way as they are at the end,
with the classes merged so far in place of all components.

At the end leaders tell components apart, a domain holds what the whole component
could take, and the inequalities are the old ones, moved to the leaders. The models
are the old models. When the pass gets stuck instead there was no model.
-/

namespace FiniteDomain

namespace Network

variable {base net net' : Network} {heads : List Nat} {head i j : Nat}
  {swallowed members : IndexSet} {cause : Conflict} {σ : Nat → Int} {v : Int}

/-- A model does not change along equalities. -/
theorem Model.eq_of_connected (hm : net.Model σ) (h : net.equal.Connected i j) : σ i = σ j := by
  induction h with
  | refl => rfl
  | tail _ hcd ih => exact ih.trans (hm.equal _ _ hcd)

theorem classOf_returns (hs : net.Sound) (head : Nat) :
    Returns (net.classOf head) fun members =>
      ∀ i, members.contains i = true ↔ net.equal.Connected head i ∧ i ≠ head := by
  have hcomponent : ∀ i, (net.equal.component head).contains i = true ↔
      net.equal.Connected head i ∧ i ≠ head := fun i => Graph.contains_component hs.sound_equal
  rw [classOf]
  split
  · next hself => exact absurd rfl ((hcomponent head).1 hself).2
  · exact Returns.ok hcomponent

theorem inClass_iff {g : Graph}
    (hmembers : ∀ i, members.contains i = true ↔ g.Connected head i ∧ i ≠ head) :
    InClass head members i ↔ g.Connected head i := by
  rw [InClass, hmembers]
  by_cases hih : i = head
  · simp [hih, Graph.Connected.refl]
  · simp [hih]

theorem not_contains_head {g : Graph}
    (hmembers : ∀ i, members.contains i = true ↔ g.Connected head i ∧ i ≠ head) :
    members.contains head = false := by
  rw [Bool.eq_false_iff, ne_eq, hmembers]
  exact fun hself => hself.2 rfl

/-- The shape of a network while its classes are merged. -/
structure Merging (base : Network) (heads : List Nat) (swallowed : IndexSet)
    (net : Network) : Prop where
  sound : net.Sound
  vars_eq : net.vars = base.vars
  equal_eq : net.equal = base.equal
  leader_le : ∀ i, net.leader i ≤ i
  leader_leader : ∀ i, net.leader (net.leader i) = net.leader i
  connected_leader : ∀ i, base.equal.Connected (net.leader i) i
  swallowed_iff : ∀ i, swallowed.contains i = true ↔ net.leader i ≠ i
  /-- What is not ahead any more has been merged with all its equals. -/
  merged : ∀ i j, base.equal.Connected i j → i ∉ heads → net.leader j = net.leader i
  /-- Only heads that have been visited have followers. -/
  visited : ∀ i, net.leader i ≠ i → net.leader i ∉ heads
  mem_domain : ∀ i v, v ∈ net.domain i ↔ ∀ j, net.leader j = net.leader i → v ∈ base.domain j
  viable : base.AllViable → net.AllViable
  contracts : base.distinct.Contracts net.leader net.distinct

/-- Why the classes of a network cannot be merged: the domains of a component have no value in
common, or an inequality joins two variables of a component. -/
def Unmergeable (base : Network) (cause : Conflict) : Prop :=
  (∃ head m, base.equal.Connected head m ∧ m ≠ head ∧
    (∀ i, base.equal.Connected head i → head ≤ i) ∧
    (¬∃ v, ∀ i, base.equal.Connected head i → v ∈ base.domain i) ∧
    cause = .equality (base.name head) (base.name m)) ∨
  ∃ a b, base.equal.Connected a b ∧ base.distinct.adjacent a b = true ∧
    cause = .contradiction (base.name a) (base.name b)

theorem Unmergeable.no_model (hs : base.Sound) (h : Unmergeable base cause) :
    ¬base.Model σ := by
  intro hm
  rcases h with ⟨head, m, hc, hne, -, hnone, -⟩ | ⟨a, b, hc, hab, -⟩
  · refine hnone ⟨σ head, fun i hi => ?_⟩
    rw [hm.eq_of_connected hi]
    refine hm.mem i ?_
    -- A variable without an equality would be connected to itself only.
    by_cases hih : i = head
    · obtain ⟨c, hadj⟩ := hc.exists_adjacent (Ne.symm hne)
      rw [hih]
      exact hs.sound_equal.lt_left hadj
    · exact hi.lt hs.sound_equal hih
  · exact hm.distinct a b hab (hm.eq_of_connected hc)

namespace Merging

theorem first (hs : base.Sound) (hlead : ∀ i, base.leader i = i) :
    Merging base base.equal.vertices (.withCapacity base.size) base where
  sound := hs
  vars_eq := rfl
  equal_eq := rfl
  leader_le i := (hlead i).le
  leader_leader i := hlead _
  connected_leader i := by
    rw [hlead]
    exact Graph.Connected.refl _ i
  swallowed_iff i := by simp [hlead]
  merged i j hc hi := by
    rw [hs.sound_equal.mem_vertices] at hi
    have hij : i = j := by
      by_contra hne
      exact hi (hc.exists_adjacent hne)
    rw [hij]
  visited i hi := absurd (hlead i) hi
  mem_domain i v := by simp [hlead]
  viable := id
  contracts := Graph.Contracts.of_id hlead

/-- Passes over a head that a class has swallowed. -/
theorem skip (h : Merging base (head :: heads) swallowed net)
    (hin : swallowed.contains head = true) : Merging base heads swallowed net where
  sound := h.sound
  vars_eq := h.vars_eq
  equal_eq := h.equal_eq
  leader_le := h.leader_le
  leader_leader := h.leader_leader
  connected_leader := h.connected_leader
  swallowed_iff := h.swallowed_iff
  merged i j hc hi := by
    by_cases hih : i = head
    · -- The leader of `head` has been visited, so it speaks for the whole component.
      subst hih
      have hlead := h.visited i ((h.swallowed_iff i).1 hin)
      rw [h.merged _ j ((h.connected_leader i).trans hc) hlead, h.leader_leader]
    · exact h.merged i j hc (by simp [hih, hi])
  visited i hi := fun hmem => h.visited i hi (List.mem_cons_of_mem _ hmem)
  mem_domain := h.mem_domain
  viable := h.viable
  contracts := h.contracts

section Fresh

variable (hs : base.Sound) (h : Merging base (head :: heads) swallowed net)
  (hfresh : swallowed.contains head = false)

include h hfresh

theorem leader_head : net.leader head = head := by
  by_contra hne
  rw [(h.swallowed_iff head).2 hne] at hfresh
  cases hfresh

include hs

/-- In a class that is still ahead every variable is its own leader. -/
theorem leader_of_connected (hi : base.equal.Connected head i) : net.leader i = i := by
  by_contra hne
  have hvisited := h.visited i hne
  have hc : base.equal.Connected (net.leader i) head :=
    (h.connected_leader i).trans (hi.symm hs.sound_equal)
  have hlead := h.merged _ head hc hvisited
  rw [h.leader_head hfresh, h.leader_leader] at hlead
  rw [← hlead] at hvisited
  exact hvisited List.mem_cons_self

theorem head_le (hsorted : (head :: heads).Pairwise (· < ·))
    (hi : base.equal.Connected head i) : head ≤ i := by
  by_contra hlt
  have hbehind : i ∉ head :: heads := by
    intro hmem
    rcases List.mem_cons.1 hmem with rfl | hmem
    · exact hlt (Nat.le_refl _)
    · have := (List.pairwise_cons.1 hsorted).1 i hmem
      omega
  have hlead := h.merged i head (hi.symm hs.sound_equal) hbehind
  rw [h.leader_head hfresh] at hlead
  have := h.leader_le i
  omega

theorem mem_domain_of_connected (hi : base.equal.Connected head i) :
    v ∈ net.domain i ↔ v ∈ base.domain i := by
  rw [h.mem_domain, h.leader_of_connected hs hfresh hi]
  refine ⟨?_, ?_⟩
  · exact fun hall => hall i (h.leader_of_connected hs hfresh hi)
  · intro hv j hj
    have hc : base.equal.Connected i j := hj ▸ h.connected_leader j
    rw [h.leader_of_connected hs hfresh (hi.trans hc)] at hj
    rwa [hj]

theorem adjacent_of_connected (hi : base.equal.Connected head i)
    (hj : base.equal.Connected head j) (hij : net.distinct.adjacent i j = true) :
    base.distinct.adjacent i j = true := by
  have hsource : ∀ {a k}, base.equal.Connected head k → net.leader a = k → a = k := by
    intro a k hk hak
    have hc : base.equal.Connected k a := hak ▸ h.connected_leader a
    rwa [h.leader_of_connected hs hfresh (hk.trans hc)] at hak
  obtain ⟨a, b, hab, ha, hb⟩ := (h.contracts i j).1 hij
  rwa [hsource hi ha, hsource hj hb] at hab

/-- A class that cannot be merged is one of the network the pass began with. -/
theorem unmergeable (hsorted : (head :: heads).Pairwise (· < ·))
    (hmembers : ∀ i, members.contains i = true ↔ base.equal.Connected head i ∧ i ≠ head)
    (hstuck : ClassStuck head members net cause) : Unmergeable base cause := by
  have hclass : ∀ i, InClass head members i ↔ base.equal.Connected head i :=
    fun i => inClass_iff hmembers
  rcases hstuck with ⟨⟨m, hm, hcause⟩, hnone⟩ | ⟨a, b, hab, ha, hb, hcause⟩
  · rw [hmembers] at hm
    refine Or.inl ⟨head, m, hm.1, hm.2, fun i => h.head_le hs hfresh hsorted, ?_, ?_⟩
    · intro hsome
      obtain ⟨v, hv⟩ := hsome
      refine hnone ⟨v, fun i hi => ?_⟩
      rw [hclass] at hi
      exact (h.mem_domain_of_connected hs hfresh hi).2 (hv i hi)
    · rwa [name_congr h.vars_eq, name_congr h.vars_eq] at hcause
  · rw [hclass] at ha hb
    refine Or.inr ⟨a, b, (ha.symm hs.sound_equal).trans hb,
      h.adjacent_of_connected hs hfresh ha hb hab, ?_⟩
    rwa [name_congr h.vars_eq, name_congr h.vars_eq] at hcause

end Fresh

theorem not_connected_leader (h : Merging base heads swallowed net)
    (hi : ¬base.equal.Connected head i) :
    ¬base.equal.Connected head (net.leader i) :=
  fun hc => hi (hc.trans (h.connected_leader i))

section Merge

variable (hs : base.Sound) (h : Merging base (head :: heads) swallowed net)
  (hfresh : swallowed.contains head = false)
  (hmembers : ∀ i, members.contains i = true ↔ base.equal.Connected head i ∧ i ≠ head)
  (hmerge : ClassMerged head members net net')

include hmembers hmerge

theorem leader_kept (hi : ¬base.equal.Connected head i) : net'.leader i = net.leader i := by
  rw [hmerge.leader_eq]
  exact if_neg fun hc => hi ((hmembers i).1 hc).1

include h hfresh

theorem leader_advance (hi : base.equal.Connected head i) : net'.leader i = head := by
  rw [hmerge.leader_eq]
  split
  · rfl
  · next hnot =>
      have hih : i = head := by
        by_contra hne
        exact hnot ((hmembers i).2 ⟨hi, hne⟩)
      rw [hih, h.leader_head hfresh]

theorem leader_eq_head_iff : net'.leader i = head ↔ base.equal.Connected head i := by
  refine ⟨fun hi => ?_, h.leader_advance hfresh hmembers hmerge⟩
  by_contra hhi
  rw [leader_kept hmembers hmerge hhi] at hi
  refine h.not_connected_leader hhi ?_
  rw [hi]
  exact Graph.Connected.refl _ head

theorem leader_leader_advance (i : Nat) : net'.leader (net'.leader i) = net'.leader i := by
  by_cases hi : base.equal.Connected head i
  · rw [h.leader_advance hfresh hmembers hmerge hi]
    exact h.leader_advance hfresh hmembers hmerge (Graph.Connected.refl _ head)
  · rw [leader_kept hmembers hmerge hi,
      leader_kept hmembers hmerge (h.not_connected_leader hi), h.leader_leader]

include hs

theorem leader_le_advance (hsorted : (head :: heads).Pairwise (· < ·)) (i : Nat) :
    net'.leader i ≤ i := by
  by_cases hi : base.equal.Connected head i
  · rw [h.leader_advance hfresh hmembers hmerge hi]
    exact h.head_le hs hfresh hsorted hi
  · rw [leader_kept hmembers hmerge hi]
    exact h.leader_le i

theorem swallowed_iff_advance (i : Nat) :
    (swallowed.union members).contains i = true ↔ net'.leader i ≠ i := by
  rw [IndexSet.contains_union, Bool.or_eq_true, h.swallowed_iff, hmembers]
  by_cases hi : base.equal.Connected head i
  · rw [h.leader_advance hfresh hmembers hmerge hi, h.leader_of_connected hs hfresh hi]
    simp [hi, eq_comm]
  · rw [leader_kept hmembers hmerge hi]
    simp [hi]

theorem merged_advance (hc : base.equal.Connected i j) (hi : i ∉ heads) :
    net'.leader j = net'.leader i := by
  by_cases hhi : base.equal.Connected head i
  · rw [h.leader_advance hfresh hmembers hmerge hhi,
      h.leader_advance hfresh hmembers hmerge (hhi.trans hc)]
  · have hne : i ≠ head := by
      intro heq
      rw [heq] at hhi
      exact hhi (Graph.Connected.refl _ head)
    have hhj : ¬base.equal.Connected head j := fun hhj => hhi (hhj.trans (hc.symm hs.sound_equal))
    rw [leader_kept hmembers hmerge hhi, leader_kept hmembers hmerge hhj]
    exact h.merged i j hc (by simp [hne, hi])

theorem mem_domain_advance (i : Nat) (v : Int) :
    v ∈ net'.domain i ↔ ∀ j, net'.leader j = net'.leader i → v ∈ base.domain j := by
  by_cases hi : base.equal.Connected head i
  · rw [hmerge.domain_class i ((inClass_iff hmembers).2 hi),
      h.leader_advance hfresh hmembers hmerge hi]
    refine forall_congr' fun j => ?_
    rw [inClass_iff hmembers, h.leader_eq_head_iff hfresh hmembers hmerge]
    exact forall_congr' fun hj => h.mem_domain_of_connected hs hfresh hj
  · rw [hmerge.domain_other i (mt (inClass_iff hmembers).1 hi), h.mem_domain,
      leader_kept hmembers hmerge hi]
    refine forall_congr' fun j => ?_
    by_cases hj : base.equal.Connected head j
    · -- Neither before nor after is a variable of the class led by the leader of `i`.
      have hleader := h.not_connected_leader hi
      have hne : head ≠ net.leader i := fun heq => hleader (heq ▸ Graph.Connected.refl _ head)
      have hne' : j ≠ net.leader i := fun heq => hleader (heq ▸ hj)
      simp [h.leader_advance hfresh hmembers hmerge hj, h.leader_of_connected hs hfresh hj,
        hne, hne']
    · rw [leader_kept hmembers hmerge hj]

theorem viable_advance (hsorted : (head :: heads).Pairwise (· < ·)) (hviable : base.AllViable) :
    net'.AllViable := by
  intro i hi
  rw [size_congr hmerge.vars_eq] at hi
  by_cases hhi : base.equal.Connected head i
  · have hle := h.head_le hs hfresh hsorted hhi
    obtain ⟨v, hv⟩ := hmerge.viable_class (h.viable hviable head (by omega))
    refine ⟨v, ?_⟩
    rw [hmerge.domain_class i ((inClass_iff hmembers).2 hhi)]
    exact (hmerge.domain_class head (Or.inl rfl) v).1 hv
  · rw [hmerge.domain_other i (mt (inClass_iff hmembers).1 hhi)]
    exact h.viable hviable i hi

theorem contracts_advance : base.distinct.Contracts net'.leader net'.distinct := by
  refine h.contracts.trans hmerge.contracts fun i => ?_
  by_cases hi : base.equal.Connected head i
  · rw [h.leader_advance hfresh hmembers hmerge hi, h.leader_of_connected hs hfresh hi, onto]
    split
    · rfl
    · next hnot =>
        by_contra hne
        exact hnot (IndexSet.mem_toList.2 ((hmembers i).2 ⟨hi, Ne.symm hne⟩))
  · have hnot : net.leader i ∉ members.toList := by
      rw [IndexSet.mem_toList, hmembers]
      exact fun hc => h.not_connected_leader hi hc.1
    rw [leader_kept hmembers hmerge hi, onto_of_not_mem hnot]

/-- Merges a class that is still ahead. -/
theorem advance (hsorted : (head :: heads).Pairwise (· < ·)) :
    Merging base heads (swallowed.union members) net' where
  sound := hmerge.sound
  vars_eq := hmerge.vars_eq.trans h.vars_eq
  equal_eq := hmerge.equal_eq.trans h.equal_eq
  leader_le := h.leader_le_advance hs hfresh hmembers hmerge hsorted
  leader_leader := h.leader_leader_advance hfresh hmembers hmerge
  connected_leader i := by
    by_cases hi : base.equal.Connected head i
    · rw [h.leader_advance hfresh hmembers hmerge hi]
      exact hi
    · rw [leader_kept hmembers hmerge hi]
      exact h.connected_leader i
  swallowed_iff := h.swallowed_iff_advance hs hfresh hmembers hmerge
  merged i j := h.merged_advance hs hfresh hmembers hmerge
  visited i hi := by
    have hahead : head ∉ heads := fun hmem =>
      Nat.lt_irrefl head ((List.pairwise_cons.1 hsorted).1 head hmem)
    by_cases hhi : base.equal.Connected head i
    · rw [h.leader_advance hfresh hmembers hmerge hhi]
      exact hahead
    · rw [leader_kept hmembers hmerge hhi] at hi ⊢
      exact fun hmem => h.visited i hi (List.mem_cons_of_mem _ hmem)
  mem_domain := h.mem_domain_advance hs hfresh hmembers hmerge
  viable := h.viable_advance hs hfresh hmembers hmerge hsorted
  contracts := h.contracts_advance hs hfresh hmembers hmerge

end Merge

end Merging

/-- The pass over all heads, from any point of it on. -/
theorem mergeClasses_returns (hs : base.Sound) :
    ∀ {heads swallowed net}, heads.Pairwise (· < ·) → (∀ i ∈ heads, i < base.size) →
      Merging base heads swallowed net →
      Returns (mergeClasses heads swallowed net).outcome fun phase =>
        phase.Ends (fun net' => ∃ swallowed', Merging base [] swallowed' net')
          (Unmergeable base) := by
  intro heads
  induction heads with
  | nil =>
      intro swallowed net _ _ h
      exact Traced.returns_pure ⟨swallowed, h⟩
  | cons head heads ih =>
      intro swallowed net hsorted hlt h
      have hsorted' := (List.pairwise_cons.1 hsorted).2
      have hlt' : ∀ i ∈ heads, i < base.size := fun i hi => hlt i (List.mem_cons_of_mem _ hi)
      rw [mergeClasses]
      split
      · next hin => exact ih hsorted' hlt' (h.skip hin)
      · next hout =>
          have hfresh : swallowed.contains head = false := by simpa using hout
          refine Traced.returns_bind (classOf_returns h.sound head) fun members hmembers => ?_
          rw [h.equal_eq] at hmembers
          refine Traced.returns_note ?_
          have hsize : net.size = base.size := size_congr h.vars_eq
          have hmembersLt : ∀ m, members.contains m = true → m < net.size := by
            intro m hm
            rw [hmembers] at hm
            rw [hsize]
            exact hm.1.lt hs.sound_equal hm.2
          have hnot := not_contains_head hmembers
          have hends := mergeClass_ends h.sound hmembersLt
            (hsize ▸ hlt head List.mem_cons_self) hnot
          generalize mergeClass head members net = phase at hends
          cases phase with
          | passed net' => exact ih hsorted' hlt' (h.advance hs hfresh hmembers hends hsorted)
          | stuck net' cause =>
              exact Traced.returns_pure (h.unmergeable hs hfresh hsorted hmembers hends)

/-! ## Collapsing -/

theorem adjacent_foldl_isolate {n : Nat} {g : Graph} (hg : g.Sound n) (as : List Nat) (c d : Nat) :
    (as.foldl Graph.isolate g).Sound n ∧ ((as.foldl Graph.isolate g).adjacent c d = true ↔
      g.adjacent c d = true ∧ c ∉ as ∧ d ∉ as) := by
  induction as generalizing g with
  | nil => simp [hg]
  | cons a as ih =>
      obtain ⟨hsound, hadj⟩ := ih (hg.isolate a)
      refine ⟨hsound, ?_⟩
      rw [List.foldl_cons, hadj, Graph.adjacent_isolate hg]
      simp only [List.mem_cons, not_or]
      refine ⟨?_, ?_⟩
      · intro h
        obtain ⟨⟨hcd, hc, hd⟩, hcs, hds⟩ := h
        exact ⟨hcd, ⟨hc, hcs⟩, hd, hds⟩
      · intro h
        obtain ⟨hcd, ⟨hc, hcs⟩, hd, hds⟩ := h
        exact ⟨⟨hcd, hc, hd⟩, hcs, hds⟩

/-- What collapsing leaves of a network in which every variable was its own leader. -/
structure Collapsed (base net : Network) : Prop where
  sound : net.Sound
  vars_eq : net.vars = base.vars
  not_equal : ∀ i j, net.equal.adjacent i j = false
  leader_eq_iff : ∀ i j, net.leader i = net.leader j ↔ base.equal.Connected i j
  connected_leader : ∀ i, base.equal.Connected (net.leader i) i
  leader_le : ∀ i j, base.equal.Connected i j → net.leader i ≤ j
  mem_domain : ∀ i v, v ∈ net.domain i ↔ ∀ j, base.equal.Connected i j → v ∈ base.domain j
  viable : base.AllViable → net.AllViable
  contracts : base.distinct.Contracts net.leader net.distinct

theorem Merging.collapsed (hs : base.Sound) (h : Merging base [] swallowed net) :
    Collapsed base net.clearEqual := by
  have hclear := fun c d =>
    adjacent_foldl_isolate (n := net.size) h.sound.sound_equal (List.range net.size) c d
  have hiff : ∀ i j, net.leader i = net.leader j ↔ base.equal.Connected i j := by
    intro i j
    refine ⟨?_, ?_⟩
    · intro heq
      have hi := h.connected_leader i
      rw [heq] at hi
      exact (hi.symm hs.sound_equal).trans (h.connected_leader j)
    · exact fun hc => (h.merged i j hc List.not_mem_nil).symm
  exact
    { sound :=
        { size_domains := h.sound.size_domains
          size_leaders := h.sound.size_leaders
          normal := h.sound.normal
          sound_equal := (hclear 0 0).1
          sound_distinct := h.sound.sound_distinct
          leader_lt := h.sound.leader_lt }
      vars_eq := h.vars_eq
      not_equal := fun i j => by
        rw [Bool.eq_false_iff]
        intro hij
        obtain ⟨hij, hi, -⟩ := (hclear i j).2.1 hij
        exact hi (List.mem_range.2 (h.sound.sound_equal.lt_left hij))
      leader_eq_iff := hiff
      connected_leader := h.connected_leader
      leader_le := fun i j hc => (hiff i j).2 hc ▸ h.leader_le j
      mem_domain := fun i v => by
        show v ∈ net.domain i ↔ _
        rw [h.mem_domain]
        refine forall_congr' fun j => ?_
        rw [hiff j i]
        exact imp_congr_left ⟨fun hc => hc.symm hs.sound_equal, fun hc => hc.symm hs.sound_equal⟩
      viable := h.viable
      contracts := h.contracts }

/--
Collapsing is never refused. It leaves every component merged into its first
variable, or names a reason why the network has no model.
-/
theorem collapse_returns (hs : net.Sound) (hlead : ∀ i, net.leader i = i) :
    Returns net.collapse.outcome fun phase =>
      phase.Ends (Collapsed net) (Unmergeable net) := by
  have hpass := mergeClasses_returns hs (Graph.pairwise_vertices net.equal)
    (fun i hi => hs.sound_equal.lt_of_mem_vertices hi) (Merging.first hs hlead)
  rw [collapse]
  refine Traced.returns_bind hpass fun phase hends => ?_
  cases phase with
  | stuck net' cause => exact Traced.returns_pure hends
  | passed net' =>
      obtain ⟨swallowed, hmerging⟩ := hends
      have hcollapsed := hmerging.collapsed hs
      have hedgeless : net'.clearEqual.equal.isEdgeless = true :=
        hcollapsed.sound.sound_equal.isEdgeless_iff.2 hcollapsed.not_equal
      simp only [hedgeless, if_true]
      exact Traced.returns_pure hcollapsed

namespace Collapsed

theorem leader_leader (h : Collapsed base net) (i : Nat) :
    net.leader (net.leader i) = net.leader i :=
  (h.leader_eq_iff _ _).2 (h.connected_leader i)

theorem merged (h : Collapsed base net) : net.Merged where
  not_equal := h.not_equal
  leader_leader := h.leader_leader
  leader_of_distinct i j hij := by
    obtain ⟨a, b, -, rfl, -⟩ := (h.contracts i j).1 hij
    exact h.leader_leader a

theorem leadersFit (h : Collapsed base net) : net.LeadersFit := by
  intro i _ v hv
  rw [h.mem_domain] at hv ⊢
  exact fun j hc => hv j ((h.connected_leader i).trans hc)

/-- The models are kept; after the merge they are those in which a class has one value. -/
theorem solved_iff (hs : base.Sound) (h : Collapsed base net) : net.Solved σ ↔ base.Model σ := by
  have hsize : net.size = base.size := size_congr h.vars_eq
  refine ⟨?_, ?_⟩
  · intro hsolved
    obtain ⟨hm, hleader⟩ := hsolved
    refine ⟨?_, ?_, ?_⟩
    · intro i hi
      exact (h.mem_domain i _).1 (hm.mem i (hsize ▸ hi)) i (Graph.Connected.refl _ i)
    · intro i j hij
      rw [hleader i (hsize ▸ hs.sound_equal.lt_left hij),
        hleader j (hsize ▸ hs.sound_equal.lt_right hij),
        (h.leader_eq_iff i j).2 (Graph.Connected.of_adjacent hij)]
    · intro i j hij
      rw [hleader i (hsize ▸ hs.sound_distinct.lt_left hij),
        hleader j (hsize ▸ hs.sound_distinct.lt_right hij)]
      exact hm.distinct _ _ ((h.contracts _ _).2 ⟨i, j, hij, rfl, rfl⟩)
  · intro hm
    have hleader : ∀ i, σ i = σ (net.leader i) := fun i =>
      (hm.eq_of_connected (h.connected_leader i)).symm
    refine ⟨⟨?_, ?_, ?_⟩, fun i _ => hleader i⟩
    · intro i hi
      rw [h.mem_domain]
      intro j hc
      rw [hm.eq_of_connected hc]
      refine hm.mem j ?_
      by_cases hji : j = i
      · rw [hji, ← hsize]
        exact hi
      · exact hc.lt hs.sound_equal hji
    · intro i j hij
      rw [h.not_equal] at hij
      cases hij
    · intro i j hij
      obtain ⟨a, b, hab, rfl, rfl⟩ := (h.contracts i j).1 hij
      rw [← hleader, ← hleader]
      exact hm.distinct a b hab

end Collapsed

end Network

end FiniteDomain
