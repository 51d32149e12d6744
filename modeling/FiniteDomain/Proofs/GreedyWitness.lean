import FiniteDomain.Network.Inequality
import FiniteDomain.Network.Witness
import FiniteDomain.Proofs.AssignmentValues
import FiniteDomain.Proofs.DomainValues
import FiniteDomain.Proofs.NetworkModel
import FiniteDomain.Proofs.Returning
import Mathlib

/-!
# Reading a witness off a network without critical variables

`critical?` looks at one variable at a time: it compares the number of its values
with the number of its neighbours. That this is enough, however the domains overlap
and whatever cycles the inequalities form, is a matter of counting along the walk
that reads the witness. A variable whose turn has not come has lost at most one
value to each neighbour that was visited before it, hence fewer values than it has.
So there is always a first value to take, and no variable has to be visited twice.

`Picked` is the invariant of that walk. It describes the domain of every variable
still to come by the values that its earlier neighbours took, and says of every
leader visited so far that it took the first value its earlier neighbours had left.
-/

namespace FiniteDomain

namespace Network

variable {net base : Network} {order : ValueOrder} {values : Array (Option Int)} {i : Nat}

/-! ## Critical variables -/

theorem exists_foldl_tighter (net : Network) (b : Nat) (as : List Nat) :
    ∃ x ∈ b :: as, as.foldl net.tighter (some b) = some x := by
  induction as generalizing b with
  | nil => exact ⟨b, List.mem_cons_self, rfl⟩
  | cons a as ih =>
      rw [List.foldl_cons, tighter]
      split
      · obtain ⟨x, hx, heq⟩ := ih a
        exact ⟨x, List.mem_cons_of_mem _ hx, heq⟩
      · obtain ⟨x, hx, heq⟩ := ih b
        rcases List.mem_cons.1 hx with rfl | hx
        · exact ⟨x, List.mem_cons_self, heq⟩
        · exact ⟨x, List.mem_cons_of_mem _ (List.mem_cons_of_mem _ hx), heq⟩

theorem mem_of_critical? {x : Nat} (h : net.critical? = some x) :
    x ∈ net.distinct.vertices ∧ net.isCritical x = true := by
  rw [← List.mem_filter]
  unfold critical? at h
  cases hcs : net.distinct.vertices.filter net.isCritical with
  | nil =>
      rw [hcs] at h
      cases h
  | cons c cs =>
      rw [hcs, List.foldl_cons, tighter] at h
      obtain ⟨y, hy, heq⟩ := exists_foldl_tighter net c cs
      rw [h] at heq
      cases heq
      exact hy

theorem critical?_eq_none_iff :
    net.critical? = none ↔ ∀ a ∈ net.distinct.vertices, net.isCritical a = false := by
  unfold critical?
  cases hcs : net.distinct.vertices.filter net.isCritical with
  | nil =>
      rw [List.filter_eq_nil_iff] at hcs
      simpa using hcs
  | cons c cs =>
      obtain ⟨y, -, heq⟩ := exists_foldl_tighter net c cs
      have hc : c ∈ net.distinct.vertices.filter net.isCritical := by
        rw [hcs]
        exact List.mem_cons_self
      rw [List.mem_filter] at hc
      rw [List.foldl_cons, tighter, heq]
      refine ⟨?_, ?_⟩
      · intro h
        cases h
      · intro h
        rw [h c hc.1] at hc
        exact absurd hc.2 Bool.false_ne_true

/-- With no critical variable every variable has more values than neighbours. -/
theorem degree_lt_size (hs : net.Sound) (hv : net.AllViable) (hc : net.critical? = none)
    (hi : i < net.size) : net.distinct.degree i < (net.domain i).size := by
  by_cases hvertex : i ∈ net.distinct.vertices
  · have hcrit := critical?_eq_none_iff.1 hc i hvertex
    rw [isCritical, decide_eq_false_iff_not] at hcrit
    omega
  · have hdegree : net.distinct.degree i = 0 := by
      rw [hs.sound_distinct.degree_eq, Finset.card_eq_zero, Finset.filter_eq_empty_iff]
      intro j _ hij
      exact hvertex (hs.sound_distinct.mem_vertices.2 ⟨j, hij⟩)
    obtain ⟨v, hmem⟩ := hv i hi
    have hlisted : v ∈ (net.domain i).values .ascending := Domain.mem_values.2 hmem
    have hpos := List.length_pos_of_mem hlisted
    rw [Domain.length_values] at hpos
    omega

/-! ## Settling one variable -/

theorem sameButDomains_settle (net : Network) (i : Nat) (v : Int) :
    SameButDomains net (net.settle i v) :=
  ((SameButDomains.setDomain net i _).trans (sameButDomains_foldl _ _ _)).trans
    (sameButDomains_foldl _ _ _)

/-- Settling a variable takes its value from its neighbours and leaves all others alone. -/
theorem domain_settle (hs : net.Sound) (hnone : ∀ j, net.equal.adjacent i j = false)
    (v : Int) {j : Nat} (hij : j ≠ i) :
    (net.settle i v).domain j =
      if net.distinct.adjacent i j = true then (net.domain j).exclude (.singleton v)
      else net.domain j := by
  have hempty : (net.equal.neighbors i).toList = [] := by
    rw [List.eq_nil_iff_forall_not_mem]
    intro k hk
    exact Bool.false_ne_true ((hnone k).symm.trans (IndexSet.mem_toList.1 hk))
  have hlt : ∀ k ∈ (net.distinct.neighbors i).toList, k < (net.pin i v).domains.size := by
    intro k hk
    rw [pin, size_domains_setDomain, hs.size_domains]
    exact hs.sound_distinct.lt_right (IndexSet.mem_toList.1 hk)
  rw [settle, hempty, List.foldl_nil,
    domain_foldl_setDomain (·.exclude (.singleton v)) (IndexSet.nodup_toList _) hlt]
  simp only [IndexSet.mem_toList, pin, domain_setDomain_ne net _ hij]
  rfl

theorem Sound.settle (hs : net.Sound) (i : Nat) (v : Int) : (net.settle i v).Sound := by
  have hpin : (net.pin i v).Sound := hs.setDomain i (Domain.normal_singleton v)
  have hsame := hpin.foldl_setDomain (f := (·.intersect (.singleton v)))
    (fun d hd => hd.intersect (Domain.normal_singleton v)) (net.equal.neighbors i).toList
  exact hsame.foldl_setDomain (f := (·.exclude (.singleton v))) (fun d hd => hd.exclude _) _

/-! ## The walk -/

/-- The value that was picked for a variable, if one was. -/
def picked (values : Array (Option Int)) (k : Nat) : Option Int := values.getD k none

theorem picked_setIfInBounds {v : Int} (hi : i < values.size) (k : Nat) :
    picked (values.setIfInBounds i (some v)) k = if k = i then some v else picked values k := by
  simp only [picked, Array.getD_eq_getD_getElem?, Array.getElem?_setIfInBounds]
  by_cases hik : i = k
  · subst hik
    simp [hi]
  · rw [if_neg hik, if_neg (Ne.symm hik)]

/-- Only `i` is new among the variables before `i + 1`, and it took `v`. -/
theorem forall_picked_succ {v w : Int} {p : Nat → Prop} (hi : i < values.size) :
    (∀ k < i + 1, p k → picked (values.setIfInBounds i (some v)) k ≠ some w) ↔
      (∀ k < i, p k → picked values k ≠ some w) ∧ (p i → w ≠ v) := by
  simp only [picked_setIfInBounds hi]
  refine ⟨?_, ?_⟩
  · intro hall
    refine ⟨fun k hk hpk => ?_, fun hpi hwv => ?_⟩
    · have hne := hall k (by omega) hpk
      rwa [if_neg (by omega)] at hne
    · refine hall i (by omega) hpi ?_
      rw [if_pos rfl, hwv]
  · intro h k hk hpk
    obtain ⟨hold, hnew⟩ := h
    split
    · next hki =>
        subst hki
        exact fun heq => hnew hpk (Option.some.inj heq).symm
    · exact hold k (by omega) hpk

/-- What is left for `k` by those of its neighbours that come before it. -/
def LeftFor (base : Network) (values : Array (Option Int)) (k : Nat) (w : Int) : Prop :=
  w ∈ base.domain k ∧ ∀ l < k, base.distinct.adjacent k l = true → picked values l ≠ some w

/-- What holds when the variables before `i` have been visited. -/
structure Picked (base : Network) (order : ValueOrder) (i : Nat) (net : Network)
    (values : Array (Option Int)) : Prop where
  same : SameButDomains base net
  size_values : values.size = base.size
  sound : net.Sound
  /-- A variable still to come has lost what its visited neighbours took. -/
  pending : ∀ j, i ≤ j → ∀ w, w ∈ net.domain j ↔
    w ∈ base.domain j ∧ ∀ k < i, base.distinct.adjacent j k = true → picked values k ≠ some w
  visited : ∀ k < i, base.leader k = k →
    ∃ v, picked values k = some v ∧ order.IsFirst (LeftFor base values k) v

namespace Picked

theorem first (hs : base.Sound) :
    Picked base order 0 base (Array.replicate base.size none) where
  same := SameButDomains.refl base
  size_values := Array.size_replicate
  sound := hs
  pending j _ w := by simp
  visited k hk := absurd hk (Nat.not_lt_zero k)

/-- The neighbours before `i` took fewer values than `i` has. -/
theorem exists_mem (h : Picked base order i net values) (hs : base.Sound)
    (hslack : base.distinct.degree i < (base.domain i).size) : ∃ v, v ∈ net.domain i := by
  let taken : Finset Int := ((Finset.range base.size).filter fun k =>
    base.distinct.adjacent i k = true).image fun k => (picked values k).getD 0
  have hcard : taken.card < (base.domain i).size := by
    refine Nat.lt_of_le_of_lt Finset.card_image_le ?_
    rwa [← hs.sound_distinct.degree_eq]
  obtain ⟨v, hv, hfree⟩ := (hs.normal i).exists_mem_not_mem hcard
  refine ⟨v, (h.pending i (Nat.le_refl i) v).2 ⟨hv, ?_⟩⟩
  intro k _ hik hpick
  refine hfree (Finset.mem_image.2 ⟨k, ?_, ?_⟩)
  · exact Finset.mem_filter.2 ⟨Finset.mem_range.2 (hs.sound_distinct.lt_right hik), hik⟩
  · rw [hpick]
    rfl

/-- A variable that is not its own leader is passed over: it has no neighbours. -/
theorem skip (h : Picked base order i net values) (hm : base.Merged) (hs : base.Sound)
    (hlead : base.leader i ≠ i) : Picked base order (i + 1) net values where
  same := h.same
  size_values := h.size_values
  sound := h.sound
  pending j hj w := by
    rw [h.pending j (Nat.le_of_succ_le hj)]
    refine and_congr_right fun _ => forall_congr' fun k => ?_
    refine ⟨?_, ?_⟩
    · intro hk hki hjk
      rcases Nat.lt_succ_iff_lt_or_eq.1 hki with hlt | rfl
      · exact hk hlt hjk
      · exact absurd (hm.leader_of_distinct _ _ (hs.sound_distinct.symm _ _ hjk)) hlead
    · exact fun hk hki => hk (Nat.lt_succ_of_lt hki)
  visited k hk hkl := by
    rcases Nat.lt_succ_iff_lt_or_eq.1 hk with hlt | rfl
    · exact h.visited k hlt hkl
    · exact absurd hkl hlead

/-- A leader takes the first value left for it. -/
theorem take (h : Picked base order i net values) (hm : base.Merged) (hs : base.Sound)
    (hi : i < base.size) {v : Int} (hv : (net.domain i).first? order = some v) :
    Picked base order (i + 1) (net.settle i v) (values.setIfInBounds i (some v)) := by
  have hsize : i < values.size := by
    rw [h.size_values]
    exact hi
  have hpicked : ∀ k, picked (values.setIfInBounds i (some v)) k = if k = i then some v else
      picked values k := picked_setIfInBounds hsize
  have hnone : ∀ j, net.equal.adjacent i j = false := by
    rw [h.same.equal_eq]
    exact hm.not_equal i
  have hleft : ∀ k ≤ i, ∀ w, LeftFor base (values.setIfInBounds i (some v)) k w ↔
      LeftFor base values k w := by
    intro k hk w
    refine and_congr_right fun _ => forall_congr' fun l => forall_congr' fun hl => ?_
    rw [hpicked, if_neg (by omega)]
  refine ⟨h.same.trans (sameButDomains_settle net i v), ?_, h.sound.settle i v, ?_, ?_⟩
  · rw [Array.size_setIfInBounds, h.size_values]
  · intro j hj w
    have hold := h.pending j (by omega) w
    have hji : base.distinct.adjacent i j = base.distinct.adjacent j i :=
      hs.sound_distinct.comm i j
    rw [domain_settle h.sound hnone v (by omega), h.same.distinct_eq, hji]
    rw [forall_picked_succ hsize, ← and_assoc, ← hold]
    split
    · next hadj => simp [Domain.mem_exclude, hadj]
    · next hadj => simp [hadj]
  · intro k hk hlead
    have hfirst : ∀ u, order.IsFirst (LeftFor base (values.setIfInBounds i (some v)) k) u ↔
        order.IsFirst (LeftFor base values k) u := by
      intro u
      rw [ValueOrder.IsFirst, ValueOrder.IsFirst]
      simp only [hleft k (by omega)]
    rw [hpicked]
    split
    · next hki =>
        subst hki
        refine ⟨v, rfl, (hfirst v).2 ?_⟩
        have hv := (h.sound.normal k).first?_eq_some_iff.1 hv
        rw [ValueOrder.IsFirst] at hv ⊢
        simp only [h.pending k (Nat.le_refl k)] at hv
        exact hv
    · next hki =>
        obtain ⟨u, hu, hufirst⟩ := h.visited k (by omega) hlead
        exact ⟨u, hu, (hfirst u).2 hufirst⟩

end Picked

/-- The walk visits all variables, each leader with a value left to take. -/
theorem pick_returns (hs : base.Sound) (hm : base.Merged)
    (hslack : ∀ i < base.size, base.distinct.degree i < (base.domain i).size) (m : Nat) :
    ∀ {i net values}, i + m = base.size → Picked base order i net values →
      Returns (pick order (List.range' i m) net values).outcome fun r =>
        Picked base order base.size r.1 r.2 := by
  induction m with
  | zero =>
      intro i net values him h
      rw [show i = base.size by omega] at h
      exact Traced.returns_pure h
  | succ m ih =>
      intro i net values him h
      have hi : i < base.size := by omega
      rw [List.range'_succ, pick, h.same.leader_eq]
      split
      · obtain ⟨v, hmem⟩ := h.exists_mem hs (hslack i hi)
        split
        · next hnone => exact absurd hmem (Domain.first?_eq_none_iff.1 hnone v)
        · next u hu =>
            exact Traced.returns_note (ih (by omega) (h.take hm hs hi hu))
      · next hlead => exact ih (by omega) (h.skip hm hs hlead)

/-! ## The witness -/

/-- Every variable of a list is given the value picked for its leader. -/
theorem assignFrom_returns {σ : Nat → Int} :
    ∀ {ps : List (Variable × Nat)} {s : Assignment},
      (∀ p ∈ ps, picked values (net.leader p.2) = some (σ p.2)) →
      ((s.entries.map fun e => e.1.name) ++ ps.map fun p => p.1.name).Nodup →
      assignFrom net values ps s = .ok ⟨s.entries ++ ps.map fun p => (p.1, σ p.2)⟩ := by
  intro ps
  induction ps with
  | nil =>
      intro s _ _
      rw [assignFrom, List.map_nil, List.append_nil]
  | cons p ps ih =>
      intro s hvalues hnames
      obtain ⟨x, i⟩ := p
      have hi : values.getD (net.leader i) none = some (σ i) := hvalues _ List.mem_cons_self
      have hx : x.name ∉ s.entries.map fun e => e.1.name := by
        rw [List.map_cons] at hnames
        intro hmem
        exact (List.nodup_append.1 hnames).2.2 _ hmem _ List.mem_cons_self rfl
      have hinsert : (s.insert x (σ i)).entries = s.entries ++ [(x, σ i)] :=
        Assignment.assign_of_not_mem hx
      rw [assignFrom, hi]
      simp only []
      rw [ih (fun p hp => hvalues p (List.mem_cons_of_mem _ hp)) ?_, hinsert]
      · rw [List.append_assoc]
        rfl
      · rw [hinsert, List.map_append, List.append_assoc]
        simpa using hnames

/-- The value that a finished walk leaves for a variable: that of its leader. -/
def valueFor (net : Network) (values : Array (Option Int)) (i : Nat) : Int :=
  (picked values (net.leader i)).getD 0

namespace Picked

theorem picked_leader (h : Picked base order base.size net values) (hs : base.Sound)
    (hm : base.Merged) (hi : i < base.size) :
    picked values (base.leader i) = some (base.valueFor values i) := by
  obtain ⟨v, hv, -⟩ := h.visited _ (hs.leader_lt i hi) (hm.leader_leader i)
  rw [valueFor, hv]
  rfl

theorem valueFor_leader (hm : base.Merged) (values : Array (Option Int)) (i : Nat) :
    base.valueFor values (base.leader i) = base.valueFor values i := by
  rw [valueFor, hm.leader_leader, valueFor]

/-- A leader has the first value that its earlier neighbours left. -/
theorem isFirst_valueFor (h : Picked base order base.size net values) (hs : base.Sound)
    (hm : base.Merged) (hi : i < base.size) (hlead : base.leader i = i) :
    order.IsFirst (fun v => v ∈ base.domain i ∧
      ∀ k < i, base.distinct.adjacent i k = true → base.valueFor values k ≠ v)
      (base.valueFor values i) := by
  obtain ⟨v, hv, hfirst⟩ := h.visited i hi hlead
  have hvalue : base.valueFor values i = v := by
    rw [valueFor, hlead, hv]
    rfl
  have hleft : ∀ w, LeftFor base values i w ↔ w ∈ base.domain i ∧
      ∀ k < i, base.distinct.adjacent i k = true → base.valueFor values k ≠ w := by
    intro w
    refine and_congr_right fun _ => forall_congr' fun k => forall_congr' fun hk =>
      forall_congr' fun hik => ?_
    have hkl := hm.leader_of_distinct _ _ (hs.sound_distinct.symm _ _ hik)
    have hpick := h.picked_leader hs hm (i := k) (by omega)
    rw [hkl] at hpick
    rw [hpick, ne_eq, Option.some.injEq]
  rw [hvalue]
  rw [ValueOrder.IsFirst] at hfirst ⊢
  simpa only [hleft] using hfirst

/-- The ends of an inequality have different values: the later one had to avoid the other. -/
theorem valueFor_ne (h : Picked base order base.size net values) (hs : base.Sound)
    (hm : base.Merged) {i j : Nat} (hij : base.distinct.adjacent i j = true) :
    base.valueFor values i ≠ base.valueFor values j := by
  have hlater : ∀ {i j : Nat}, base.distinct.adjacent i j = true → j < i →
      base.valueFor values j ≠ base.valueFor values i := by
    intro i j hij hlt
    have hlead := hm.leader_of_distinct i j hij
    have hi := hs.sound_distinct.lt_left hij
    exact (h.isFirst_valueFor hs hm hi hlead).1.2 j hlt hij
  rcases Nat.lt_trichotomy i j with hlt | heq | hgt
  · exact hlater (hs.sound_distinct.symm _ _ hij) hlt
  · exact absurd heq (hs.sound_distinct.ne hij)
  · exact (hlater hij hgt).symm

end Picked

/-- Where every variable has more values than neighbours, a witness is read off a finished
walk. -/
theorem witness_returns (hs : net.Sound) (hm : net.Merged) (hnames : DistinctNames net.vars)
    (hslack : ∀ i < net.size, net.distinct.degree i < (net.domain i).size) (order : ValueOrder) :
    ∃ values settled, (net.witness order).outcome =
        .ok (.ofValues net.vars (net.valueFor values), settled) ∧
      Picked net order net.size settled values := by
  have hfirst : Picked net order 0 net (Array.replicate net.size none) := Picked.first hs
  obtain ⟨⟨settled, values⟩, hpick, hend⟩ :=
    pick_returns hs hm hslack net.size (Nat.zero_add _) hfirst
  have hvars : settled.vars = net.vars := hend.same.vars_eq
  have hleader : ∀ i, settled.leader i = net.leader i := hend.same.leader_eq
  have hassign : settled.assignFrom values net.vars.toList.zipIdx .empty =
      .ok (.ofValues net.vars (net.valueFor values)) := by
    refine assignFrom_returns ?_ ?_
    · intro h hp
      obtain ⟨x, i⟩ := h
      have hi : i < net.size := by
        have := List.snd_lt_of_mem_zipIdx hp
        simpa [size] using this
      rw [hleader]
      exact hend.picked_leader hs hm hi
    · have hmap : (net.vars.toList.zipIdx.map fun p => p.1.name) =
          net.vars.toList.map Variable.name := by
        rw [← List.zipIdx_map_fst 0 net.vars.toList, List.map_map, List.zipIdx_map_fst]
        rfl
      exact hmap.symm ▸ hnames
  refine ⟨values, settled, ?_, hend⟩
  rw [← List.range_eq_range'] at hpick
  have hsize : (Assignment.ofValues net.vars (net.valueFor values)).size = settled.size := by
    rw [Assignment.size_ofValues, size, hvars]
  rw [witness, Traced.outcome_bind, hpick]
  simp only [Except.bind]
  rw [hvars, Traced.outcome_bind, Traced.outcome_ofExcept, hassign]
  simp only [Except.bind]
  exact (congrArg Traced.outcome (if_pos hsize)).trans rfl

/--
A network without critical variables needs no search, in either order: reading a
witness is not refused and gives every variable a value. A leader has the first
value that its earlier neighbours left of its domain, a member of a class has the
value of its leader, and the ends of an inequality have different values.
-/
theorem witness_of_critical?_eq_none (hs : net.Sound) (hm : net.Merged)
    (hnames : DistinctNames net.vars) (hv : net.AllViable) (hc : net.critical? = none)
    (order : ValueOrder) :
    ∃ (σ : Nat → Int) (settled : Network),
      (net.witness order).outcome = .ok (.ofValues net.vars σ, settled) ∧
      (∀ i < net.size, net.leader i = i → order.IsFirst (fun v => v ∈ net.domain i ∧
        ∀ k < i, net.distinct.adjacent i k = true → σ k ≠ v) (σ i)) ∧
      (∀ i < net.size, σ i = σ (net.leader i)) ∧
      ∀ i j, net.distinct.adjacent i j = true → σ i ≠ σ j := by
  obtain ⟨values, settled, houtcome, hend⟩ :=
    witness_returns hs hm hnames (fun i hi => degree_lt_size hs hv hc hi) order
  refine ⟨net.valueFor values, settled, houtcome, ?_, ?_, ?_⟩
  · intro i hi hlead
    exact hend.isFirst_valueFor hs hm hi hlead
  · intro i _
    exact (Picked.valueFor_leader hm values i).symm
  · intro i j hij
    exact hend.valueFor_ne hs hm hij

/-- A triangle of inequalities whose corners have four values each, one of them with a
second member in its class. -/
def slackTriangle : Network where
  vars := #[.ofWidth "a" 2 (by decide), .ofWidth "b" 2 (by decide), .ofWidth "c" 2 (by decide),
    .ofWidth "d" 2 (by decide)]
  domains := #[.ofWidth 2, .ofWidth 2, .ofWidth 2, .ofWidth 2]
  equal := .edgeless 4
  distinct := (((Graph.edgeless 4).link 0 1).link 1 2).link 0 2
  leaders := #[0, 1, 2, 0]

theorem sound_slackTriangle : slackTriangle.Sound where
  size_domains := rfl
  size_leaders := rfl
  normal i := by
    match i with
    | 0 | 1 | 2 | 3 => exact Domain.normal_ofInterval _
    | i + 4 =>
        rw [domain_of_size_le (Nat.le_add_left 4 i)]
        exact Domain.normal_empty
  sound_equal := Graph.sound_edgeless 4
  sound_distinct := (((Graph.sound_edgeless 4).link (by decide) (by decide) (by decide)).link
    (by decide) (by decide) (by decide)).link (by decide) (by decide) (by decide)
  leader_lt := by decide

theorem merged_slackTriangle : slackTriangle.Merged where
  not_equal := Graph.adjacent_edgeless 4
  leader_leader i := by
    match i with
    | 0 | 1 | 2 | 3 => rfl
    | i + 4 => rfl
  leader_of_distinct i j hij := by
    have hi := sound_slackTriangle.sound_distinct.lt_left hij
    have hj := sound_slackTriangle.sound_distinct.lt_right hij
    have hall : ∀ i < 4, ∀ j < 4, slackTriangle.distinct.adjacent i j = true →
        slackTriangle.leader i = i := by decide +kernel
    exact hall i hi j hj hij

theorem witness_slackTriangle :
    slackTriangle.critical? = none ∧ ∃ (σ : Nat → Int) (settled : Network),
      (slackTriangle.witness .descending).outcome = .ok (.ofValues slackTriangle.vars σ, settled) ∧
      ∀ i j, slackTriangle.distinct.adjacent i j = true → σ i ≠ σ j := by
  have hviable : ∀ i < 4, (slackTriangle.domain i).contains 0 = true := by decide +kernel
  have hcritical : slackTriangle.critical? = none := by decide +kernel
  obtain ⟨σ, settled, houtcome, -, -, hne⟩ :=
    witness_of_critical?_eq_none sound_slackTriangle merged_slackTriangle
      (show (["a", "b", "c", "d"] : List String).Nodup by decide)
      (fun i hi => ⟨0, (Domain.contains_iff _ _).1 (hviable i hi)⟩) hcritical .descending
  exact ⟨hcritical, σ, settled, houtcome, hne⟩

end Network

end FiniteDomain
