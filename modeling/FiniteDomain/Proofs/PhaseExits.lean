import FiniteDomain.Proofs.CollapseExact
import FiniteDomain.Proofs.GreedyWitness
import FiniteDomain.Network.Inequality
import Mathlib

/-!
# What a phase leaves, whichever way it ends

A phase that gets stuck leaves off in the middle: a class may be merged in part, its domains
narrowed and its inequalities moved, and nothing is undone. What can be said of a phase
all the same is what every step of it keeps, and `Steady` collects that. It is kept by
one step after another, so a phase may end after any of them.

Nothing is assumed of what was done before but that the network is sound. In particular
classes may be merged on top of a merge that got stuck. Leaders are then whatever they
were, and they still do not pass their variables: a head is met before the rest of its
component. `Swept` says how that comes about. What is behind the sweep, or swallowed, is so
together with everything that equals it.
-/

namespace FiniteDomain

namespace Network

variable {net mid net' : Network} {d : Domain} {g : Graph} {i j a b head m : Nat} {v : Int}
  {members swallowed : IndexSet} {heads ms : List Nat} {order : ValueOrder}

theorem mem_of_mem_setDomain (h : v ∈ (net.setDomain i d).domain j) :
    v ∈ net.domain j ∨ j = i ∧ v ∈ d := by
  by_cases hji : j = i
  · subst hji
    rcases Nat.lt_or_ge j net.domains.size with hj | hj
    · rw [domain_setDomain_self d hj] at h
      exact Or.inr ⟨rfl, h⟩
    · rw [domain_of_size_le (by rwa [size_domains_setDomain])] at h
      exact absurd h (Domain.isEmpty_iff.1 rfl v)
  · rw [domain_setDomain_ne net d hji] at h
    exact Or.inl h

/-- What a step may do to a network, carried to its end or not. -/
structure Steady (net net' : Network) : Prop where
  sound : net'.Sound
  vars_eq : net'.vars = net.vars
  leader_le : (∀ i, net.leader i ≤ i) → ∀ i, net'.leader i ≤ i
  mem_of_mem : ∀ i v, v ∈ net'.domain i → v ∈ net.domain i

namespace Steady

theorem refl (hs : net.Sound) : Steady net net := ⟨hs, rfl, id, fun _ _ => id⟩

theorem trans (h : Steady net mid) (h' : Steady mid net') : Steady net net' where
  sound := h'.sound
  vars_eq := h'.vars_eq.trans h.vars_eq
  leader_le hle := h'.leader_le (h.leader_le hle)
  mem_of_mem i v hv := h.mem_of_mem i v (h'.mem_of_mem i v hv)

theorem size_eq (h : Steady net net') : net'.size = net.size := size_congr h.vars_eq

/-- Goes on after a phase that has passed. -/
theorem andThen {phase : Phase} {next : Network → Phase} (h : Steady net phase.network)
    (hnext : ∀ mid, phase = .passed mid → Steady net mid → Steady mid (next mid).network) :
    Steady net (phase.andThen next).network := by
  cases phase with
  | stuck mid cause => exact h
  | passed mid => exact h.trans (hnext mid rfl h)

theorem setDomain (hs : net.Sound) (hd : d.Normal) (hsub : ∀ v, v ∈ d → v ∈ net.domain i) :
    Steady net (net.setDomain i d) where
  sound := hs.setDomain i hd
  vars_eq := rfl
  leader_le := id
  mem_of_mem j v hv := by
    rcases mem_of_mem_setDomain hv with hkept | ⟨rfl, hnew⟩
    · exact hkept
    · exact hsub v hnew

theorem foldl_setDomain {f : Domain → Domain} (hnormal : ∀ d : Domain, d.Normal → (f d).Normal)
    (hsub : ∀ (d : Domain) (v : Int), d.Normal → v ∈ f d → v ∈ d) (hs : net.Sound)
    (js : List Nat) :
    Steady net (js.foldl (fun net j => net.setDomain j (f (net.domain j))) net) := by
  induction js generalizing net with
  | nil => exact refl hs
  | cons j js ih =>
      have hstep : Steady net (net.setDomain j (f (net.domain j))) :=
        setDomain hs (hnormal _ (hs.normal j)) fun v => hsub _ v (hs.normal j)
      exact hstep.trans (ih hstep.sound)

theorem withDistinct (hs : net.Sound) (hg : g.Sound net.size) :
    Steady net { net with distinct := g } :=
  ⟨hs.withDistinct hg, rfl, id, fun _ _ => id⟩

end Steady

/-! ## One class -/

theorem steady_narrow (hs : net.Sound) : Steady net (narrow head ms net).network := by
  induction ms generalizing net with
  | nil => exact Steady.refl hs
  | cons m ms ih =>
      have hcommon := (hs.normal head).intersect (hs.normal m)
      have hstep : Steady net (net.setDomain head ((net.domain head).intersect (net.domain m))) :=
        Steady.setDomain hs hcommon fun v hv =>
          ((Domain.mem_intersect (hs.normal head) (hs.normal m)).1 hv).1
      rw [narrow]
      split
      · exact hstep.trans (ih hstep.sound)
      · exact hstep

/-- The members are given what their head has left, which is nothing new to them. -/
theorem Narrowed.steady_share (h : Narrowed head ms net mid) (hsteady : Steady net mid)
    (hnodup : ms.Nodup) (hlt : ∀ m ∈ ms, m < net.size) : Steady mid (share head ms mid) := by
  have hs := hsteady.sound
  have hsame := sameButDomains_share head ms mid
  have hdomain : ∀ i, (share head ms mid).domain i =
      if i ∈ ms then mid.domain head else mid.domain i :=
    domain_share hs hnodup (hsteady.size_eq.symm ▸ hlt)
  refine ⟨hs.of_sameButDomains hsame fun i => ?_, hsame.vars_eq, fun hle i => ?_, fun i v hv => ?_⟩
  · rw [hdomain]
    split
    · exact hs.normal head
    · exact hs.normal i
  · rw [hsame.leader_eq]
    exact hle i
  · rw [hdomain] at hv
    split at hv
    · next hi =>
        by_cases hih : i = head
        · rwa [hih]
        · rw [h.domain_eq i hih]
          exact ((h.mem_domain v).1 hv).2 i hi
    · exact hv

theorem steady_redirect {others : List Nat} (hs : net.Sound) (hhead : head < net.size)
    (hlt : ∀ o ∈ others, o < net.size) :
    Steady net (redirect head members m others net).network := by
  induction others generalizing net with
  | nil => exact Steady.refl hs
  | cons o os ih =>
      rw [redirect]
      split
      · exact Steady.refl hs
      · next hout =>
          rw [Bool.or_eq_true, decide_eq_true_eq, not_or] at hout
          obtain ⟨ho, hos⟩ := List.forall_mem_cons.1 hlt
          have hstep := Steady.withDistinct hs
            (hs.sound_distinct.link hhead ho (Ne.symm hout.1))
          exact hstep.trans (ih hstep.sound hhead hos)

theorem steady_takeOver (hs : net.Sound) (hhead : head < net.size) :
    Steady net (takeOver head members ms net).network := by
  induction ms generalizing net with
  | nil => exact Steady.refl hs
  | cons m ms ih =>
      have hothers : ∀ o ∈ (net.distinct.neighbors m).toList, o < net.size := fun o ho =>
        hs.sound_distinct.lt_right (IndexSet.mem_toList.1 ho)
      have hstep := Steady.withDistinct hs (hs.sound_distinct.isolate m)
      rw [takeOver]
      refine (hstep.trans (steady_redirect hstep.sound hhead hothers)).andThen ?_
      intro mid _ hmid
      exact ih hmid.sound (hmid.size_eq.symm ▸ hhead)

theorem steady_gather (hs : net.Sound) (hhead : head < net.size) :
    Steady net (gather head members net).network := by
  unfold gather
  split
  · exact Steady.refl hs
  · exact steady_takeOver hs hhead

theorem steady_lead (hs : net.Sound) (hhead : head < net.size) (hlt : ∀ m ∈ ms, m < net.size)
    (hle : ∀ m ∈ ms, head ≤ m) : Steady net (lead head ms net) := by
  have hleader : ∀ i, (lead head ms net).leader i = if i ∈ ms then head else net.leader i :=
    leader_lead (hs.size_leaders.symm ▸ hlt)
  refine ⟨⟨hs.size_domains, ?_, hs.normal, hs.sound_equal, hs.sound_distinct, fun i hi => ?_⟩,
    rfl, fun hold i => ?_, fun _ _ => id⟩
  · exact (leaders_foldl_size head ms net.leaders).trans hs.size_leaders
  · rw [hleader]
    split
    · exact hhead
    · exact hs.leader_lt i hi
  · rw [hleader]
    split
    · next hi => exact hle i hi
    · exact hold i

theorem steady_mergeClass (hs : net.Sound) (hhead : head < net.size)
    (hlt : ∀ m, members.contains m = true → head < m ∧ m < net.size) :
    Steady net (mergeClass head members net).network := by
  have hms : ∀ m ∈ members.toList, head < m ∧ m < net.size := fun m hm =>
    hlt m (IndexSet.mem_toList.1 hm)
  have hnot : head ∉ members.toList := fun hmem => Nat.lt_irrefl head (hms head hmem).1
  have hends := narrow_ends hs hhead hnot
  rw [mergeClass]
  refine (steady_narrow hs).andThen fun narrowed hpassed hnarrowed => ?_
  rw [hpassed] at hends
  have hshare := Narrowed.steady_share hends hnarrowed (IndexSet.nodup_toList _)
    fun m hm => (hms m hm).2
  have hsize := hshare.size_eq.trans hnarrowed.size_eq
  refine (hshare.trans (steady_gather hshare.sound (hsize.symm ▸ hhead))).andThen ?_
  intro gathered _ hgathered
  have hsize' := hgathered.size_eq.trans hnarrowed.size_eq
  refine steady_lead hgathered.sound (hsize'.symm ▸ hhead) ?_ fun m hm => (hms m hm).1.le
  rw [hsize']
  exact fun m hm => (hms m hm).2

/-! ## All classes -/

/-- A vertex that the sweep has passed, or that a class has swallowed. -/
def Met (heads : List Nat) (swallowed : IndexSet) (i : Nat) : Prop :=
  i ∈ heads → swallowed.contains i = true

/-- Has every vertex been met together with all that equals it? -/
def Swept (g : Graph) (heads : List Nat) (swallowed : IndexSet) : Prop :=
  ∀ i j, g.Connected i j → Met heads swallowed i → Met heads swallowed j

namespace Swept

theorem first {n : Nat} (hg : g.Sound n) (capacity : Nat) :
    Swept g g.vertices (.withCapacity capacity) := by
  intro i j hc hmet
  have hi : i ∉ g.vertices := by
    intro hi
    have hin := hmet hi
    rw [IndexSet.contains_withCapacity] at hin
    cases hin
  have hij : i = j := by
    by_contra hne
    exact hi (hg.mem_vertices.2 (hc.exists_adjacent hne))
  exact hij ▸ hmet

theorem skip (h : Swept g (head :: heads) swallowed) (hin : swallowed.contains head = true) :
    Swept g heads swallowed := by
  have hmet : ∀ i, Met heads swallowed i ↔ Met (head :: heads) swallowed i := by
    intro i
    refine ⟨fun hi hmem => ?_, fun hi hmem => hi (List.mem_cons_of_mem _ hmem)⟩
    rcases List.mem_cons.1 hmem with rfl | hmem
    · exact hin
    · exact hi hmem
  intro i j hc
  rw [hmet, hmet]
  exact h i j hc

/-- Merging a class meets what equals its head. -/
theorem advance (h : Swept g (head :: heads) swallowed) (hhead : head ∉ heads)
    (hmembers : ∀ i, members.contains i = true ↔ g.Connected head i ∧ i ≠ head) :
    Swept g heads (swallowed.union members) := by
  have hmet : ∀ i, Met heads (swallowed.union members) i ↔
      Met (head :: heads) swallowed i ∨ g.Connected head i := by
    intro i
    simp only [Met, IndexSet.contains_union, Bool.or_eq_true, hmembers, List.mem_cons]
    by_cases hih : i = head
    · subst hih
      simp [hhead, Graph.Connected.refl]
    · tauto
  intro i j hc
  rw [hmet, hmet]
  exact Or.imp (h i j hc) fun hi => hi.trans hc

/-- What equals a head that no class has swallowed is still ahead of it. -/
theorem head_lt {n : Nat} (h : Swept g (head :: heads) swallowed) (hg : g.Sound n)
    (hfresh : swallowed.contains head = false) (hsorted : (head :: heads).Pairwise (· < ·))
    (hc : g.Connected head i) (hne : i ≠ head) : head < i := by
  have hahead : i ∈ head :: heads := by
    by_contra hbehind
    have hmet := h i head (hc.symm hg) fun hmem => absurd hmem hbehind
    rw [hmet List.mem_cons_self] at hfresh
    cases hfresh
  exact (List.pairwise_cons.1 hsorted).1 i (List.mem_of_ne_of_mem hne hahead)

end Swept

theorem mergeClasses_steady :
    ∀ {swallowed : IndexSet} {net : Network}, net.Sound → heads.Pairwise (· < ·) →
      (∀ i ∈ heads, i < net.size) → Swept net.equal heads swallowed →
      Returns (mergeClasses heads swallowed net).outcome fun phase => Steady net phase.network := by
  induction heads with
  | nil =>
      intro swallowed net hs _ _ _
      exact Traced.returns_pure (Steady.refl hs)
  | cons head heads ih =>
      intro swallowed net hs hsorted hlt hswept
      obtain ⟨hbefore, hsorted'⟩ := List.pairwise_cons.1 hsorted
      obtain ⟨hhead, hlt'⟩ := List.forall_mem_cons.1 hlt
      rw [mergeClasses]
      split
      · next hin => exact ih hs hsorted' hlt' (hswept.skip hin)
      · next hout =>
          rw [Bool.not_eq_true] at hout
          refine Traced.returns_bind (classOf_returns hs head) fun members hmembers => ?_
          have hclass : ∀ m, members.contains m = true → head < m ∧ m < net.size := by
            intro m hm
            obtain ⟨hc, hne⟩ := (hmembers m).1 hm
            exact ⟨hswept.head_lt hs.sound_equal hout hsorted hc hne, hc.lt hs.sound_equal hne⟩
          have hends := mergeClass_ends hs (fun m hm => (hclass m hm).2) hhead
            (not_contains_head hmembers)
          have hsteady := steady_mergeClass hs hhead hclass
          refine Traced.returns_note ?_
          generalize mergeClass head members net = phase at hends hsteady
          cases phase with
          | stuck mid cause => exact Traced.returns_pure hsteady
          | passed mid =>
              have hnext := hswept.advance (fun hmem => Nat.lt_irrefl _ (hbefore _ hmem)) hmembers
              rw [← hends.equal_eq] at hnext
              have hrest := ih hsteady.sound hsorted' (hsteady.size_eq.symm ▸ hlt') hnext
              exact hrest.mono fun phase h => hsteady.trans h

theorem steady_clearEqual (hs : net.Sound) : Steady net net.clearEqual where
  sound :=
    { size_domains := hs.size_domains
      size_leaders := hs.size_leaders
      normal := hs.normal
      sound_equal := (adjacent_foldl_isolate hs.sound_equal (List.range net.size) 0 0).1
      sound_distinct := hs.sound_distinct
      leader_lt := hs.leader_lt }
  vars_eq := rfl
  leader_le := id
  mem_of_mem _ _ := id

theorem isEdgeless_clearEqual (hs : net.Sound) : net.clearEqual.equal.isEdgeless = true := by
  refine (steady_clearEqual hs).sound.sound_equal.isEdgeless_iff.2 fun a b => ?_
  rw [Bool.eq_false_iff]
  intro hab
  obtain ⟨hab, ha, -⟩ := (adjacent_foldl_isolate hs.sound_equal (List.range net.size) a b).2.1 hab
  exact ha (List.mem_range.2 (hs.sound_equal.lt_left hab))

/-- Collapsing is never refused, whatever leaders there are already. -/
theorem collapse_steady (hs : net.Sound) :
    Returns net.collapse.outcome fun phase => Steady net phase.network := by
  have hpass := mergeClasses_steady hs (Graph.pairwise_vertices net.equal)
    (fun i hi => hs.sound_equal.lt_of_mem_vertices hi)
    (Swept.first hs.sound_equal net.size)
  rw [collapse]
  refine Traced.returns_bind hpass fun phase hsteady => ?_
  cases phase with
  | stuck mid cause => exact Traced.returns_pure hsteady
  | passed mid =>
      have hs' : mid.Sound := hsteady.sound
      simp only [isEdgeless_clearEqual hs', if_true]
      exact Traced.returns_pure (hsteady.trans (steady_clearEqual hs'))

/-! ## Inequalities -/

section Edge

variable (hs : net.Sound) (ha : a < net.size) (hb : b < net.size) (hab : a ≠ b)

include hs ha hb hab

theorem steady_relax : Steady net (net.relax a b) :=
  Steady.withDistinct hs (hs.sound_distinct.unlink ha hb hab)

theorem concede_steady {loser : Nat} {common : Domain} :
    Returns (net.concede a b loser common).outcome fun phase => Steady net phase.network := by
  have hlost : Steady net (net.setDomain loser ((net.domain loser).exclude common)) :=
    Steady.setDomain hs ((hs.normal loser).exclude common) fun v hv => (Domain.mem_exclude.1 hv).1
  rw [concede]
  exact Traced.returns_note (Traced.returns_pure
    (hlost.trans (steady_relax hlost.sound ha hb hab)))

theorem decideInequality_steady :
    Returns (net.decideInequality a b).outcome fun phase => Steady net phase.network := by
  have hidle := Steady.refl hs
  unfold decideInequality
  simp only []
  split
  · split
    · split
      · exact Traced.returns_pure hidle
      · exact concede_steady hs ha hb hab
      · exact concede_steady hs ha hb hab
      · exact Traced.returns_pure hidle
    · exact Traced.returns_pure hidle
  · exact Traced.returns_note (Traced.returns_pure (steady_relax hs ha hb hab))

end Edge

theorem decideInequalities_steady {es : List (Nat × Nat)} :
    ∀ {net : Network}, net.Sound → (∀ e ∈ es, e.1 < e.2 ∧ e.2 < net.size) →
      Returns (decideInequalities es net).outcome fun phase => Steady net phase.network := by
  induction es with
  | nil =>
      intro net hs _
      exact Traced.returns_pure (Steady.refl hs)
  | cons e es ih =>
      intro net hs hes
      obtain ⟨a, b⟩ := e
      obtain ⟨⟨hlt, hb⟩, hes⟩ := List.forall_mem_cons.1 hes
      rw [decideInequalities]
      refine Traced.returns_bind (decideInequality_steady hs (hlt.trans hb) hb hlt.ne) ?_
      intro phase hsteady
      cases phase with
      | stuck mid cause => exact Traced.returns_pure hsteady
      | passed mid =>
          have hrest := ih hsteady.sound (hsteady.size_eq.symm ▸ hes)
          exact hrest.mono fun phase h => hsteady.trans h

theorem prune_steady (hs : net.Sound) :
    Returns net.prune.outcome fun phase => Steady net phase.network := by
  refine decideInequalities_steady hs fun e he => ?_
  obtain ⟨hadj, hlt⟩ := hs.sound_distinct.mem_edges.1 he
  exact ⟨hlt, hs.sound_distinct.lt_right hadj⟩

/-! ## Reading a witness -/

theorem steady_settle (hs : net.Sound) (hv : v ∈ net.domain i) : Steady net (net.settle i v) := by
  have hsingle := Domain.normal_singleton v
  have hpin : Steady net (net.pin i v) :=
    Steady.setDomain hs hsingle fun w hw => Domain.mem_singleton.1 hw ▸ hv
  have hsame := Steady.foldl_setDomain (f := (·.intersect (.singleton v)))
    (fun d hd => hd.intersect hsingle)
    (fun d w hd hw => ((Domain.mem_intersect hd hsingle).1 hw).1) hpin.sound
    (net.equal.neighbors i).toList
  have hother := Steady.foldl_setDomain (f := (·.exclude (.singleton v)))
    (fun d hd => hd.exclude _) (fun d w _ hw => (Domain.mem_exclude.1 hw).1) hsame.sound
    (net.distinct.neighbors i).toList
  exact (hpin.trans hsame).trans hother

theorem pick_steady {is : List Nat} {values values' : Array (Option Int)} :
    ∀ {net : Network}, net.Sound → (pick order is net values).outcome = .ok (net', values') →
      Steady net net' := by
  induction is generalizing values with
  | nil =>
      intro net hs h
      cases h
      exact Steady.refl hs
  | cons i is ih =>
      intro net hs h
      rw [pick] at h
      split at h
      · split at h
        · cases h
        · next v hv =>
            have hfirst := (hs.normal i).first?_eq_some_iff.1 hv
            have hsettle := steady_settle hs hfirst.1
            exact hsettle.trans (ih hsettle.sound h)
      · exact ih hs h

theorem witness_steady {s : Assignment} (hs : net.Sound)
    (h : (net.witness order).outcome = .ok (s, net')) : Steady net net' := by
  obtain ⟨⟨settled, values⟩, hpick, h⟩ := Traced.outcome_bind_eq_ok.1 h
  obtain ⟨found, -, h⟩ := Traced.outcome_bind_eq_ok.1 h
  have hsettled := pick_steady hs hpick
  split at h
  · cases h
    exact hsettled
  · cases h

end Network

end FiniteDomain
