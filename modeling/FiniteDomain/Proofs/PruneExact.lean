import FiniteDomain.Network.Inequality
import FiniteDomain.Proofs.NetworkModel
import FiniteDomain.Proofs.Returning
import Mathlib

/-!
# Deciding inequalities is exact

A pass over the inequalities changes a network in two ways only. A variable gives up
a value that a neighbour is bound to take, and an inequality is dropped whose ends
have no value in common. Neither loses or gains an assignment that fits the network,
so they can be done in any order and any number of times: `Pruned` is reflexive and
transitive, and a pass is a chain of such steps.

What the search needs beyond that is progress. A variable with one value left keeps
it, because a domain never runs empty, and each of its inequalities is decided when
the pass comes to it. An inequality is still there when the pass comes to it, since
the pass visits each once and drops only the one it visits.
-/

namespace FiniteDomain

namespace Network

variable {net mid net' : Network} {a b i j : Nat} {σ : Nat → Int} {v w : Int}
  {cause : Conflict}

/-- The values given by `σ` are left and are different where they have to be. -/
structure Fits (net : Network) (σ : Nat → Int) : Prop where
  mem : ∀ i < net.size, σ i ∈ net.domain i
  distinct : ∀ i j, net.distinct.adjacent i j = true → σ i ≠ σ j

/-- There is one value left for a variable. -/
def Pinned (net : Network) (i : Nat) : Prop := ∃ v, ∀ w, w ∈ net.domain i ↔ w = v

theorem Sound.isSingleton_iff (hs : net.Sound) (i : Nat) :
    (net.domain i).isSingleton = true ↔ net.Pinned i :=
  Domain.isSingleton_iff (hs.normal i)

theorem Pinned.eq_of_mem (h : net.Pinned i) (hv : v ∈ net.domain i) (hw : w ∈ net.domain i) :
    w = v := by
  obtain ⟨x, hx⟩ := h
  rw [(hx w).1 hw, (hx v).1 hv]

theorem exists_ne_of_not_pinned (h : ¬net.Pinned i) (hv : v ∈ net.domain i) :
    ∃ w, w ∈ net.domain i ∧ w ≠ v := by
  by_contra hnone
  refine h ⟨v, fun w => ⟨fun hw => ?_, fun hw => hw ▸ hv⟩⟩
  by_contra hne
  exact hnone ⟨w, hw, hne⟩

/-- What a pass over inequalities may do to a network. -/
structure Pruned (net net' : Network) : Prop where
  sound : net'.Sound
  vars_eq : net'.vars = net.vars
  equal_eq : net'.equal = net.equal
  leader_eq : ∀ i, net'.leader i = net.leader i
  mem_of_mem : ∀ i v, v ∈ net'.domain i → v ∈ net.domain i
  viable : ∀ i, (∃ v, v ∈ net.domain i) → ∃ v, v ∈ net'.domain i
  /-- The domain of a variable without inequalities is not touched. -/
  domain_eq : ∀ i, (∀ j, net.distinct.adjacent i j = false) → net'.domain i = net.domain i
  adjacent_of_adjacent : ∀ i j, net'.distinct.adjacent i j = true →
    net.distinct.adjacent i j = true
  fits_iff : ∀ σ, net'.Fits σ ↔ net.Fits σ

namespace Pruned

theorem refl (hs : net.Sound) : Pruned net net where
  sound := hs
  vars_eq := rfl
  equal_eq := rfl
  leader_eq _ := rfl
  mem_of_mem _ _ h := h
  viable _ h := h
  domain_eq _ _ := rfl
  adjacent_of_adjacent _ _ h := h
  fits_iff _ := Iff.rfl

theorem trans (h : Pruned net mid) (h' : Pruned mid net') : Pruned net net' where
  sound := h'.sound
  vars_eq := h'.vars_eq.trans h.vars_eq
  equal_eq := h'.equal_eq.trans h.equal_eq
  leader_eq i := (h'.leader_eq i).trans (h.leader_eq i)
  mem_of_mem i v hv := h.mem_of_mem i v (h'.mem_of_mem i v hv)
  viable i hi := h'.viable i (h.viable i hi)
  domain_eq i hi := by
    have hmid : ∀ j, mid.distinct.adjacent i j = false := by
      intro j
      rw [Bool.eq_false_iff]
      intro hij
      exact Bool.false_ne_true ((hi j).symm.trans (h.adjacent_of_adjacent i j hij))
    rw [h'.domain_eq i hmid, h.domain_eq i hi]
  adjacent_of_adjacent i j hij := h.adjacent_of_adjacent i j (h'.adjacent_of_adjacent i j hij)
  fits_iff σ := (h'.fits_iff σ).trans (h.fits_iff σ)

theorem size_eq (h : Pruned net net') : net'.size = net.size :=
  size_congr h.vars_eq

theorem name_eq (h : Pruned net net') (i : Nat) : net'.name i = net.name i :=
  name_congr h.vars_eq i

theorem pinned (h : Pruned net net') (hp : net.Pinned i) : net'.Pinned i := by
  obtain ⟨v, hv⟩ := hp
  obtain ⟨u, hu⟩ := h.viable i ⟨v, (hv v).2 rfl⟩
  have huv : u = v := (hv u).1 (h.mem_of_mem i u hu)
  refine ⟨v, fun w => ⟨fun hw => (hv w).1 (h.mem_of_mem i w hw), fun hw => ?_⟩⟩
  rw [hw, ← huv]
  exact hu

theorem model_iff (h : Pruned net net') : net'.Model σ ↔ net.Model σ := by
  have hfits := h.fits_iff σ
  have hequal := h.equal_eq
  refine ⟨?_, ?_⟩
  · intro hm
    have := hfits.1 ⟨hm.mem, hm.distinct⟩
    exact ⟨this.mem, fun i j hij => hm.equal i j (by rwa [hequal]), this.distinct⟩
  · intro hm
    have := hfits.2 ⟨hm.mem, hm.distinct⟩
    exact ⟨this.mem, fun i j hij => hm.equal i j (by rwa [← hequal]), this.distinct⟩

theorem solved_iff (h : Pruned net net') : net'.Solved σ ↔ net.Solved σ := by
  simp only [Solved, h.model_iff, h.leader_eq, h.size_eq]

theorem merged (h : Pruned net net') (hm : net.Merged) : net'.Merged where
  not_equal i j := by rw [h.equal_eq, hm.not_equal]
  leader_leader i := by rw [h.leader_eq, h.leader_eq, hm.leader_leader]
  leader_of_distinct i j hij := by
    rw [h.leader_eq]
    exact hm.leader_of_distinct i j (h.adjacent_of_adjacent i j hij)

theorem allViable (h : Pruned net net') (hv : net.AllViable) : net'.AllViable := by
  intro i hi
  rw [h.size_eq] at hi
  exact h.viable i (hv i hi)

theorem leadersFit (h : Pruned net net') (hm : net.Merged) (hf : net.LeadersFit) :
    net'.LeadersFit := by
  intro i hi v hv
  rw [h.size_eq] at hi
  rw [h.leader_eq] at hv
  by_cases hlead : net.leader i = i
  · rwa [hlead] at hv
  · -- A variable that is not its own leader has no inequalities.
    have hnone : ∀ j, net.distinct.adjacent i j = false := by
      intro j
      rw [Bool.eq_false_iff]
      exact fun hij => hlead (hm.leader_of_distinct i j hij)
    rw [h.domain_eq i hnone]
    exact hf i hi v (h.mem_of_mem _ v hv)

end Pruned

/-! ## The two changes -/

section Edge

variable (hs : net.Sound) (hab : net.distinct.adjacent a b = true)

include hs hab

theorem adjacent_relax (c d : Nat) : (net.relax a b).distinct.adjacent c d = true ↔
    net.distinct.adjacent c d = true ∧ ¬((c = a ∧ d = b) ∨ (c = b ∧ d = a)) := by
  have ha := hs.sound_distinct.lt_left hab
  have hb := hs.sound_distinct.lt_right hab
  rw [relax, Graph.adjacent_unlink (hs.sound_distinct.order_eq.symm ▸ ha)
    (hs.sound_distinct.order_eq.symm ▸ hb) (hs.sound_distinct.ne hab), not_or]

/-- An inequality can be dropped if its ends have no value in common. -/
theorem pruned_relax (hdisjoint : ∀ v, v ∈ net.domain a → v ∉ net.domain b) :
    Pruned net (net.relax a b) := by
  have ha := hs.sound_distinct.lt_left hab
  have hb := hs.sound_distinct.lt_right hab
  refine
    { sound := hs.withDistinct (hs.sound_distinct.unlink ha hb (hs.sound_distinct.ne hab))
      vars_eq := rfl
      equal_eq := rfl
      leader_eq := fun _ => rfl
      mem_of_mem := fun _ _ h => h
      viable := fun _ h => h
      domain_eq := fun _ _ => rfl
      adjacent_of_adjacent := fun c d hcd => ((adjacent_relax hs hab c d).1 hcd).1
      fits_iff := ?_ }
  intro σ
  refine ⟨?_, ?_⟩
  · intro h
    have hne : σ a ≠ σ b := fun heq => hdisjoint _ (h.mem a ha) (heq ▸ h.mem b hb)
    refine ⟨h.mem, fun c d hcd => ?_⟩
    by_cases hedge : (c = a ∧ d = b) ∨ (c = b ∧ d = a)
    · rcases hedge with ⟨rfl, rfl⟩ | ⟨rfl, rfl⟩
      · exact hne
      · exact hne.symm
    · exact h.distinct c d ((adjacent_relax hs hab c d).2 ⟨hcd, hedge⟩)
  · intro h
    exact ⟨h.mem, fun c d hcd => h.distinct c d ((adjacent_relax hs hab c d).1 hcd).1⟩

/-- A value can be given up that a neighbour is bound to take, if it is not the last one. -/
theorem pruned_exclude {common : Domain} (hcommon : ∀ u, u ∈ common ↔ u = v)
    (hwinner : ∀ u, u ∈ net.domain a → u = v) (hother : ∃ u, u ∈ net.domain b ∧ u ≠ v) :
    Pruned net (net.setDomain b ((net.domain b).exclude common)) := by
  have ha := hs.sound_distinct.lt_left hab
  have hb := hs.sound_distinct.lt_right hab
  have hsame := SameButDomains.setDomain net b ((net.domain b).exclude common)
  have hdomain : ∀ i u, u ∈ (net.setDomain b ((net.domain b).exclude common)).domain i ↔
      u ∈ net.domain i ∧ (i = b → u ≠ v) := by
    intro i u
    rw [domain_setDomain _ (hs.size_domains.symm ▸ hb)]
    split
    · next hib => simp [hib, Domain.mem_exclude, hcommon]
    · next hib => simp [hib]
  refine
    { sound := hs.setDomain b ((hs.normal b).exclude common)
      vars_eq := rfl
      equal_eq := rfl
      leader_eq := fun _ => rfl
      mem_of_mem := fun i u hu => ((hdomain i u).1 hu).1
      viable := ?_
      domain_eq := ?_
      adjacent_of_adjacent := fun _ _ h => h
      fits_iff := ?_ }
  · intro i h
    obtain ⟨u, hu⟩ := h
    by_cases hib : i = b
    · obtain ⟨w, hw, hne⟩ := hother
      exact ⟨w, (hdomain i w).2 ⟨hib ▸ hw, fun _ => hne⟩⟩
    · exact ⟨u, (hdomain i u).2 ⟨hu, fun h => absurd h hib⟩⟩
  · intro i hi
    refine domain_setDomain_ne net _ fun hib => ?_
    rw [← hib, hs.sound_distinct.comm, hi] at hab
    exact Bool.false_ne_true hab
  · intro σ
    refine ⟨?_, ?_⟩
    · intro h
      exact ⟨fun i hi => ((hdomain i _).1 (h.mem i hi)).1, h.distinct⟩
    · intro h
      refine ⟨fun i hi => (hdomain i _).2 ⟨h.mem i hi, fun hib => ?_⟩, h.distinct⟩
      have hne := h.distinct a b hab
      rw [hwinner _ (h.mem a ha)] at hne
      rw [hib]
      exact hne.symm

end Edge

/-! ## The pass -/

/-- What deciding one inequality may leave. It is dropped at least if one end is pinned, and
no other inequality is dropped. -/
structure Decided (a b : Nat) (net net' : Network) : Prop where
  pruned : Pruned net net'
  kept : ∀ c d, net.distinct.adjacent c d = true → ¬((c = a ∧ d = b) ∨ (c = b ∧ d = a)) →
    net'.distinct.adjacent c d = true
  dropped : net.Pinned a ∨ net.Pinned b → net'.distinct.adjacent a b = false

/-- An inequality that the pass has not come to is still there. -/
theorem Decided.rest {es : List (Nat × Nat)} (h : Decided a b net mid) (hlt : a < b)
    (hfresh : (a, b) ∉ es)
    (hes : ∀ e ∈ es, net.distinct.adjacent e.1 e.2 = true ∧ e.1 < e.2) :
    ∀ e ∈ es, mid.distinct.adjacent e.1 e.2 = true ∧ e.1 < e.2 := by
  intro e he
  obtain ⟨hadj, helt⟩ := hes e he
  refine ⟨h.kept _ _ hadj ?_, helt⟩
  intro hedge
  rcases hedge with ⟨h1, h2⟩ | ⟨h1, h2⟩
  · have heq : e = (a, b) := Prod.ext h1 h2
    exact hfresh (heq ▸ he)
  · omega

/-- Why the inequalities of a network cannot be decided. -/
structure Unprunable (net : Network) (cause : Conflict) : Prop where
  no_fit : ∀ σ, ¬net.Fits σ
  cause_eq : ∃ a b, net.distinct.adjacent a b = true ∧ a < b ∧
    cause = .inequality (net.name a) (net.name b)

theorem decided_of_pruned (hab : net.distinct.adjacent a b = true) (h : Pruned net mid)
    (hadj : mid.distinct = net.distinct) (hdisjoint : ∀ v, v ∈ mid.domain a → v ∉ mid.domain b) :
    Decided a b net (mid.relax a b) := by
  have hmid : mid.distinct.adjacent a b = true := by rwa [hadj]
  refine ⟨h.trans (pruned_relax h.sound hmid hdisjoint), ?_, ?_⟩
  · intro c d hcd hedge
    rw [adjacent_relax h.sound hmid, hadj]
    exact ⟨hcd, hedge⟩
  · intro _
    rw [Bool.eq_false_iff]
    intro hdropped
    exact ((adjacent_relax h.sound hmid a b).1 hdropped).2 (Or.inl ⟨rfl, rfl⟩)

section Step

variable (hs : net.Sound) (hab : net.distinct.adjacent a b = true)

include hs hab

theorem concede_returns {winner loser : Nat} {common : Domain}
    (hends : (winner = a ∧ loser = b) ∨ (winner = b ∧ loser = a))
    (hcommon : ∀ u, u ∈ common ↔ u = v) (hwinner : ∀ u, u ∈ net.domain winner → u = v)
    (hother : ∃ u, u ∈ net.domain loser ∧ u ≠ v) :
    Returns (net.concede a b loser common).outcome fun phase =>
      phase.Ends (Decided a b net) (Unprunable net) := by
  have hedge : net.distinct.adjacent winner loser = true := by
    rcases hends with ⟨rfl, rfl⟩ | ⟨rfl, rfl⟩
    · exact hab
    · rwa [hs.sound_distinct.comm]
  have hpruned := pruned_exclude hs hedge hcommon hwinner hother
  have hloser : loser < net.domains.size :=
    hs.size_domains.symm ▸ hs.sound_distinct.lt_right hedge
  have hdisjoint : ∀ u, u ∈ net.domain winner →
      u ∉ (net.domain loser).exclude common := by
    intro u hu hu'
    exact (Domain.mem_exclude.1 hu').2 ((hcommon u).2 (hwinner u hu))
  rw [concede]
  refine Traced.returns_note (Traced.returns_pure ?_)
  refine decided_of_pruned hab hpruned rfl fun u hua hub => ?_
  have hne := hs.sound_distinct.ne hedge
  rcases hends with ⟨rfl, rfl⟩ | ⟨rfl, rfl⟩
  · rw [domain_setDomain_self _ hloser] at hub
    rw [domain_setDomain_ne _ _ hne] at hua
    exact hdisjoint u hua hub
  · rw [domain_setDomain_self _ hloser] at hua
    rw [domain_setDomain_ne _ _ hne] at hub
    exact hdisjoint u hub hua

theorem decideInequality_returns (hlt : a < b) :
    Returns (net.decideInequality a b).outcome fun phase =>
      phase.Ends (Decided a b net) (Unprunable net) := by
  have hda := hs.normal a
  have hdb := hs.normal b
  have hcommon : ∀ u, u ∈ (net.domain a).intersect (net.domain b) ↔
      u ∈ net.domain a ∧ u ∈ net.domain b := fun u => Domain.mem_intersect hda hdb
  -- Nothing is done only where both ends have a choice left.
  have hidle : ¬(net.Pinned a ∨ net.Pinned b) → Decided a b net net := fun hfree =>
    ⟨Pruned.refl hs, fun c d hcd _ => hcd, fun hpinned => absurd hpinned hfree⟩
  unfold decideInequality
  simp only []
  split
  · next hoverlap =>
      obtain ⟨v, hva, hvb⟩ := (Domain.overlaps_iff hda hdb).1 hoverlap
      split
      · next hsingle =>
          obtain ⟨w, hw⟩ := (Domain.isSingleton_iff (hda.intersect hdb)).1 hsingle
          have hwv : v = w := (hw v).1 ((hcommon v).2 ⟨hva, hvb⟩)
          subst hwv
          split
          · next hsa hsb =>
              rw [hs.isSingleton_iff] at hsa hsb
              refine Traced.returns_pure ⟨fun σ hfits => ?_, a, b, hab, hlt, rfl⟩
              refine hfits.distinct a b hab ?_
              rw [hsa.eq_of_mem hva (hfits.mem a (hs.sound_distinct.lt_left hab)),
                hsb.eq_of_mem hvb (hfits.mem b (hs.sound_distinct.lt_right hab))]
          · next hsa hsb =>
              rw [hs.isSingleton_iff] at hsa
              rw [Bool.eq_false_iff, ne_eq, hs.isSingleton_iff] at hsb
              exact concede_returns hs hab (Or.inl ⟨rfl, rfl⟩) hw (fun u => hsa.eq_of_mem hva)
                (exists_ne_of_not_pinned hsb hvb)
          · next hsa hsb =>
              rw [hs.isSingleton_iff] at hsb
              rw [Bool.eq_false_iff, ne_eq, hs.isSingleton_iff] at hsa
              exact concede_returns hs hab (Or.inr ⟨rfl, rfl⟩) hw (fun u => hsb.eq_of_mem hvb)
                (exists_ne_of_not_pinned hsa hva)
          · next hsa hsb =>
              rw [Bool.eq_false_iff, ne_eq, hs.isSingleton_iff] at hsa hsb
              exact Traced.returns_pure (hidle (not_or.2 ⟨hsa, hsb⟩))
      · next hmany =>
          -- With one end pinned the common values would be one.
          refine Traced.returns_pure (hidle fun hpinned => hmany ?_)
          refine (Domain.isSingleton_iff (hda.intersect hdb)).2 ⟨v, fun u => ?_⟩
          rw [hcommon]
          refine ⟨?_, ?_⟩
          · intro h
            obtain ⟨hua, hub⟩ := h
            rcases hpinned with hpinned | hpinned
            · exact hpinned.eq_of_mem hva hua
            · exact hpinned.eq_of_mem hvb hub
          · intro huv
            rw [huv]
            exact ⟨hva, hvb⟩
  · next hapart =>
      rw [Domain.overlaps_iff hda hdb] at hapart
      refine Traced.returns_note (Traced.returns_pure ?_)
      exact decided_of_pruned hab (Pruned.refl hs) rfl fun v hva hvb =>
        hapart ⟨v, hva, hvb⟩

end Step

/-- A pass over inequalities that are still there. -/
theorem decideInequalities_returns {es : List (Nat × Nat)} :
    ∀ {net : Network}, net.Sound → es.Nodup →
      (∀ e ∈ es, net.distinct.adjacent e.1 e.2 = true ∧ e.1 < e.2) →
      Returns (decideInequalities es net).outcome fun phase => phase.Ends
        (fun net' => Pruned net net' ∧ ∀ e ∈ es, net.Pinned e.1 ∨ net.Pinned e.2 →
          net'.distinct.adjacent e.1 e.2 = false)
        (Unprunable net) := by
  induction es with
  | nil =>
      intro net hs _ _
      refine Traced.returns_pure ⟨Pruned.refl hs, ?_⟩
      intro e he
      cases he
  | cons e es ih =>
      intro net hs hnodup hes
      obtain ⟨a, b⟩ := e
      obtain ⟨hfresh, hnodup⟩ := List.nodup_cons.1 hnodup
      obtain ⟨hab, hlt⟩ := hes (a, b) List.mem_cons_self
      rw [decideInequalities]
      refine Traced.returns_bind (decideInequality_returns hs hab hlt) fun phase hends => ?_
      cases phase with
      | stuck mid cause => exact Traced.returns_pure hends
      | passed mid =>
          have hrest := hends.rest hlt hfresh fun e he => hes e (List.mem_cons_of_mem _ he)
          obtain ⟨hpruned, -, hdropped⟩ := hends
          refine (ih hpruned.sound hnodup hrest).mono fun phase hends => hends.mono ?_ ?_
          · intro net' h
            obtain ⟨hpruned', hdropped'⟩ := h
            refine ⟨hpruned.trans hpruned', fun e he hpinned => ?_⟩
            rcases List.mem_cons.1 he with rfl | he
            · have hgone := hdropped hpinned
              rw [Bool.eq_false_iff] at hgone ⊢
              exact fun h => hgone (hpruned'.adjacent_of_adjacent a b h)
            · exact hdropped' e he (hpinned.imp hpruned.pinned hpruned.pinned)
          · intro cause h
            obtain ⟨c, d, hcd, hcdlt, hcause⟩ := h.cause_eq
            rw [hpruned.name_eq, hpruned.name_eq] at hcause
            exact ⟨fun σ hfits => h.no_fit σ ((hpruned.fits_iff σ).2 hfits), c, d,
              hpruned.adjacent_of_adjacent c d hcd, hcdlt, hcause⟩

/--
A pass is never refused. If it gets stuck nothing fits the network; otherwise the
same assignments fit as before, and a pinned variable has no inequality left.
-/
theorem prune_returns (hs : net.Sound) :
    Returns net.prune.outcome fun phase => phase.Ends
      (fun net' => Pruned net net' ∧
        ∀ i, net.Pinned i → ∀ j, net'.distinct.adjacent i j = false)
      (Unprunable net) := by
  have hg := hs.sound_distinct
  have hpass := decideInequalities_returns hs (Graph.nodup_edges net.distinct)
    fun e he => hg.mem_edges.1 he
  refine hpass.mono fun phase hends => hends.mono ?_ fun _ h => h
  intro net' h
  obtain ⟨hpruned, hdropped⟩ := h
  refine ⟨hpruned, fun i hp j => ?_⟩
  have hg' := hpruned.sound.sound_distinct
  rw [Bool.eq_false_iff]
  intro hij
  have hold := hpruned.adjacent_of_adjacent i j hij
  rcases Nat.lt_or_gt_of_ne (hg.ne hold) with hlt | hgt
  · rw [hdropped (i, j) (hg.mem_edges.2 ⟨hold, hlt⟩) (Or.inl hp)] at hij
    exact Bool.false_ne_true hij
  · rw [hg'.comm, hdropped (j, i) (hg.mem_edges.2 ⟨hg.symm _ _ hold, hgt⟩) (Or.inr hp)] at hij
    exact Bool.false_ne_true hij

end Network

end FiniteDomain
