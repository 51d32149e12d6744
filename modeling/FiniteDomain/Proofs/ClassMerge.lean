import FiniteDomain.Network.Equality
import FiniteDomain.Proofs.NetworkModel
import FiniteDomain.Proofs.Returning
import Mathlib

/-!
# Merging one class

Merging a class moves its members onto their head, and everything that is done to
domains and inequalities can be said in terms of that move. The domain of the head
becomes what all members can take. The graph of inequalities is contracted: its
edges afterwards are the images of its edges before. Contractions compose, so one
member can be taken over at a time, and a member that is still to come is not
disturbed by those that came before it.

A merge gets stuck in two ways only: the members have no value in common, or an
inequality joins two of them. The conflict names such a pair, and the inequality is
one that was there before the merge began. It cannot have been made by redirecting
another one, because the merge would have stopped at that one first.
-/

namespace FiniteDomain

namespace Graph

variable {g h k : Graph} {r s : Nat → Nat}

/-- Are the edges of `h` those of `g` with every vertex `a` moved to `r a`? -/
def Contracts (g : Graph) (r : Nat → Nat) (h : Graph) : Prop :=
  ∀ c d, h.adjacent c d = true ↔ ∃ a b, g.adjacent a b = true ∧ r a = c ∧ r b = d

theorem Contracts.of_id (hr : ∀ a, r a = a) : g.Contracts r g := by
  intro c d
  simp only [hr]
  refine ⟨?_, ?_⟩
  · intro hcd
    exact ⟨c, d, hcd, rfl, rfl⟩
  · intro h
    obtain ⟨a, b, hab, rfl, rfl⟩ := h
    exact hab

theorem Contracts.trans {t : Nat → Nat} (hgh : g.Contracts r h) (hhk : h.Contracts s k)
    (ht : ∀ a, t a = s (r a)) : g.Contracts t k := by
  intro c d
  rw [hhk]
  refine ⟨?_, ?_⟩
  · intro h
    obtain ⟨_, _, hmoved, rfl, rfl⟩ := h
    obtain ⟨a, b, hab, rfl, rfl⟩ := (hgh _ _).1 hmoved
    exact ⟨a, b, hab, ht a, ht b⟩
  · intro h
    obtain ⟨a, b, hab, rfl, rfl⟩ := h
    exact ⟨r a, r b, (hgh _ _).2 ⟨a, b, hab, rfl, rfl⟩, (ht a).symm, (ht b).symm⟩

end Graph

namespace Network

variable {net : Network} {head m : Nat} {members : IndexSet}

/-- The head of a class and its members. -/
def InClass (head : Nat) (members : IndexSet) (i : Nat) : Prop :=
  i = head ∨ members.contains i = true

/-- Where a vertex goes when those of a list are moved onto `head`. -/
def onto (head : Nat) (ms : List Nat) (a : Nat) : Nat := if a ∈ ms then head else a

theorem onto_of_not_mem {ms : List Nat} {a : Nat} (h : a ∉ ms) : onto head ms a = a := if_neg h

theorem onto_cons {ms : List Nat} (hhead : head ∉ ms) (a : Nat) :
    onto head (m :: ms) a = onto head ms (onto head [m] a) := by
  unfold onto
  by_cases ham : a = m
  · subst ham
    simp [hhead]
  · simp [ham]

/-! ## Domains -/

/-- What narrowing the domain of `head` to that of others leaves. -/
structure Narrowed (head : Nat) (ms : List Nat) (net net' : Network) : Prop where
  same : SameButDomains net net'
  domain_eq : ∀ i, i ≠ head → net'.domain i = net.domain i
  normal : (net'.domain head).Normal
  mem_domain : ∀ v, v ∈ net'.domain head ↔ v ∈ net.domain head ∧ ∀ m ∈ ms, v ∈ net.domain m
  viable : (∃ v, v ∈ net.domain head) → ∃ v, v ∈ net'.domain head

theorem narrow_ends {ms : List Nat} (hs : net.Sound) (hhead : head < net.size)
    (hnot : head ∉ ms) :
    (narrow head ms net).Ends (Narrowed head ms net)
      (fun cause => (∃ m ∈ ms, cause = .equality (net.name head) (net.name m)) ∧
        ¬∃ v, v ∈ net.domain head ∧ ∀ m ∈ ms, v ∈ net.domain m) := by
  induction ms generalizing net with
  | nil =>
      refine ⟨SameButDomains.refl net, fun _ _ => rfl, hs.normal head, ?_, id⟩
      simp
  | cons m ms ih =>
      rw [List.mem_cons, not_or] at hnot
      obtain ⟨hne, hnot⟩ := hnot
      let common := (net.domain head).intersect (net.domain m)
      have hcommon : ∀ v, v ∈ common ↔ v ∈ net.domain head ∧ v ∈ net.domain m :=
        fun v => Domain.mem_intersect (hs.normal head) (hs.normal m)
      have hsound : (net.setDomain head common).Sound :=
        hs.setDomain head ((hs.normal head).intersect (hs.normal m))
      have hself : (net.setDomain head common).domain head = common :=
        domain_setDomain_self common (by rwa [hs.size_domains])
      have hother : ∀ i, i ≠ head → (net.setDomain head common).domain i = net.domain i :=
        fun i hi => domain_setDomain_ne net common hi
      have hall : ∀ v, (v ∈ common ∧ ∀ m ∈ ms, v ∈ (net.setDomain head common).domain m) ↔
          v ∈ net.domain head ∧ ∀ k ∈ m :: ms, v ∈ net.domain k := by
        intro v
        rw [hcommon, List.forall_mem_cons, and_assoc]
        refine and_congr_right fun _ => and_congr_right fun _ => forall_congr' fun k =>
          forall_congr' fun hk => ?_
        rw [hother k (fun heq => hnot (heq ▸ hk))]
      rw [narrow]
      split
      · next hviable =>
          rw [viable_iff, hself] at hviable
          refine (ih hsound hhead hnot).mono ?_ ?_
          · intro net' h
            obtain ⟨hsame, hrest, hnormal, hdomain, hsome⟩ := h
            rw [hself] at hdomain hsome
            refine ⟨(SameButDomains.setDomain net head common).trans hsame, ?_, hnormal, ?_, ?_⟩
            · intro i hi
              rw [hrest i hi, hother i hi]
            · intro v
              rw [hdomain, hall]
            · exact fun _ => hsome hviable
          · intro cause h
            obtain ⟨⟨k, hk, hcause⟩, hnone⟩ := h
            refine ⟨⟨k, List.mem_cons_of_mem _ hk, hcause⟩, ?_⟩
            simpa only [hself, hall] using hnone
      · next hviable =>
          refine ⟨⟨m, List.mem_cons_self, rfl⟩, ?_⟩
          intro h
          obtain ⟨v, hv, hvs⟩ := h
          refine hviable (viable_iff.2 ⟨v, ?_⟩)
          rw [hself, hcommon]
          exact ⟨hv, hvs m List.mem_cons_self⟩

theorem sameButDomains_share (head : Nat) (ms : List Nat) (net : Network) :
    SameButDomains net (share head ms net) :=
  sameButDomains_foldl _ net ms

theorem domain_share {ms : List Nat} (hs : net.Sound) (hnodup : ms.Nodup)
    (hlt : ∀ m ∈ ms, m < net.size) (i : Nat) :
    (share head ms net).domain i = if i ∈ ms then net.domain head else net.domain i :=
  domain_foldl_setDomain (fun _ => net.domain head) hnodup
    (fun m hm => hs.size_domains.symm ▸ hlt m hm) i

/-! ## Inequalities -/

theorem redirect_ends {others : List Nat} (hg : net.distinct.Sound net.size)
    (hhead : head < net.size) (hlt : ∀ o ∈ others, o < net.size) :
    (redirect head members m others net).Ends
      (fun net' => ∃ g, net' = { net with distinct := g } ∧ g.Sound net.size ∧
        (∀ o ∈ others, ¬InClass head members o) ∧
        ∀ c d, g.adjacent c d = true ↔ net.distinct.adjacent c d = true ∨
          (c = head ∧ d ∈ others) ∨ (d = head ∧ c ∈ others))
      (fun cause => ∃ o ∈ others, InClass head members o ∧
        cause = .contradiction (net.name m) (net.name o)) := by
  induction others generalizing net with
  | nil =>
      refine ⟨net.distinct, rfl, hg, ?_, ?_⟩
      · intro o ho
        cases ho
      · simp
  | cons o os ih =>
      rw [redirect]
      split
      · next hin =>
          rw [Bool.or_eq_true, decide_eq_true_eq] at hin
          exact ⟨o, List.mem_cons_self, hin, rfl⟩
      · next hout =>
          rw [Bool.or_eq_true, decide_eq_true_eq] at hout
          have ho : o < net.size := hlt o List.mem_cons_self
          have hne : head ≠ o := fun h => hout (Or.inl h.symm)
          have hlink := hg.link hhead ho hne
          refine (@ih { net with distinct := net.distinct.link head o } hlink hhead
            (fun p hp => hlt p (List.mem_cons_of_mem _ hp))).mono ?_ ?_
          · intro net' h
            obtain ⟨g, rfl, hg', hfree, hadj⟩ := h
            refine ⟨g, rfl, hg', ?_, ?_⟩
            · intro p hp
              rcases List.mem_cons.1 hp with rfl | hp
              · exact hout
              · exact hfree p hp
            · intro c d
              rw [hadj, Graph.adjacent_link (hg.order_eq.symm ▸ hhead) (hg.order_eq.symm ▸ ho) hne,
                List.mem_cons, List.mem_cons]
              tauto
          · intro cause h
            obtain ⟨p, hp, hin, hcause⟩ := h
            exact ⟨p, List.mem_cons_of_mem _ hp, hin, hcause⟩

/-- Handing the inequalities of one vertex to another is a contraction. -/
theorem contracts_onto {n : Nat} {g h : Graph} (hg : g.Sound n)
    (hstep : ∀ c d, h.adjacent c d = true ↔ (g.adjacent c d = true ∧ c ≠ m ∧ d ≠ m) ∨
      (c = head ∧ g.adjacent m d = true) ∨ (d = head ∧ g.adjacent m c = true)) :
    g.Contracts (onto head [m]) h := by
  have hmoved : onto head [m] m = head := if_pos (List.mem_singleton.2 rfl)
  have hkept : ∀ {a}, a ≠ m → onto head [m] a = a := fun ha =>
    onto_of_not_mem fun h => ha (List.mem_singleton.1 h)
  intro c d
  rw [hstep]
  refine ⟨?_, ?_⟩
  · intro hcd
    rcases hcd with ⟨hcd, hc, hd⟩ | ⟨rfl, hmd⟩ | ⟨rfl, hmc⟩
    · exact ⟨c, d, hcd, hkept hc, hkept hd⟩
    · exact ⟨m, d, hmd, hmoved, hkept (hg.ne hmd).symm⟩
    · exact ⟨c, m, hg.symm _ _ hmc, hkept (hg.ne hmc).symm, hmoved⟩
  · intro hcd
    obtain ⟨a, b, hab, rfl, rfl⟩ := hcd
    by_cases ha : a = m
    · subst ha
      rw [hmoved, hkept (hg.ne hab).symm]
      exact Or.inr (Or.inl ⟨rfl, hab⟩)
    · by_cases hb : b = m
      · subst hb
        rw [hmoved, hkept ha]
        exact Or.inr (Or.inr ⟨rfl, hg.symm _ _ hab⟩)
      · rw [hkept ha, hkept hb]
        exact Or.inl ⟨hab, ha, hb⟩

/-- What taking over the inequalities of members leaves, and what stops it. -/
def TakesOver (head : Nat) (members : IndexSet) (ms : List Nat) (net : Network)
    (phase : Phase) : Prop :=
  phase.Ends
    (fun net' => ∃ g, net' = { net with distinct := g } ∧ g.Sound net.size ∧
      net.distinct.Contracts (onto head ms) g)
    (fun cause => ∃ a b, net.distinct.adjacent a b = true ∧ InClass head members a ∧
      InClass head members b ∧ cause = .contradiction (net.name a) (net.name b))

theorem takeOver_ends {ms : List Nat} (hg : net.distinct.Sound net.size)
    (hhead : head < net.size) (hnot : head ∉ ms) (hms : ∀ m ∈ ms, members.contains m = true) :
    TakesOver head members ms net (takeOver head members ms net) := by
  induction ms generalizing net with
  | nil => exact ⟨net.distinct, rfl, hg, Graph.Contracts.of_id fun a => onto_of_not_mem (by simp)⟩
  | cons m ms ih =>
      rw [List.mem_cons, not_or] at hnot
      obtain ⟨hne, hnot⟩ := hnot
      have hm : members.contains m = true := hms m List.mem_cons_self
      have hothers : ∀ o, o ∈ (net.distinct.neighbors m).toList ↔
          net.distinct.adjacent m o = true := fun o => IndexSet.mem_toList
      have hisolate := hg.isolate m
      have hredirect := @redirect_ends { net with distinct := net.distinct.isolate m } head m
        members (net.distinct.neighbors m).toList hisolate hhead
        fun o ho => hg.lt_right ((hothers o).1 ho)
      rw [takeOver]
      refine hredirect.andThen ?_ ?_
      · intro mid h
        obtain ⟨g, rfl, hg', hfree, hadj⟩ := h
        have hstep : ∀ c d, g.adjacent c d = true ↔
            (net.distinct.adjacent c d = true ∧ c ≠ m ∧ d ≠ m) ∨
              (c = head ∧ net.distinct.adjacent m d = true) ∨
              (d = head ∧ net.distinct.adjacent m c = true) := by
          intro c d
          rw [hadj, hothers, hothers, Graph.adjacent_isolate hg]
        have hcontract := contracts_onto hg hstep
        refine (@ih { net with distinct := g } hg' hhead hnot
          (fun k hk => hms k (List.mem_cons_of_mem _ hk))).mono ?_ ?_
        · intro net' h
          obtain ⟨g', rfl, hg'', hcontract'⟩ := h
          exact ⟨g', rfl, hg'', hcontract.trans hcontract' (onto_cons hnot)⟩
        · -- An inequality inside the class is not one that `m` handed over.
          intro cause h
          obtain ⟨a, b, hab, ha, hb, hcause⟩ := h
          rcases (hstep a b).1 hab with ⟨hab, -, -⟩ | ⟨-, hmb⟩ | ⟨-, hma⟩
          · exact ⟨a, b, hab, ha, hb, hcause⟩
          · exact absurd hb (hfree b ((hothers b).2 hmb))
          · exact absurd ha (hfree a ((hothers a).2 hma))
      · intro cause h
        obtain ⟨o, ho, hin, hcause⟩ := h
        exact ⟨m, o, (hothers o).1 ho, Or.inr hm, hin, hcause⟩

theorem gather_ends (hg : net.distinct.Sound net.size) (hhead : head < net.size)
    (hnot : members.contains head = false) :
    TakesOver head members members.toList net (gather head members net) := by
  unfold gather
  split
  · next m hfind =>
      have hm := List.find?_some hfind
      have hadj := IndexSet.mem_toList.1 (List.mem_of_find?_eq_some hfind)
      exact ⟨head, m, hadj, Or.inl rfl, Or.inr hm, rfl⟩
  · refine takeOver_ends hg hhead ?_ fun m hm => IndexSet.mem_toList.1 hm
    rw [IndexSet.mem_toList, hnot]
    exact Bool.false_ne_true

/-! ## Leaders -/

theorem leaders_foldl_size (head : Nat) (ms : List Nat) (leaders : Array Nat) :
    (ms.foldl (fun leaders m => leaders.setIfInBounds m head) leaders).size = leaders.size := by
  induction ms generalizing leaders with
  | nil => rfl
  | cons m ms ih => rw [List.foldl_cons, ih, Array.size_setIfInBounds]

theorem leader_lead {ms : List Nat} (hlt : ∀ m ∈ ms, m < net.leaders.size) (i : Nat) :
    (lead head ms net).leader i = if i ∈ ms then head else net.leader i := by
  simp only [lead, leader]
  generalize net.leaders = leaders at hlt ⊢
  induction ms generalizing leaders with
  | nil => simp
  | cons m ms ih =>
      rw [List.foldl_cons, ih _ (fun k hk => by
        rw [Array.size_setIfInBounds]
        exact hlt k (List.mem_cons_of_mem _ hk))]
      have hm := hlt m List.mem_cons_self
      simp only [Array.getD_eq_getD_getElem?, Array.getElem?_setIfInBounds, List.mem_cons]
      by_cases him : i = m
      · subst him
        simp [hm]
      · simp [him, Ne.symm him]

/-! ## The whole class -/

/-- What merging a class does to a network. -/
structure ClassMerged (head : Nat) (members : IndexSet) (net net' : Network) : Prop where
  sound : net'.Sound
  vars_eq : net'.vars = net.vars
  equal_eq : net'.equal = net.equal
  leader_eq : ∀ i, net'.leader i = if members.contains i = true then head else net.leader i
  domain_class : ∀ i, InClass head members i → ∀ v,
    v ∈ net'.domain i ↔ ∀ j, InClass head members j → v ∈ net.domain j
  domain_other : ∀ i, ¬InClass head members i → net'.domain i = net.domain i
  viable_class : (∃ v, v ∈ net.domain head) → ∃ v, v ∈ net'.domain head
  contracts : net.distinct.Contracts (onto head members.toList) net'.distinct

/-- Why a class cannot be merged. -/
def ClassStuck (head : Nat) (members : IndexSet) (net : Network) (cause : Conflict) : Prop :=
  ((∃ m, members.contains m = true ∧ cause = .equality (net.name head) (net.name m)) ∧
    ¬∃ v, ∀ i, InClass head members i → v ∈ net.domain i) ∨
  ∃ a b, net.distinct.adjacent a b = true ∧ InClass head members a ∧ InClass head members b ∧
    cause = .contradiction (net.name a) (net.name b)

theorem forall_inClass {p : Nat → Prop} :
    (∀ i, InClass head members i → p i) ↔ p head ∧ ∀ m ∈ members.toList, p m := by
  simp only [InClass, IndexSet.mem_toList]
  refine ⟨?_, ?_⟩
  · exact fun h => ⟨h head (Or.inl rfl), fun m hm => h m (Or.inr hm)⟩
  · rintro ⟨hhead, hms⟩ i (rfl | hi)
    · exact hhead
    · exact hms i hi

/-- What there is of a merged class before its inequalities are moved. -/
structure Shared (head : Nat) (members : IndexSet) (net net' : Network) : Prop where
  same : SameButDomains net net'
  sound : net'.Sound
  domain_class : ∀ i, InClass head members i → ∀ v,
    v ∈ net'.domain i ↔ ∀ j, InClass head members j → v ∈ net.domain j
  domain_other : ∀ i, ¬InClass head members i → net'.domain i = net.domain i
  viable_class : (∃ v, v ∈ net.domain head) → ∃ v, v ∈ net'.domain head

section Merge

variable (hs : net.Sound) (hlt : ∀ m, members.contains m = true → m < net.size)

include hs hlt

theorem Narrowed.shared {narrowed : Network} (h : Narrowed head members.toList net narrowed) :
    Shared head members net (share head members.toList narrowed) := by
  have hsound : narrowed.Sound := by
    refine hs.of_sameButDomains h.same fun i => ?_
    by_cases hi : i = head
    · rw [hi]
      exact h.normal
    · rw [h.domain_eq i hi]
      exact hs.normal i
  have hdomain : ∀ i, (share head members.toList narrowed).domain i =
      if i ∈ members.toList then narrowed.domain head else narrowed.domain i := by
    refine domain_share hsound (IndexSet.nodup_toList _) fun m hm => ?_
    rw [h.same.size_eq]
    exact hlt m (IndexSet.mem_toList.1 hm)
  have hclass : ∀ i, InClass head members i →
      (share head members.toList narrowed).domain i = narrowed.domain head := by
    intro i hi
    rw [hdomain]
    rcases hi with rfl | hi
    · exact ite_self _
    · exact if_pos (IndexSet.mem_toList.2 hi)
  have hsame := h.same.trans (sameButDomains_share head members.toList narrowed)
  refine ⟨hsame, ?_, ?_, ?_, ?_⟩
  · refine hs.of_sameButDomains hsame fun i => ?_
    rw [hdomain]
    split
    · exact hsound.normal head
    · exact hsound.normal i
  · intro i hi v
    rw [hclass i hi, h.mem_domain, forall_inClass]
  · intro i hi
    rw [InClass, not_or] at hi
    rw [hdomain, if_neg (mt IndexSet.mem_toList.1 hi.2), h.domain_eq i hi.1]
  · rw [hclass head (Or.inl rfl)]
    exact h.viable

theorem Shared.classMerged {shared : Network} (h : Shared head members net shared) {g : Graph}
    (hhead : head < net.size) (hg : g.Sound shared.size)
    (hcontract : shared.distinct.Contracts (onto head members.toList) g) :
    ClassMerged head members net (lead head members.toList { shared with distinct := g }) := by
  have hleaders : ∀ m ∈ members.toList, m < shared.leaders.size := by
    rw [h.same.leaders_eq, hs.size_leaders]
    exact fun m hm => hlt m (IndexSet.mem_toList.1 hm)
  have hleader : ∀ i, (lead head members.toList { shared with distinct := g }).leader i =
      if members.contains i = true then head else net.leader i := by
    intro i
    rw [@leader_lead { shared with distinct := g } head members.toList hleaders]
    simp only [IndexSet.mem_toList]
    exact congrArg _ (h.same.leader_eq i)
  exact
    { sound :=
        { size_domains := h.sound.size_domains
          size_leaders := (leaders_foldl_size _ _ _).trans h.sound.size_leaders
          normal := h.sound.normal
          sound_equal := h.sound.sound_equal
          sound_distinct := hg
          leader_lt := fun i hi => by
            rw [hleader]
            show _ < shared.size
            rw [h.same.size_eq]
            split
            · exact hhead
            · exact hs.leader_lt i (h.same.size_eq ▸ hi) }
      vars_eq := h.same.vars_eq
      equal_eq := h.same.equal_eq
      leader_eq := hleader
      domain_class := h.domain_class
      domain_other := h.domain_other
      viable_class := h.viable_class
      contracts := h.same.distinct_eq ▸ hcontract }

theorem mergeClass_ends (hhead : head < net.size) (hnot : members.contains head = false) :
    (mergeClass head members net).Ends (ClassMerged head members net)
      (ClassStuck head members net) := by
  have hnotMem : head ∉ members.toList := by
    rw [IndexSet.mem_toList, hnot]
    exact Bool.false_ne_true
  rw [mergeClass]
  refine (narrow_ends hs hhead hnotMem).andThen ?_ ?_
  · intro narrowed hnarrowed
    have hshared := hnarrowed.shared hs hlt
    generalize share head members.toList narrowed = shared at hshared
    have hgather : TakesOver head members members.toList shared (gather head members shared) :=
      gather_ends hshared.sound.sound_distinct (by rwa [hshared.same.size_eq]) hnot
    refine hgather.andThen ?_ ?_
    · intro gathered h
      obtain ⟨g, rfl, hg, hcontract⟩ := h
      exact hshared.classMerged hs hlt hhead hg hcontract
    · intro cause h
      obtain ⟨a, b, hab, ha, hb, hcause⟩ := h
      refine Or.inr ⟨a, b, hshared.same.distinct_eq ▸ hab, ha, hb, ?_⟩
      rwa [name_congr hshared.same.vars_eq, name_congr hshared.same.vars_eq] at hcause
  · intro cause h
    obtain ⟨⟨m, hm, hcause⟩, hnone⟩ := h
    refine Or.inl ⟨⟨m, IndexSet.mem_toList.1 hm, hcause⟩, ?_⟩
    simpa only [forall_inClass] using hnone

end Merge

end Network

end FiniteDomain
