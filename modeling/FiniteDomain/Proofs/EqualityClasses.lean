import FiniteDomain.Proofs.CheckedNetwork
import Mathlib

/-!
# Classes of equal variables

The class of a variable is what the search for its component finds, and the search has two
things to watch. The graph is symmetric, so every walk away from the start can turn round and
come back to it, and the start must not get into its own class all the same. And nothing in
the search itself says that it ends.

The pass over the classes takes every vertex that has an edge in ascending order and skips what
a class has swallowed before. `swallowed` grows by whole components, and a component is first
met at its first vertex. So what has been swallowed is known without looking at the pass: it is
whatever follows a first vertex that is not ahead any more. A vertex is skipped exactly if it is
not the first of its component, and the pass is the one that merges the classes of the first
vertices, in order, and looks at nothing else.

All of this is about equalities. Domains, inequalities and leaders are changed by a merge and
may be anything.
-/

namespace FiniteDomain

namespace Graph

variable {g : Graph} {n a b head i j : Nat} {ahead : List Nat} {swallowed : IndexSet}

/-! ## First vertices -/

/-- Is `a` the first vertex of the component of `i`? -/
structure IsFirst (g : Graph) (a i : Nat) : Prop where
  connected : g.Connected a i
  le : ∀ j, g.Connected i j → a ≤ j

namespace IsFirst

theorem unique (hg : g.Undirected n) (ha : g.IsFirst a i) (hb : g.IsFirst b i) : a = b :=
  Nat.le_antisymm (ha.le b (hg.connected_symm hb.connected))
    (hb.le a (hg.connected_symm ha.connected))

theorem self (hg : g.Undirected n) (h : g.IsFirst a i) : g.IsFirst a a :=
  ⟨Connected.refl g a, fun j hj => h.le j ((hg.connected_symm h.connected).trans hj)⟩

theorem of_connected (h : g.IsFirst a a) (hc : g.Connected a i) : g.IsFirst a i :=
  ⟨hc, fun j hj => h.le j (hc.trans hj)⟩

end IsFirst

/-- Does everything that can be reached from `a` come after it? -/
def isHead (g : Graph) (a : Nat) : Bool := (g.component a).toList.all (a < ·)

/-- The first vertices of the components that have more than one, in ascending order. -/
def heads (g : Graph) : List Nat := g.vertices.filter g.isHead

/-- The components that have more than one vertex. Each is given by its first vertex and the
others. -/
def classes (g : Graph) : List (Nat × IndexSet) := g.heads.map fun a => (a, g.component a)

/-- Do the classes of `heads` share out the vertices that have an edge? -/
structure SharedOut (g : Graph) (heads : List Nat) : Prop where
  /-- A head is the lowest vertex that can be reached from it. -/
  mem_iff : ∀ a, a ∈ heads ↔ (∃ b, g.adjacent a b = true) ∧ ∀ j, g.Connected a j → a ≤ j
  /-- A head is in no class, its own included. -/
  not_contains : ∀ i ∈ heads, ∀ head ∈ heads, (g.component head).contains i = false
  /-- What is not a head is in one class. -/
  existsUnique : ∀ i, (∃ b, g.adjacent i b = true) → i ∉ heads →
    ∃! head, head ∈ heads ∧ (g.component head).contains i = true

namespace Undirected

theorem exists_isFirst (hg : g.Undirected n) (i : Nat) : ∃ a, g.IsFirst a i := by
  classical
  have hsome : ∃ a, g.Connected i a := ⟨i, Connected.refl g i⟩
  exact ⟨Nat.find hsome, hg.connected_symm (Nat.find_spec hsome), fun j => Nat.find_min' hsome⟩

theorem isHead_iff (hg : g.Undirected n) : g.isHead a = true ↔ g.IsFirst a a := by
  simp only [isHead, List.all_eq_true, IndexSet.mem_toList, decide_eq_true_eq,
    hg.contains_component]
  refine ⟨fun h => ⟨Connected.refl g a, fun j hj => ?_⟩, fun h j hj => ?_⟩
  · by_cases hja : j = a
    · exact hja.ge
    · exact (h j ⟨hj, hja⟩).le
  · exact lt_of_le_of_ne (h.le j hj.1) hj.2.symm

theorem mem_heads (hg : g.Undirected n) :
    a ∈ g.heads ↔ (∃ b, g.adjacent a b = true) ∧ g.IsFirst a a := by
  rw [heads, List.mem_filter, hg.mem_vertices, hg.isHead_iff]

/-- A vertex is in the class of a head if the head is the first of its component. -/
theorem contains_component_of_mem_heads (hg : g.Undirected n) (hhead : head ∈ g.heads) :
    (g.component head).contains i = true ↔ g.IsFirst head i ∧ i ≠ head := by
  rw [hg.contains_component]
  exact and_congr_left' ⟨(hg.mem_heads.1 hhead).2.of_connected, fun h => h.connected⟩

theorem sharedOut_heads (hg : g.Undirected n) : g.SharedOut g.heads where
  mem_iff a := by
    rw [hg.mem_heads]
    exact and_congr_right fun _ => ⟨fun h => h.le, fun h => ⟨Connected.refl g a, h⟩⟩
  not_contains i hi head hhead := by
    rw [Bool.eq_false_iff, ne_eq, hg.contains_component_of_mem_heads hhead]
    exact fun h => h.2 ((hg.mem_heads.1 hi).2.unique hg h.1)
  existsUnique i hedge hi := by
    obtain ⟨a, ha⟩ := hg.exists_isFirst i
    have hne : i ≠ a := by
      rintro rfl
      exact hi (hg.mem_heads.2 ⟨hedge, ha⟩)
    have hmem : a ∈ g.heads :=
      hg.mem_heads.2 ⟨ha.connected.exists_adjacent hne.symm, ha.self hg⟩
    refine ⟨a, ⟨hmem, (hg.contains_component_of_mem_heads hmem).2 ⟨ha, hne⟩⟩, ?_⟩
    rintro b ⟨hb, hin⟩
    exact ((hg.contains_component_of_mem_heads hb).1 hin).1.unique hg ha

end Undirected

/-! ## What has been swallowed -/

/-- Has a class swallowed just what follows a first vertex that is not ahead any more? -/
def Swallows (g : Graph) (ahead : List Nat) (swallowed : IndexSet) : Prop :=
  ∀ i, swallowed.contains i = true ↔ ∃ a, a ∉ ahead ∧ g.IsFirst a i ∧ i ≠ a

namespace Swallows

theorem first (hg : g.Undirected n) (capacity : Nat) :
    g.Swallows g.vertices (.withCapacity capacity) := by
  intro i
  rw [IndexSet.contains_withCapacity]
  refine ⟨fun h => absurd h Bool.false_ne_true, ?_⟩
  rintro ⟨a, ha, hfirst, hne⟩
  exact absurd (hg.mem_vertices.2 (hfirst.connected.exists_adjacent hne.symm)) ha

/-- A vertex that is reached has been swallowed unless it is the first of its component. -/
theorem contains_eq (hg : g.Undirected n) (h : g.Swallows (head :: ahead) swallowed)
    (hsorted : (head :: ahead).Pairwise (· < ·)) :
    swallowed.contains head = !g.isHead head := by
  rw [Bool.eq_iff_iff, h, Bool.not_eq_true', ← Bool.not_eq_true, hg.isHead_iff]
  refine ⟨?_, fun hnot => ?_⟩
  · rintro ⟨a, -, hfirst, hne⟩ hhead
    exact hne (hhead.unique hg hfirst)
  · obtain ⟨a, hfirst⟩ := hg.exists_isFirst head
    have hne : head ≠ a := by
      rintro rfl
      exact hnot hfirst
    -- The first vertex comes before `head`, and only later ones are ahead.
    refine ⟨a, fun hmem => ?_, hfirst, hne⟩
    have hlt := (List.pairwise_cons.1 hsorted).1 a (List.mem_of_ne_of_mem hne.symm hmem)
    exact Nat.lt_irrefl _ (hlt.trans_le (hfirst.le head (Connected.refl g head)))

theorem skip (hg : g.Undirected n) (h : g.Swallows (head :: ahead) swallowed)
    (hhead : ¬g.IsFirst head head) : g.Swallows ahead swallowed := by
  intro i
  rw [h]
  refine exists_congr fun a => ⟨?_, ?_⟩
  · rintro ⟨ha, hfirst⟩
    exact ⟨fun hmem => ha (List.mem_cons_of_mem _ hmem), hfirst⟩
  · rintro ⟨ha, hfirst, hne⟩
    refine ⟨fun hmem => ?_, hfirst, hne⟩
    rcases List.mem_cons.1 hmem with rfl | hmem
    · exact hhead (hfirst.self hg)
    · exact ha hmem

theorem advance (hg : g.Undirected n) (h : g.Swallows (head :: ahead) swallowed)
    (hhead : g.IsFirst head head) (hnot : head ∉ ahead) :
    g.Swallows ahead (swallowed.union (g.component head)) := by
  intro i
  rw [IndexSet.contains_union, Bool.or_eq_true, h, hg.contains_component]
  refine ⟨?_, ?_⟩
  · rintro (⟨a, ha, hfirst⟩ | ⟨hc, hne⟩)
    · exact ⟨a, fun hmem => ha (List.mem_cons_of_mem _ hmem), hfirst⟩
    · exact ⟨head, hnot, hhead.of_connected hc, hne⟩
  · rintro ⟨a, ha, hfirst, hne⟩
    by_cases hah : a = head
    · subst hah
      exact Or.inr ⟨hfirst.connected, hne⟩
    · refine Or.inl ⟨a, fun hmem => ?_, hfirst, hne⟩
      exact ha (List.mem_of_ne_of_mem hah hmem)

end Swallows

end Graph

namespace Network

variable {net mid net' : Network} {head m : Nat} {members swallowed : IndexSet}
  {heads ms : List Nat}

/-! ## What merging leaves alone -/

/-- Are the variables and their equalities the same? -/
structure SameEqualities (net net' : Network) : Prop where
  vars_eq : net'.vars = net.vars
  equal_eq : net'.equal = net.equal

namespace SameEqualities

theorem refl (net : Network) : SameEqualities net net := ⟨rfl, rfl⟩

theorem trans (h : SameEqualities net mid) (h' : SameEqualities mid net') :
    SameEqualities net net' :=
  ⟨h'.vars_eq.trans h.vars_eq, h'.equal_eq.trans h.equal_eq⟩

theorem setDomain (net : Network) (i : Nat) (d : Domain) :
    SameEqualities net (net.setDomain i d) := ⟨rfl, rfl⟩

theorem withDistinct (net : Network) (g : Graph) :
    SameEqualities net { net with distinct := g } := ⟨rfl, rfl⟩

theorem andThen {phase : Phase} {next : Network → Phase}
    (h : SameEqualities net phase.network)
    (hnext : ∀ mid, SameEqualities mid (next mid).network) :
    SameEqualities net (phase.andThen next).network := by
  cases phase with
  | passed mid => exact h.trans (hnext mid)
  | stuck mid cause => exact h

end SameEqualities

theorem sameEqualities_narrow (head : Nat) (ms : List Nat) (net : Network) :
    SameEqualities net (narrow head ms net).network := by
  induction ms generalizing net with
  | nil => exact .refl net
  | cons m ms ih =>
      rw [narrow]
      split
      · exact (SameEqualities.setDomain net head _).trans (ih _)
      · exact SameEqualities.setDomain net head _

theorem sameEqualities_redirect (head : Nat) (members : IndexSet) (m : Nat) (others : List Nat)
    (net : Network) : SameEqualities net (redirect head members m others net).network := by
  induction others generalizing net with
  | nil => exact .refl net
  | cons other others ih =>
      rw [redirect]
      split
      · exact .refl net
      · exact (SameEqualities.withDistinct net _).trans (ih _)

theorem sameEqualities_takeOver (head : Nat) (members : IndexSet) (ms : List Nat)
    (net : Network) : SameEqualities net (takeOver head members ms net).network := by
  induction ms generalizing net with
  | nil => exact .refl net
  | cons m ms ih =>
      rw [takeOver]
      have hredirect := sameEqualities_redirect head members m (net.distinct.neighbors m).toList
        { net with distinct := net.distinct.isolate m }
      exact ((SameEqualities.withDistinct net _).trans hredirect).andThen ih

theorem sameEqualities_gather (head : Nat) (members : IndexSet) (net : Network) :
    SameEqualities net (gather head members net).network := by
  unfold gather
  split
  · exact .refl net
  · exact sameEqualities_takeOver head members _ net

theorem sameEqualities_mergeClass (head : Nat) (members : IndexSet) (net : Network) :
    SameEqualities net (mergeClass head members net).network := by
  refine (sameEqualities_narrow head members.toList net).andThen fun narrowed => ?_
  have hshare := sameButDomains_share head members.toList narrowed
  have hgather := sameEqualities_gather head members (share head members.toList narrowed)
  refine SameEqualities.andThen (SameEqualities.trans ?_ hgather) fun gathered => ⟨rfl, rfl⟩
  exact ⟨hshare.vars_eq, hshare.equal_eq⟩

/-! ## One class after another -/

/-- How a class is reported. -/
def classEvent (net : Network) (c : Nat × IndexSet) : Event :=
  .equalityClass (net.name c.1) (c.2.toList.map net.name)

theorem classEvent_congr (h : net'.vars = net.vars) : net'.classEvent = net.classEvent := by
  have hname : net'.name = net.name := funext fun i => name_congr h i
  funext c
  rw [classEvent, hname, classEvent]

/-- Merges the classes of a list, each given by its head and its members, until one gets stuck. -/
def mergeEach : List (Nat × IndexSet) → Network → Traced Phase
  | [], net => return .passed net
  | c :: rest, net => do
      .note (net.classEvent c)
      match mergeClass c.1 c.2 net with
      | .passed net => mergeEach rest net
      | .stuck net cause => return .stuck net cause

theorem classOf_eq (hg : net.equal.Undirected net.size) (head : Nat) :
    net.classOf head = .ok (net.equal.component head) := by
  have hnot : ¬(net.equal.component head).contains head = true := by
    rw [hg.contains_component]
    exact fun h => h.2 rfl
  rw [classOf]
  exact if_neg hnot

/-- What the pass does at a vertex that has not been swallowed. -/
theorem mergeClasses_cons_of_fresh (hg : net.equal.Undirected net.size)
    (hfresh : swallowed.contains head = false) :
    mergeClasses (head :: heads) swallowed net = do
      .note (net.classEvent (head, net.equal.component head))
      match mergeClass head (net.equal.component head) net with
      | .passed net' => mergeClasses heads (swallowed.union (net.equal.component head)) net'
      | .stuck net' cause => return .stuck net' cause := by
  rw [mergeClasses, hfresh, if_neg Bool.false_ne_true, classOf_eq hg]
  rfl

/-- The pass with a set of what it has swallowed is the pass over the classes, from any point of
it on. -/
theorem mergeClasses_eq_mergeEach {g : Graph} :
    ∀ {swallowed : IndexSet} {net : Network}, net.equal = g → g.Undirected net.size →
      heads.Pairwise (· < ·) → g.Swallows heads swallowed →
      mergeClasses heads swallowed net =
        mergeEach ((heads.filter g.isHead).map fun a => (a, g.component a)) net := by
  -- On what is ahead. `Swallows` says for each vertex whether both passes merge it or both go on.
  induction heads with
  | nil =>
      intro swallowed net _ _ _ _
      rfl
  | cons head heads ih =>
      rintro swallowed net rfl hg hsorted hswallows
      obtain ⟨hbefore, hsorted'⟩ := List.pairwise_cons.1 hsorted
      have hcontains := hswallows.contains_eq hg hsorted
      cases hhead : net.equal.isHead head with
      | false =>
          rw [hhead, Bool.not_false] at hcontains
          rw [mergeClasses, if_pos hcontains, List.filter_cons_of_neg (by simp [hhead])]
          have hnot : ¬net.equal.IsFirst head head := by
            rw [← hg.isHead_iff, hhead]
            exact Bool.false_ne_true
          exact ih rfl hg hsorted' (hswallows.skip hg hnot)
      | true =>
          rw [hhead, Bool.not_true] at hcontains
          rw [mergeClasses_cons_of_fresh hg hcontains, List.filter_cons_of_pos hhead,
            List.map_cons, mergeEach]
          have hfirst := hg.isHead_iff.1 hhead
          have hnext := hswallows.advance hg hfirst fun hmem => Nat.lt_irrefl _ (hbefore _ hmem)
          have hsame := sameEqualities_mergeClass head (net.equal.component head) net
          refine bind_congr fun _ => ?_
          dsimp only
          -- However the merge ends, the classes that are left are those of the same graph.
          generalize mergeClass head (net.equal.component head) net = phase at hsame
          cases phase with
          | stuck net' cause => rfl
          | passed net' => exact ih hsame.equal_eq (size_congr hsame.vars_eq ▸ hg) hsorted' hnext

/-- The classes that are merged are reported, up to the one that gets stuck. -/
theorem mergeEach_reports (classes : List (Nat × IndexSet)) (net : Network) :
    ∃ phase, (mergeEach classes net).outcome = .ok phase ∧
      (mergeEach classes net).events <+: classes.map net.classEvent ∧
      ∀ net', phase = .passed net' →
        (mergeEach classes net).events = classes.map net.classEvent := by
  induction classes generalizing net with
  | nil => exact ⟨.passed net, rfl, List.nil_prefix, fun _ _ => rfl⟩
  | cons c rest ih =>
      have hsame := sameEqualities_mergeClass c.1 c.2 net
      rw [mergeEach]
      generalize mergeClass c.1 c.2 net = phase at hsame
      cases phase with
      | stuck net' cause =>
          refine ⟨.stuck net' cause, rfl, ?_, fun _ h => by cases h⟩
          exact List.cons_prefix_cons.2 ⟨rfl, List.nil_prefix⟩
      | passed net' =>
          have hevent : net'.classEvent = net.classEvent := classEvent_congr hsame.vars_eq
          obtain ⟨phase, hok, hprefix, hall⟩ := ih net'
          rw [hevent] at hprefix hall
          refine ⟨phase, hok, List.cons_prefix_cons.2 ⟨rfl, hprefix⟩, fun net'' hpassed => ?_⟩
          exact congrArg (net.classEvent c :: ·) (hall net'' hpassed)

/-- What is left to do after the classes: the equalities are forgotten. -/
def forgetEqualities : Phase → Traced Phase
  | .passed net =>
      if net.clearEqual.equal.isEdgeless then return .passed net.clearEqual
      else .fail .equalitiesRemain
  | .stuck net cause => return .stuck net cause

theorem mergeClasses_vertices (hg : net.equal.Undirected net.size) :
    mergeClasses net.equal.vertices (.withCapacity net.size) net =
      mergeEach net.equal.classes net :=
  mergeClasses_eq_mergeEach rfl hg (Graph.pairwise_vertices net.equal)
    (Graph.Swallows.first hg net.size)

theorem collapse_eq_mergeEach (hg : net.equal.Undirected net.size) :
    net.collapse = mergeEach net.equal.classes net >>= forgetEqualities := by
  rw [collapse, mergeClasses_vertices hg]
  refine bind_congr fun phase => ?_
  cases phase with
  | passed net' => rfl
  | stuck net' cause => rfl

/-- The search for a class, without a limit and with every access checked. -/
theorem classOf_reaches (hg : net.equal.Undirected net.size) {v : Nat} (hv : v < net.size) :
    (∃ rounds < net.size, Graph.Spreads net.equal v (net.equal.neighbors v)
        (net.equal.neighbors v) rounds (net.equal.component v)) ∧
      net.classOf v = .ok (net.equal.component v) ∧
      net.classOfChecked v = .ok (net.equal.component v) ∧
      ∀ i, (net.equal.component v).contains i = true ↔
        Relation.TransGen (fun a b => net.equal.adjacent a b = true) v i ∧ i ≠ v := by
  have hclass := classOf_eq hg v
  obtain ⟨rounds, hle, hspreads⟩ := hg.spreads_component v
  refine ⟨⟨rounds, by omega, hspreads⟩, hclass, ?_, fun i => ?_⟩
  · rw [classOfChecked_eq hg hv, hclass]
    rfl
  · rw [hg.contains_component]
    refine and_congr_left fun hne => ?_
    rw [Graph.Connected, Relation.reflTransGen_iff_eq_or_transGen, or_iff_right hne]

/--
What a class is, and which classes are merged. The class of a variable is searched for in fewer
rounds than there are variables, without a refusal, and holds what one or more equalities lead
to, the variable itself left out. The pass merges the classes of the lowest variables of the
components, in order, until one gets stuck, and forgets the equalities after that. Every variable
that has an equality is such a head or in the class of one of them, and it is not in two.
-/
theorem equalities_fall_into_classes (hg : net.equal.Undirected net.size) :
    (∀ v < net.size,
      (∃ rounds < net.size, Graph.Spreads net.equal v (net.equal.neighbors v)
        (net.equal.neighbors v) rounds (net.equal.component v)) ∧
      net.classOf v = .ok (net.equal.component v) ∧
      net.classOfChecked v = .ok (net.equal.component v) ∧
      ∀ i, (net.equal.component v).contains i = true ↔
        Relation.TransGen (fun a b => net.equal.adjacent a b = true) v i ∧ i ≠ v) ∧
    net.equal.SharedOut net.equal.heads ∧
    mergeClasses net.equal.vertices (.withCapacity net.size) net =
      mergeEach net.equal.classes net ∧
    net.collapse = mergeEach net.equal.classes net >>= forgetEqualities ∧
    ∃ phase, (mergeEach net.equal.classes net).outcome = .ok phase ∧
      (mergeEach net.equal.classes net).events <+: net.equal.classes.map net.classEvent ∧
      ∀ net', phase = .passed net' →
        (mergeEach net.equal.classes net).events = net.equal.classes.map net.classEvent := by
  exact ⟨fun v hv => classOf_reaches hg hv, hg.sharedOut_heads, mergeClasses_vertices hg,
    collapse_eq_mergeEach hg, mergeEach_reports _ net⟩

/-- Two components, and a cycle in one of them. -/
def twoClasses : Network :=
  let start := ofVariables #[.ofWidth "a" 2 Nat.two_pos, .ofWidth "b" 2 Nat.two_pos,
    .ofWidth "c" 2 Nat.two_pos, .ofWidth "d" 2 Nat.two_pos, .ofWidth "e" 2 Nat.two_pos]
  { start with equal := (((start.equal.link 3 1).link 4 1).link 4 3).link 2 0 }

theorem undirected_twoClasses : twoClasses.equal.Undirected twoClasses.size := by
  have hstart := Graph.sound_edgeless 5
  have hcycle := ((hstart.link (by decide) (by decide) (by decide : 3 ≠ 1)).link
    (by decide) (by decide) (by decide : 4 ≠ 1)).link (by decide) (by decide) (by decide : 4 ≠ 3)
  exact (hcycle.link (by decide) (by decide) (by decide : 2 ≠ 0)).undirected

/-- The class of a variable that is not the first of its cycle, and the heads. -/
theorem equalities_fall_into_classes_two :
    twoClasses.equal.heads = [0, 1] ∧ (twoClasses.equal.component 3).toList = [1, 4] ∧
      twoClasses.classOf 3 = .ok (twoClasses.equal.component 3) ∧
      ∃! head, head ∈ twoClasses.equal.heads ∧
        (twoClasses.equal.component head).contains 4 = true := by
  obtain ⟨hclass, hshared, -⟩ := equalities_fall_into_classes undirected_twoClasses
  have hheads : twoClasses.equal.heads = [0, 1] := by decide +kernel
  refine ⟨hheads, by decide +kernel, (hclass 3 (by decide)).2.1, ?_⟩
  refine hshared.existsUnique 4 ⟨1, by decide +kernel⟩ ?_
  rw [hheads]
  decide

end Network

end FiniteDomain
