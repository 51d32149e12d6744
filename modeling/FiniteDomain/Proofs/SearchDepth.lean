import FiniteDomain.Proofs.PruneModels
import FiniteDomain.Proofs.SearchVerdict
import Mathlib

/-!
# The search ends, and how deep it goes

A level of the search fixes its critical variable and decides nothing by that: the variable may
have had one value all along. What the level has paid for shows on the level below, where
deciding the inequalities drops those of the fixed variable, and there is at least one of them.
So the measure is the number of inequalities on all levels but the first, and `Deep` carries the
one level that is owed.

How many values a domain has does not matter. A critical variable has no more of them than it has
neighbours, so a level tries fewer values than there are variables, however wide they are.

None of this looks at equalities, at leaders or at the names of variables. It is said of every
network whose domains are normal and whose inequalities make a graph; what a witness would be
on such a network is another matter, and reading one may be refused.
-/

namespace FiniteDomain

variable {settings : Settings} {mode : Mode}

/-- No vertex is its own neighbour, so it has fewer neighbours than there are vertices. -/
theorem Graph.Sound.degree_lt {g : Graph} {n a : Nat} (hg : g.Sound n) (ha : a < n) :
    g.degree a < n := by
  have hsub : ((Finset.range n).filter fun b => g.adjacent a b = true) ⊆
      (Finset.range n).erase a := by
    intro b hb
    obtain ⟨hb, hab⟩ := Finset.mem_filter.1 hb
    exact Finset.mem_erase.2 ⟨(hg.ne hab).symm, hb⟩
  have hcard := Finset.card_le_card hsub
  rw [← hg.degree_eq, Finset.card_erase_of_mem (Finset.mem_range.2 ha), Finset.card_range] at hcard
  omega

/-! ## Computations that run to their end -/

namespace Traced

variable {α β : Type} {x : Traced α} {f g : α → Traced β}

/-- Two continuations need to agree only on what there is to go on with. -/
theorem bind_congr (h : ∀ a, x.outcome = .ok a → f a = g a) : x >>= f = x >>= g := by
  show andThen x f = andThen x g
  unfold andThen
  cases hx : x.outcome with
  | error fault => rfl
  | ok a => simp only [h a hx]

/-- Does the computation come to its end? Nothing but the reading of a witness may be refused. -/
def Finishes (mode : Mode) (x : Traced α) : Prop :=
  ∀ fault, x.outcome = .error fault → mode = .witness ∧ fault ≠ .searchTooDeep

theorem finishes_of_eq_ok {a : α} (h : x.outcome = .ok a) : x.Finishes mode := by
  intro fault hfault
  cases h.symm.trans hfault

theorem finishes_of_eq_error {fault : Fault} (h : x.outcome = .error fault)
    (hne : fault ≠ .searchTooDeep) : x.Finishes .witness := by
  intro fault' hfault
  cases h.symm.trans hfault
  exact ⟨rfl, hne⟩

theorem finishes_pure (a : α) : (pure a : Traced α).Finishes mode := finishes_of_eq_ok rfl

theorem Finishes.bind (hx : x.Finishes mode)
    (hf : ∀ a, x.outcome = .ok a → (f a).Finishes mode) : (x >>= f).Finishes mode := by
  intro fault hfault
  rw [outcome_bind] at hfault
  cases hout : x.outcome with
  | error fault' =>
      rw [hout] at hfault
      cases hfault
      exact hx _ hout
  | ok a =>
      rw [hout] at hfault
      exact hf a hout fault hfault

/-- Reporting an event is no hindrance. -/
theorem Finishes.note {event : Event} {f : Unit → Traced β} (hf : (f ()).Finishes mode) :
    (Traced.note event >>= f).Finishes mode :=
  (finishes_of_eq_ok rfl).bind fun _ _ => hf

end Traced

open Traced

theorem finishes_refute (cause : Conflict) : (refute cause).Finishes mode := finishes_of_eq_ok rfl

namespace Network

variable {net mid next : Network} {x : Nat} {v : Int} {depth : Nat}

/-! ## Reading a witness -/

theorem finishes_pick {order : ValueOrder} (is : List Nat) (net : Network)
    (values : Array (Option Int)) : (pick order is net values).Finishes .witness := by
  induction is generalizing net values with
  | nil => exact finishes_pure _
  | cons i is ih =>
      rw [pick]
      split
      · split
        · exact finishes_of_eq_error rfl Fault.noConfusion
        · exact Finishes.note (ih _ _)
      · exact ih _ _

theorem finishes_assignFrom {values : Array (Option Int)} (xs : List (Variable × Nat))
    (s : Assignment) : (ofExcept (net.assignFrom values xs s)).Finishes .witness := by
  induction xs generalizing s with
  | nil => exact finishes_of_eq_ok rfl
  | cons x xs ih =>
      rw [assignFrom]
      split
      · exact finishes_of_eq_error rfl Fault.noConfusion
      · exact ih _

theorem finishes_accept (net : Network) : (net.accept settings mode).Finishes mode := by
  cases mode with
  | decide => exact finishes_pure _
  | witness =>
      refine Finishes.bind ?_ fun r _ => finishes_pure _
      refine (finishes_pick _ _ _).bind fun r _ => (finishes_assignFrom _ _).bind fun s _ => ?_
      split
      · exact finishes_pure _
      · exact finishes_of_eq_error rfl Fault.noConfusion

/-! ## One level down -/

/-- Pruning is not refused, and a pinned variable has no inequality left. -/
theorem Prunable.prune_ends (h : net.Prunable) :
    Returns net.prune.outcome fun phase => phase.Ends
      (fun next => Simplifies net next ∧
        ∀ i, net.Pinned i → ∀ j, next.distinct.adjacent i j = false)
      fun _ => True := by
  obtain ⟨phase, houtcome, hends⟩ := prune_returns h.sound_classless
  have hprune := prune_withClasses net.equal net.leaders
    (net.withClasses (.edgeless net.size) (Array.range net.size))
  rw [houtcome] at hprune
  refine ⟨_, hprune, ?_⟩
  cases phase with
  | passed next => exact ⟨hends.1.simplifies, hends.2⟩
  | stuck next cause => trivial

theorem Simplifies.size_eq (h : Simplifies net next) : next.size = net.size :=
  size_congr h.vars_eq

theorem Simplifies.sound_distinct (h : Simplifies net next) : next.distinct.Sound net.size :=
  h.size_eq ▸ h.prunable.sound_distinct

theorem Prunable.pin (h : net.Prunable) (hx : x < net.size) (v : Int) : (net.pin x v).Prunable where
  size_domains := (size_domains_setDomain net x _).trans h.size_domains
  normal i := by
    rw [Network.pin, domain_setDomain _ (h.size_domains.symm ▸ hx)]
    split
    · exact Domain.normal_singleton v
    · exact h.normal i
  sound_distinct := h.sound_distinct

theorem Prunable.pinned_pin (h : net.Prunable) (hx : x < net.size) (v : Int) :
    (net.pin x v).Pinned x := by
  refine ⟨v, fun w => ?_⟩
  rw [Network.pin, domain_setDomain_self _ (h.size_domains.symm ▸ hx), Domain.mem_singleton]

/-- A critical variable has an inequality, and no more values than inequalities. -/
theorem Prunable.of_critical? (h : net.Prunable) (hx : net.critical? = some x) :
    x < net.size ∧ (∃ y, net.distinct.adjacent x y = true) ∧
      (net.domain x).size ≤ net.distinct.degree x := by
  obtain ⟨hvertex, hcritical⟩ := mem_of_critical? hx
  exact ⟨h.sound_distinct.lt_of_mem_vertices hvertex, h.sound_distinct.mem_vertices.1 hvertex,
    of_decide_eq_true hcritical⟩

/-- Fixing a critical variable and pruning leaves no inequality of it. -/
theorem Prunable.prune_pin (h : net.Prunable) (hx : net.critical? = some x) (v : Int) :
    Returns (net.pin x v).prune.outcome fun phase => phase.Ends
      (fun next => (∀ y, next.distinct.adjacent x y = false) ∧
        next.distinct.edgeCount < net.distinct.edgeCount)
      fun _ => True := by
  obtain ⟨hlt, ⟨y, hxy⟩, -⟩ := h.of_critical? hx
  refine (h.pin hlt v).prune_ends.mono fun phase hends => hends.mono ?_ fun _ h => h
  rintro next ⟨hsimplifies, hdropped⟩
  have hnone := hdropped x (h.pinned_pin hlt v)
  exact ⟨hnone, hsimplifies.sound_distinct.edgeCount_lt h.sound_distinct
    hsimplifies.adjacent_of_adjacent (hnone y) hxy⟩

/-- Is `next` one of the networks that a search of `net` goes down to? -/
inductive Descends (net : Network) : Network → Prop where
  | intro {mid : Network} {x : Nat} {v : Int} (hprune : net.prune.outcome = .ok (.passed mid))
      (hcritical : mid.critical? = some x) (hv : v ∈ mid.domain x) : Descends net (mid.pin x v)

namespace Descends

theorem prunable (h : net.Descends next) (hnet : net.Prunable) :
    next.Prunable ∧ next.size = net.size := by
  obtain ⟨hprune, hcritical, hv⟩ := h
  obtain ⟨hsimplifies, -⟩ := hnet.prune_ends.of_eq_ok hprune
  have hlt := (hsimplifies.prunable.of_critical? hcritical).1
  exact ⟨hsimplifies.prunable.pin hlt _, hsimplifies.size_eq⟩

/-- The level below owes the inequalities of the variable that was fixed. -/
theorem deep (h : net.Descends next) (hnet : net.Prunable) (hdeep : Deep (depth + 1) net) :
    Deep depth next := by
  obtain ⟨hprune, hcritical, hv⟩ := h
  obtain ⟨hsimplifies, hdropped⟩ := hnet.prune_ends.of_eq_ok hprune
  obtain ⟨hlt, ⟨y, hxy⟩, -⟩ := hsimplifies.prunable.of_critical? hcritical
  have hle := hdeep.edgeCount_le hnet.sound_distinct hsimplifies.sound_distinct
    hsimplifies.adjacent_of_adjacent hdropped
  exact Or.inr ⟨hle, _, y, hsimplifies.prunable.pinned_pin hlt _, hxy⟩

end Descends

/-- Is `next` searched so many levels below `net`? -/
inductive Below : Nat → Network → Network → Prop where
  | here (net : Network) : Below 0 net net
  | down {n : Nat} {net mid next : Network} (hstep : net.Descends mid) (h : Below n mid next) :
      Below (n + 1) net next

/-- Every level below spends one of the inequalities. -/
theorem Below.deep {n : Nat} (h : Below n net next) (hnet : net.Prunable)
    (hdeep : Deep (depth + n) net) : next.Prunable ∧ next.size = net.size ∧ Deep depth next := by
  induction h with
  | here net => exact ⟨hnet, rfl, hdeep⟩
  | down hstep _ ih =>
      obtain ⟨hmid, hsize⟩ := hstep.prunable hnet
      obtain ⟨hnext, hsize', hdeep'⟩ := ih hmid (hstep.deep hnet hdeep)
      exact ⟨hnext, hsize'.trans hsize, hdeep'⟩

theorem Below.le_edgeCount {n : Nat} (h : Below n net next) (hnet : net.Prunable) :
    n ≤ net.distinct.edgeCount := by
  by_contra hlt
  have hdeep : Deep (0 + n) net := Or.inl (by omega)
  obtain ⟨hnext, -, hdeep⟩ := h.deep hnet hdeep
  exact not_deep_zero hnext.sound_distinct hdeep

/-! ## The run -/

theorem finishes_tryValues {deeper : Network → Nat → Traced (Verdict × Nat)} {vs : List Int}
    (hdeeper : ∀ v ∈ vs, ∀ tried, (deeper (net.pin x v) tried).Finishes mode) (tried : Nat) :
    (tryValues settings deeper net x vs tried).Finishes mode := by
  induction vs generalizing tried with
  | nil => exact (finishes_refute _).bind fun _ _ => finishes_pure _
  | cons v vs ih =>
      obtain ⟨hv, hvs⟩ := List.forall_mem_cons.1 hdeeper
      rw [tryValues]
      split
      · refine Finishes.note ((hv _).bind fun found _ => ?_)
        obtain ⟨verdict, tried'⟩ := found
        cases verdict with
        | unsat cause => exact ih hvs tried'
        | sat s => exact finishes_pure _
        | unknown pairs => exact finishes_pure _
      · exact Finishes.note (finishes_pure _)

/-- A search that is deep enough comes to its end. -/
theorem finishes_search (h : net.Prunable) (hdeep : Deep depth net) (tried : Nat) :
    (search settings mode depth net tried).Finishes mode := by
  induction depth generalizing net tried with
  | zero => exact absurd hdeep (not_deep_zero h.sound_distinct)
  | succ depth ih =>
      rw [search]
      split
      · exact (finishes_accept net).bind fun _ _ => finishes_pure _
      · obtain ⟨phase, hprune, -⟩ := h.prune_ends
        refine (finishes_of_eq_ok hprune).bind fun phase hphase => ?_
        cases phase with
        | stuck mid cause => exact (finishes_refute cause).bind fun _ _ => finishes_pure _
        | passed mid =>
            simp only []
            split
            · exact Finishes.note ((finishes_accept mid).bind fun _ _ => finishes_pure _)
            · next x hcritical =>
                refine Finishes.note (finishes_tryValues (fun v hv tried => ?_) tried)
                have hstep : net.Descends (mid.pin x v) :=
                  ⟨hphase, hcritical, Domain.mem_values.1 hv⟩
                exact ih (hstep.prunable h).1 (hstep.deep h hdeep) tried

/-- Values are tried alike if the levels below are searched alike, as far as they are deep
enough. -/
theorem tryValues_congr {deeper deeper' : Network → Nat → Traced (Verdict × Nat)}
    (hdeeper : ∀ net tried, (deeper net tried).outcome ≠ .error .searchTooDeep →
      deeper' net tried = deeper net tried) {vs : List Int} (tried : Nat)
    (h : (tryValues settings deeper net x vs tried).outcome ≠ .error .searchTooDeep) :
    tryValues settings deeper' net x vs tried = tryValues settings deeper net x vs tried := by
  induction vs generalizing tried with
  | nil => rw [tryValues, tryValues]
  | cons v vs ih =>
      rw [tryValues] at h ⊢
      rw [tryValues]
      split at h
      · next haffords =>
          simp only [haffords, if_true]
          refine bind_congr fun _ _ => ?_
          rw [Traced.outcome_bind, Traced.outcome_note] at h
          simp only [Except.bind] at h
          rw [Traced.outcome_bind] at h
          have hbranch : (deeper (net.pin x v) (tried + 1)).outcome ≠ .error .searchTooDeep := by
            intro hfault
            rw [hfault] at h
            exact h rfl
          rw [hdeeper _ _ hbranch]
          refine bind_congr fun found hfound => ?_
          rw [hfound] at h
          obtain ⟨verdict, tried'⟩ := found
          cases verdict with
          | unsat cause => exact ih tried' h
          | sat s => rfl
          | unknown pairs => rfl
      · next hspent => simp only [hspent, Bool.false_eq_true, if_false]

/-- A search that was deep enough does not go any deeper if it is given another level. -/
theorem search_succ (tried : Nat)
    (h : (search settings mode depth net tried).outcome ≠ .error .searchTooDeep) :
    search settings mode (depth + 1) net tried = search settings mode depth net tried := by
  induction depth generalizing net tried with
  | zero => exact absurd rfl h
  | succ depth ih =>
      rw [search] at h ⊢
      rw [search]
      split at h
      · next hedgeless => simp only [hedgeless, if_true]
      · next hedges =>
          simp only [hedges, Bool.false_eq_true, if_false]
          refine bind_congr fun phase hphase => ?_
          rw [Traced.outcome_bind, hphase] at h
          cases phase with
          | stuck mid cause => rfl
          | passed mid =>
              simp only [Except.bind] at h ⊢
              split at h
              · rfl
              · exact bind_congr fun _ _ => tryValues_congr (fun net tried => ih tried) tried h

theorem search_ne_searchTooDeep (h : net.Prunable) (hdepth : net.distinct.edgeCount < depth)
    (tried : Nat) : (search settings mode depth net tried).outcome ≠ .error .searchTooDeep :=
  fun hfault => (finishes_search h (Or.inl hdepth) tried _ hfault).2 rfl

/-- Whatever the depth, as long as it is enough, the search runs the same. -/
theorem search_eq_of_lt (h : net.Prunable) (hdepth : net.distinct.edgeCount < depth)
    (tried : Nat) : search settings mode depth net tried =
      search settings mode (net.distinct.edgeCount + 1) net tried := by
  induction depth, hdepth using Nat.le_induction with
  | base => rfl
  | succ depth hdepth ih =>
      rw [search_succ tried (search_ne_searchTooDeep h hdepth tried), ih]

/-! ## The result -/

/--
A level of the search tries no more values than its critical variable has inequalities, and with
each of them it rids the level below of these inequalities. So no level is farther below the first
than there are inequalities, each tries fewer values than there are variables, and one level more
than there are inequalities is all that the search ever uses: with any larger depth it runs the
same, down to the events. It is never refused for want of depth, and without a witness to read
it is never refused.
-/
theorem search_ends (h : net.Prunable) :
    (∀ mid x, net.prune.outcome = .ok (.passed mid) → mid.critical? = some x →
      (mid.domain x).size ≤ mid.distinct.degree x ∧
      ∀ v ∈ mid.domain x, ∃ phase, (mid.pin x v).prune.outcome = .ok phase ∧
        phase.Ends (fun next => (∀ y, next.distinct.adjacent x y = false) ∧
          next.distinct.edgeCount < mid.distinct.edgeCount) fun _ => True) ∧
    (∀ n next, Below n net next → n ≤ net.distinct.edgeCount ∧
      ∀ mid x, next.prune.outcome = .ok (.passed mid) → mid.critical? = some x →
        ∀ order, ((mid.domain x).values order).length < net.size) ∧
    ∀ settings mode tried,
      (∀ depth, net.distinct.edgeCount < depth → search settings mode depth net tried =
        search settings mode (net.distinct.edgeCount + 1) net tried) ∧
      (search settings mode (net.distinct.edgeCount + 1) net tried).outcome ≠
        .error .searchTooDeep ∧
      (mode = .decide →
        ∃ r, (search settings mode (net.distinct.edgeCount + 1) net tried).outcome = .ok r) := by
  refine ⟨fun mid x hprune hcritical => ?_, fun n next hbelow => ?_, fun settings mode tried =>
    ⟨fun depth hdepth => search_eq_of_lt h hdepth tried,
      search_ne_searchTooDeep h (Nat.lt_succ_self _) tried, fun hdecide => ?_⟩⟩
  · obtain ⟨hmid, -⟩ := h.prune_ends.of_eq_ok hprune
    exact ⟨(hmid.prunable.of_critical? hcritical).2.2,
      fun v _ => hmid.prunable.prune_pin hcritical v⟩
  · refine ⟨hbelow.le_edgeCount h, fun mid x hprune hcritical order => ?_⟩
    have hdeep : Deep (net.distinct.edgeCount + 1 + n) net := Or.inl (by omega)
    obtain ⟨hnext, hsize, -⟩ := hbelow.deep h hdeep
    obtain ⟨hmid, -⟩ := hnext.prune_ends.of_eq_ok hprune
    obtain ⟨hlt, -, hle⟩ := hmid.prunable.of_critical? hcritical
    have hdegree := hmid.prunable.sound_distinct.degree_lt hlt
    rw [Domain.length_values, ← hsize, ← hmid.size_eq]
    omega
  · cases hout : (search settings mode (net.distinct.edgeCount + 1) net tried).outcome with
    | ok r => exact ⟨r, rfl⟩
    | error fault =>
        have hfinishes : (search settings mode _ net tried).Finishes mode :=
          finishes_search h (Or.inl (Nat.lt_succ_self _)) tried
        obtain ⟨hwitness, -⟩ := hfinishes fault hout
        cases hdecide.symm.trans hwitness

/-- The triangle with one bit for each corner, which is not enough. -/
def tightTriangle : Network := { slackTriangle with domains := Array.replicate 4 (.ofWidth 1) }

theorem prunable_tightTriangle : tightTriangle.Prunable where
  size_domains := rfl
  normal i := by
    match i with
    | 0 | 1 | 2 | 3 => exact Domain.normal_ofInterval _
    | i + 4 =>
        rw [domain_of_size_le (Nat.le_add_left 4 i)]
        exact Domain.normal_empty
  sound_distinct := sound_slackTriangle.sound_distinct

/-- The search branches on the first corner. It gives up on either value one level below, and
would do so under any depth. -/
theorem search_ends_tightTriangle :
    (∃ mid, tightTriangle.prune.outcome = .ok (.passed mid) ∧ mid.critical? = some 0 ∧
      (mid.domain 0).size ≤ mid.distinct.degree 0 ∧ Below 1 tightTriangle (mid.pin 0 1)) ∧
    (∀ n next, Below n tightTriangle next → n ≤ 3) ∧
    (search {} .decide 100 tightTriangle 0 = search {} .decide 4 tightTriangle 0) ∧
    ∃ cause, (search {} .decide 100 tightTriangle 0).outcome = .ok (.unsat cause, 2) := by
  have hpassed : (match tightTriangle.prune.outcome with
      | .ok (.passed mid) => mid.critical? == some 0 && (mid.domain 0).contains 1
      | _ => false) = true := by
    decide +kernel
  have hunsat : (search {} .decide 4 tightTriangle 0).outcome =
      .ok (.unsat (.inequalities [("a", "b"), ("a", "c"), ("b", "c")]), 2) := by
    decide +kernel
  have hcount : tightTriangle.distinct.edgeCount = 3 := by decide +kernel
  obtain ⟨hlevel, hbelow, hsearch⟩ := search_ends prunable_tightTriangle
  obtain ⟨hdepth, -, -⟩ := hsearch {} .decide 0
  rw [hcount] at hbelow hdepth
  have hsame := hdepth 100 (by decide)
  refine ⟨?_, fun n next h => (hbelow n next h).1, hsame, _, (congrArg _ hsame).trans hunsat⟩
  obtain ⟨phase, hprune, hends⟩ := prunable_tightTriangle.prune_ends
  rw [hprune] at hpassed
  cases phase with
  | stuck mid cause => cases hpassed
  | passed mid =>
      simp only [Bool.and_eq_true, beq_iff_eq, Domain.contains_iff] at hpassed
      obtain ⟨hcritical, hv⟩ := hpassed
      exact ⟨mid, hprune, hcritical, (hlevel mid 0 hprune hcritical).1,
        .down ⟨hprune, hcritical, hv⟩ (.here _)⟩

end Network

end FiniteDomain
