import FiniteDomain.Proofs.CheckedGraph
import FiniteDomain.Proofs.CollapseExact
import FiniteDomain.Proofs.ImposeExact
import Mathlib

/-!
# Posing and merging without a breach

Whatever a network is asked about a variable, its name, its domain, its leader or its
row in one of the two graphs, is an array access. The checked forms of the phases ask
at every access whether it is in bounds, and at every new edge whether its ends
differ. On a sound network all of these questions are answered before the phase
begins, because a phase only ever mentions variables that it was given or that it met
in a row.

Each phase is compared with its unchecked form as a whole, conflicts included: a
phase that gets stuck has looked up the names of the variables it complains about.
-/

namespace FiniteDomain

open Checked

/-- Goes on with another phase, unless this one is stuck. -/
def Phase.andThenChecked (p : Phase) (next : Network → Checked Phase) : Checked Phase :=
  match p with
  | passed net => next net
  | stuck net cause => return stuck net cause

theorem Phase.Ends.andThenChecked_eq {p : Phase} {good : Network → Prop} {bad : Conflict → Prop}
    {next : Network → Checked Phase} {next' : Network → Phase} (h : p.Ends good bad)
    (hnext : ∀ net, good net → next net = .ok (next' net)) :
    p.andThenChecked next = .ok (p.andThen next') := by
  cases p with
  | passed net => exact hnext net h
  | stuck net cause => rfl

namespace Network

variable {net : Network} {head i j m : Nat} {members : IndexSet} {d : Domain} {ms : List Nat}

/-! ## Looking things up -/

def nameChecked (net : Network) (i : Nat) : Checked String := do
  require net.size i
  return net.name i

def domainChecked (net : Network) (i : Nat) : Checked Domain := do
  require net.domains.size i
  return net.domain i

def leaderChecked (net : Network) (i : Nat) : Checked Nat := do
  require net.leaders.size i
  return net.leader i

def setDomainChecked (net : Network) (i : Nat) (d : Domain) : Checked Network := do
  require net.domains.size i
  return net.setDomain i d

theorem nameChecked_eq (hi : i < net.size) : net.nameChecked i = .ok (net.name i) := by
  rw [nameChecked, require_of_lt hi]
  rfl

theorem domainChecked_eq (hi : i < net.domains.size) : net.domainChecked i = .ok (net.domain i) := by
  rw [domainChecked, require_of_lt hi]
  rfl

theorem leaderChecked_eq (hi : i < net.leaders.size) : net.leaderChecked i = .ok (net.leader i) := by
  rw [leaderChecked, require_of_lt hi]
  rfl

theorem setDomainChecked_eq (hi : i < net.domains.size) (d : Domain) :
    net.setDomainChecked i d = .ok (net.setDomain i d) := by
  rw [setDomainChecked, require_of_lt hi]
  rfl

theorem namesChecked_eq (h : ∀ i ∈ ms, i < net.size) :
    ms.mapM net.nameChecked = .ok (ms.map net.name) :=
  mapM_eq_ok fun i hi => nameChecked_eq (h i hi)

theorem Sound.lt_domains (hs : net.Sound) (hi : i < net.size) : i < net.domains.size :=
  hs.size_domains.symm ▸ hi

theorem Sound.lt_leaders (hs : net.Sound) (hi : i < net.size) : i < net.leaders.size :=
  hs.size_leaders.symm ▸ hi

/-! ## Posing -/

/-- Numbers a variable. The number has to fit into an index. -/
def numberChecked (i : Nat) : Checked Nat := do
  let index ← lift (Index.ofNat i)
  return index.val

def ofVariablesChecked (vars : Array Variable) : Checked Network := do
  let domains ← vars.toList.mapM Domain.ofVariableChecked
  let leaders ← (List.range vars.size).mapM numberChecked
  return {
    vars
    domains := domains.toArray
    equal := .edgeless vars.size
    distinct := .edgeless vars.size
    leaders := leaders.toArray }

def restrictChecked (net : Network) (i : Nat) (v : Int) (equal : Bool) : Checked Network := do
  let d ← net.domainChecked i
  if equal then net.setDomainChecked i (d.intersectInterval (.point v))
  else
    let rest ← d.excludeIntervalChecked (.point v)
    net.setDomainChecked i rest

def relateChecked (net : Network) (i j : Nat) (equal : Bool) : Checked Network := do
  if i = j then
    if equal then return net
    else
      let name ← net.nameChecked i
      refuse (.selfInequality name)
  else if equal then
    let g ← net.equal.linkChecked i j
    return { net with equal := g }
  else
    let g ← net.distinct.linkChecked i j
    return { net with distinct := g }

/-- Refuses to go on with a variable that has no value left. -/
def checkChecked (net : Network) : Checked Phase :=
  match net.domains.findIdx? Domain.isEmpty with
  | some i => do
      let name ← net.nameChecked i
      return .stuck net (.emptyDomain name)
  | none => return .passed net

theorem numberChecked_eq (h : i < Index.limit) : numberChecked i = .ok i := by
  rw [numberChecked, Index.ofNat, dif_pos h]
  rfl

theorem ofVariablesChecked_eq {vars : Array Variable} (h : vars.size ≤ Index.limit) :
    ofVariablesChecked vars = .ok (ofVariables vars) := by
  have hdomains : vars.toList.mapM Domain.ofVariableChecked =
      .ok (vars.toList.map Domain.ofVariable) :=
    mapM_eq_ok fun x _ => Domain.ofVariableChecked_eq x
  have hleaders : (List.range vars.size).mapM numberChecked = .ok ((List.range vars.size).map id) :=
    mapM_eq_ok fun i hi => numberChecked_eq (Nat.lt_of_lt_of_le (List.mem_range.1 hi) h)
  rw [ofVariablesChecked, hdomains, ok_bind, hleaders, ok_bind, ← Array.toList_map, List.map_id,
    Array.toArray_toList, ← Array.toList_range, Array.toArray_toList]
  rfl

theorem restrictChecked_eq (hs : net.Sound) (hi : i < net.size) (v : Int) (equal : Bool) :
    net.restrictChecked i v equal = lift (net.restrict i v equal) := by
  rw [restrictChecked, domainChecked_eq (hs.lt_domains hi), ok_bind, restrict,
    requireVariable_of_lt hi, Domain.excludeIntervalChecked_eq, ok_bind,
    setDomainChecked_eq (hs.lt_domains hi), setDomainChecked_eq (hs.lt_domains hi)]
  cases equal <;> rfl

theorem relateChecked_eq (hs : net.Sound) (hi : i < net.size) (hj : j < net.size) (equal : Bool) :
    net.relateChecked i j equal = lift (net.relate i j equal) := by
  rw [relateChecked, relate, requireVariable_of_lt hi, requireVariable_of_lt hj]
  by_cases hij : i = j
  · rw [if_pos hij, nameChecked_eq hi]
    cases equal <;> simp [hij] <;> rfl
  · rw [if_neg hij, hs.sound_equal.linkChecked_eq hi hj hij,
      hs.sound_distinct.linkChecked_eq hi hj hij]
    cases equal <;> simp [hij] <;> rfl

theorem checkChecked_eq (hs : net.Sound) : net.checkChecked = .ok net.check := by
  rw [checkChecked, check, emptied?]
  cases hfind : net.domains.findIdx? Domain.isEmpty with
  | none => rfl
  | some i =>
      obtain ⟨hi, -, -⟩ := Array.findIdx?_eq_some_iff_getElem.1 hfind
      dsimp only
      rw [nameChecked_eq (hs.size_domains ▸ hi)]
      rfl

/-! ## Merging a class -/

def narrowChecked (head : Nat) : List Nat → Network → Checked Phase
  | [], net => return .passed net
  | m :: ms, net => do
      let e ← net.domainChecked m
      let d ← net.domainChecked head
      let net ← net.setDomainChecked head (d.intersect e)
      if net.viable head then narrowChecked head ms net
      else
        let first ← net.nameChecked head
        let second ← net.nameChecked m
        return .stuck net (.equality first second)

def shareChecked (head : Nat) (members : List Nat) (net : Network) : Checked Network := do
  let merged ← net.domainChecked head
  members.foldlM (fun net m => net.setDomainChecked m merged) net

def redirectChecked (head : Nat) (members : IndexSet) (m : Nat) :
    List Nat → Network → Checked Phase
  | [], net => return .passed net
  | other :: others, net => do
      if other = head || members.contains other then
        let first ← net.nameChecked m
        let second ← net.nameChecked other
        return .stuck net (.contradiction first second)
      else
        let g ← net.distinct.linkChecked head other
        redirectChecked head members m others { net with distinct := g }

def takeOverChecked (head : Nat) (members : IndexSet) : List Nat → Network → Checked Phase
  | [], net => return .passed net
  | m :: ms, net => do
      let row ← net.distinct.neighborsChecked m
      let g ← net.distinct.isolateChecked m
      let redirected ← redirectChecked head members m row.toList { net with distinct := g }
      redirected.andThenChecked (takeOverChecked head members ms)

def gatherChecked (head : Nat) (members : IndexSet) (net : Network) : Checked Phase := do
  let row ← net.distinct.neighborsChecked head
  match row.toList.find? members.contains with
  | some m =>
      let first ← net.nameChecked head
      let second ← net.nameChecked m
      return .stuck net (.contradiction first second)
  | none => takeOverChecked head members members.toList net

def leadChecked (head : Nat) (members : List Nat) (net : Network) : Checked Network := do
  let leaders ← members.foldlM (fun leaders m => do
    require leaders.size m
    return leaders.setIfInBounds m head) net.leaders
  return { net with leaders }

def mergeClassChecked (head : Nat) (members : IndexSet) (net : Network) : Checked Phase := do
  let narrowed ← narrowChecked head members.toList net
  narrowed.andThenChecked fun net => do
    let shared ← shareChecked head members.toList net
    let gathered ← gatherChecked head members shared
    gathered.andThenChecked fun net => do
      let led ← leadChecked head members.toList net
      return .passed led

theorem narrowChecked_eq (hs : net.Sound) (hhead : head < net.size) (hms : ∀ m ∈ ms, m < net.size) :
    narrowChecked head ms net = .ok (narrow head ms net) := by
  induction ms generalizing net with
  | nil => rfl
  | cons m ms ih =>
      have hm := hms m List.mem_cons_self
      have hsound := hs.setDomain head ((hs.normal head).intersect (hs.normal m))
      rw [narrowChecked, domainChecked_eq (hs.lt_domains hm), ok_bind,
        domainChecked_eq (hs.lt_domains hhead), ok_bind,
        setDomainChecked_eq (hs.lt_domains hhead), ok_bind, narrow]
      split
      · exact ih hsound hhead fun k hk => hms k (List.mem_cons_of_mem _ hk)
      · rw [@nameChecked_eq (net.setDomain head _) head hhead, ok_bind,
          @nameChecked_eq (net.setDomain head _) m hm]
        rfl

theorem shareChecked_eq (hhead : head < net.domains.size) (hms : ∀ m ∈ ms, m < net.domains.size) :
    shareChecked head ms net = .ok (share head ms net) := by
  rw [shareChecked, domainChecked_eq hhead, ok_bind]
  refine foldlM_eq_ok (fun net' => net'.domains.size = net.domains.size) ?_ rfl
  intro m hm net' hsize
  refine ⟨setDomainChecked_eq (hsize ▸ hms m hm) _, ?_⟩
  rw [size_domains_setDomain, hsize]

theorem redirectChecked_eq {others : List Nat} (hg : net.distinct.Sound net.size)
    (hhead : head < net.size) (hm : m < net.size) (hlt : ∀ o ∈ others, o < net.size) :
    redirectChecked head members m others net = .ok (redirect head members m others net) := by
  induction others generalizing net with
  | nil => rfl
  | cons o os ih =>
      have ho := hlt o List.mem_cons_self
      rw [redirectChecked, redirect]
      split
      · rw [nameChecked_eq hm, ok_bind, nameChecked_eq ho]
        rfl
      · next hout =>
          -- A neighbour that is in the class ends the phase, so no new edge is a loop.
          rw [Bool.or_eq_true, decide_eq_true_eq, not_or] at hout
          rw [hg.linkChecked_eq hhead ho (Ne.symm hout.1), ok_bind]
          exact @ih { net with distinct := net.distinct.link head o }
            (hg.link hhead ho (Ne.symm hout.1)) hhead hm
            fun p hp => hlt p (List.mem_cons_of_mem _ hp)

theorem takeOverChecked_eq (hg : net.distinct.Sound net.size) (hhead : head < net.size)
    (hms : ∀ m ∈ ms, m < net.size) :
    takeOverChecked head members ms net = .ok (takeOver head members ms net) := by
  induction ms generalizing net with
  | nil => rfl
  | cons m ms ih =>
      have hm := hms m List.mem_cons_self
      have hothers : ∀ o ∈ (net.distinct.neighbors m).toList, o < net.size :=
        fun o ho => hg.lt_right (IndexSet.mem_toList.1 ho)
      have hisolate := hg.isolate m
      have hredirect := @redirectChecked_eq { net with distinct := net.distinct.isolate m } head m
        members _ hisolate hhead hm hothers
      rw [takeOverChecked, Graph.neighborsChecked_eq (hg.lt_order hm), ok_bind,
        hg.isolateChecked_eq hm, ok_bind, hredirect, ok_bind, takeOver]
      refine (@redirect_ends { net with distinct := net.distinct.isolate m } head m members _
        hisolate hhead hothers).andThenChecked_eq fun mid hmid => ?_
      obtain ⟨g, rfl, hg', -, -⟩ := hmid
      exact @ih { net with distinct := g } hg' hhead fun k hk => hms k (List.mem_cons_of_mem _ hk)

theorem gatherChecked_eq (hg : net.distinct.Sound net.size) (hhead : head < net.size)
    (hlt : ∀ m, members.contains m = true → m < net.size) :
    gatherChecked head members net = .ok (gather head members net) := by
  rw [gatherChecked, Graph.neighborsChecked_eq (hg.lt_order hhead), ok_bind, gather]
  cases hfind : (net.distinct.neighbors head).toList.find? members.contains with
  | some m =>
      have hm := hlt m (List.find?_some hfind)
      dsimp only
      rw [nameChecked_eq hhead, ok_bind, nameChecked_eq hm]
      rfl
  | none => exact takeOverChecked_eq hg hhead fun m hm => hlt m (IndexSet.mem_toList.1 hm)

theorem leadChecked_eq (hms : ∀ m ∈ ms, m < net.leaders.size) :
    leadChecked head ms net = .ok (lead head ms net) := by
  have hleaders : ms.foldlM (fun leaders m => do
      require leaders.size m
      return leaders.setIfInBounds m head) net.leaders =
        .ok (ms.foldl (fun leaders m => leaders.setIfInBounds m head) net.leaders) := by
    refine foldlM_eq_ok (fun leaders => leaders.size = net.leaders.size) ?_ rfl
    intro m hm leaders hsize
    rw [require_of_lt (hsize ▸ hms m hm), Array.size_setIfInBounds]
    exact ⟨rfl, hsize⟩
  rw [leadChecked, hleaders]
  rfl

theorem mergeClassChecked_eq (hs : net.Sound) (hhead : head < net.size)
    (hlt : ∀ m, members.contains m = true → m < net.size) (hnot : members.contains head = false) :
    mergeClassChecked head members net = .ok (mergeClass head members net) := by
  have hms : ∀ m ∈ members.toList, m < net.size := fun m hm => hlt m (IndexSet.mem_toList.1 hm)
  have hnotMem : head ∉ members.toList := by
    rw [IndexSet.mem_toList, hnot]
    exact Bool.false_ne_true
  rw [mergeClassChecked, narrowChecked_eq hs hhead hms, ok_bind, mergeClass]
  refine (narrow_ends hs hhead hnotMem).andThenChecked_eq fun narrowed hnarrowed => ?_
  -- From here on domains change and edges move, but no array changes its size.
  have hdomains : ∀ i, i < net.size → i < narrowed.domains.size := by
    intro i hi
    rw [hnarrowed.same.size_domains_eq]
    exact hs.lt_domains hi
  have hshared := hnarrowed.shared hs hlt
  rw [shareChecked_eq (hdomains head hhead) fun m hm => hdomains m (hms m hm), ok_bind]
  generalize share head members.toList narrowed = shared at hshared
  have hhead' : head < shared.size := hshared.same.size_eq.symm ▸ hhead
  have hg := hshared.sound.sound_distinct
  rw [gatherChecked_eq hg hhead' fun m hm => hshared.same.size_eq.symm ▸ hlt m hm, ok_bind]
  have hgather : TakesOver head members members.toList shared (gather head members shared) :=
    gather_ends hg hhead' hnot
  refine Phase.Ends.andThenChecked_eq hgather fun gathered hgathered => ?_
  obtain ⟨g, rfl, -, -⟩ := hgathered
  have hleaders : ∀ m ∈ members.toList, m < shared.leaders.size := by
    rw [hshared.same.leaders_eq]
    exact fun m hm => hs.lt_leaders (hms m hm)
  rw [@leadChecked_eq { shared with distinct := g } head _ hleaders]
  rfl

/-! ## Merging all classes -/

def classOfChecked (net : Network) (head : Nat) : Checked IndexSet := do
  let members ← net.equal.componentChecked head
  if members.contains head then
    let name ← net.nameChecked head
    refuse (.selfEquality name)
  else return members

def mergeClassesChecked : List Nat → IndexSet → Network → Checked Phase
  | [], _, net => return .passed net
  | head :: heads, swallowed, net => do
      if swallowed.contains head then mergeClassesChecked heads swallowed net
      else
        let members ← net.classOfChecked head
        let _ ← net.nameChecked head
        let _ ← members.toList.mapM net.nameChecked
        let merged ← mergeClassChecked head members net
        merged.andThenChecked (mergeClassesChecked heads (swallowed.union members))

def clearEqualChecked (net : Network) : Checked Network := do
  let g ← (List.range net.size).foldlM Graph.isolateChecked net.equal
  return { net with equal := g }

def collapseChecked (net : Network) : Checked Phase := do
  let merged ← mergeClassesChecked net.equal.vertices (.withCapacity net.size) net
  merged.andThenChecked fun net => do
    let net ← net.clearEqualChecked
    if net.equal.isEdgeless then return .passed net else refuse .equalitiesRemain

theorem classOfChecked_eq (hg : net.equal.Undirected net.size) (hhead : head < net.size) :
    net.classOfChecked head = lift (net.classOf head) := by
  rw [classOfChecked, hg.componentChecked_eq hhead, ok_bind, nameChecked_eq hhead,
    classOf]
  split <;> rfl

theorem mergeClassesChecked_eq {heads : List Nat} :
    ∀ {swallowed : IndexSet} {net : Network}, net.Sound → (∀ i ∈ heads, i < net.size) →
      mergeClassesChecked heads swallowed net = lift (mergeClasses heads swallowed net).outcome := by
  induction heads with
  | nil =>
      intro swallowed net _ _
      rfl
  | cons head heads ih =>
      intro swallowed net hs hheads
      have hhead := hheads head List.mem_cons_self
      have hheads' : ∀ i ∈ heads, i < net.size := fun i hi => hheads i (List.mem_cons_of_mem _ hi)
      rw [mergeClassesChecked, mergeClasses]
      split
      · exact ih hs hheads'
      · have hclassOf := classOfChecked_eq hs.sound_equal.undirected hhead
        refine eq_lift_andThen hclassOf fun members hclass => ?_
        have hmembers := (classOf_returns hs head).of_eq_ok hclass
        have hlt : ∀ m, members.contains m = true → m < net.size := by
          intro m hm
          obtain ⟨hc, hne⟩ := (hmembers m).1 hm
          exact hc.lt hs.sound_equal hne
        have hnot := not_contains_head hmembers
        -- The report names the whole class before any of it is merged.
        refine eq_lift_note ?_
        rw [nameChecked_eq hhead, ok_bind,
          namesChecked_eq fun m hm => hlt m (IndexSet.mem_toList.1 hm), ok_bind,
          mergeClassChecked_eq hs hhead hlt hnot, ok_bind]
        have hends := mergeClass_ends hs hlt hhead hnot
        generalize mergeClass head members net = phase at hends
        cases phase with
        | passed net' =>
            refine ih hends.sound fun i hi => ?_
            rw [size_congr hends.vars_eq]
            exact hheads' i hi
        | stuck net' cause => rfl

theorem clearEqualChecked_eq (hg : net.equal.Sound net.size) :
    net.clearEqualChecked = .ok net.clearEqual := by
  have hisolated : (List.range net.size).foldlM Graph.isolateChecked net.equal =
      .ok ((List.range net.size).foldl Graph.isolate net.equal) := by
    refine foldlM_eq_ok (fun g => g.Sound net.size) ?_ hg
    intro a ha g hg
    exact ⟨hg.isolateChecked_eq (List.mem_range.1 ha), hg.isolate a⟩
  rw [clearEqualChecked, hisolated]
  rfl

/-- Merging the equal variables of a network commits no breach. -/
theorem collapseChecked_eq (hs : net.Sound) (hlead : ∀ i, net.leader i = i) :
    net.collapseChecked = lift net.collapse.outcome := by
  have hheads : ∀ i ∈ net.equal.vertices, i < net.size :=
    fun i hi => hs.sound_equal.lt_of_mem_vertices hi
  have hpass := mergeClasses_returns hs (Graph.pairwise_vertices net.equal) hheads
    (Merging.first hs hlead)
  rw [collapseChecked, collapse]
  refine eq_lift_andThen (mergeClassesChecked_eq hs hheads) fun phase hphase => ?_
  have hends := hpass.of_eq_ok hphase
  cases phase with
  | stuck net' cause => rfl
  | passed net' =>
      obtain ⟨swallowed, hmerging⟩ := hends
      rw [Phase.andThenChecked]
      dsimp only
      rw [clearEqualChecked_eq hmerging.sound.sound_equal, ok_bind]
      split <;> rfl

end Network

end FiniteDomain
