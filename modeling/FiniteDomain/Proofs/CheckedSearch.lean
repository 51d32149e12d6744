import FiniteDomain.Proofs.CheckedNetwork
import FiniteDomain.Proofs.SearchVerdict
import Mathlib

/-!
# Searching without a breach

Deciding inequalities lowers the number of edges, reading a witness writes into an
array of values and looks up leaders in it, and the search does both at every node of
its tree. Checked, each of them agrees with its unchecked form on every sound network,
and soundness is what a node hands down to the nodes below it.

That is all that has to be known of the network. Whether there is a value to pick, or
the depth is enough, is a question the unchecked computation asks as well; on that the
two agree without either being right.
-/

namespace FiniteDomain

open Checked

namespace Network

variable {net net' : Network} {a b i x : Nat} {js : List Nat} {order : ValueOrder}
  {settings : Settings} {mode : Mode}

/-! ## Deciding inequalities -/

def relaxChecked (net : Network) (a b : Nat) : Checked Network := do
  let g ← net.distinct.unlinkChecked a b
  return { net with distinct := g }

def concedeChecked (net : Network) (a b loser : Nat) (common : Domain) : Checked Phase := do
  let d ← net.domainChecked loser
  let rest ← d.excludeChecked common
  let _ ← [a, b].mapM net.nameChecked
  let net ← net.setDomainChecked loser rest
  let net ← net.relaxChecked a b
  return .passed net

def decideInequalityChecked (net : Network) (a b : Nat) : Checked Phase := do
  let d ← net.domainChecked a
  let e ← net.domainChecked b
  if d.overlaps e then
    let common := d.intersect e
    if common.isSingleton then
      match d.isSingleton, e.isSingleton with
      | true, true =>
          let first ← net.nameChecked a
          let second ← net.nameChecked b
          return .stuck net (.inequality first second)
      | true, false => net.concedeChecked a b b common
      | false, true => net.concedeChecked a b a common
      | false, false => return .passed net
    else return .passed net
  else
    let _ ← [a, b].mapM net.nameChecked
    let net ← net.relaxChecked a b
    return .passed net

def decideInequalitiesChecked : List (Nat × Nat) → Network → Checked Phase
  | [], net => return .passed net
  | (a, b) :: rest, net => do
      let decided ← net.decideInequalityChecked a b
      decided.andThenChecked (decideInequalitiesChecked rest)

def pruneChecked (net : Network) : Checked Phase := do
  let edges ← net.distinct.edgesChecked
  decideInequalitiesChecked edges net

theorem relaxChecked_eq (hg : net.distinct.Sound net.size) (ha : a < net.size) (hb : b < net.size) :
    net.relaxChecked a b = .ok (net.relax a b) := by
  rw [relaxChecked, hg.unlinkChecked_eq ha hb]
  rfl

theorem endsChecked_eq (ha : a < net.size) (hb : b < net.size) :
    [a, b].mapM net.nameChecked = .ok [net.name a, net.name b] := by
  refine namesChecked_eq fun i hi => ?_
  rw [List.mem_pair] at hi
  rcases hi with rfl | rfl
  · exact ha
  · exact hb

theorem concedeChecked_eq (hs : net.Sound) (ha : a < net.size) (hb : b < net.size) {loser : Nat}
    (hloser : loser < net.size) (common : Domain) :
    net.concedeChecked a b loser common = lift (net.concede a b loser common).outcome := by
  rw [concedeChecked, domainChecked_eq (hs.lt_domains hloser), ok_bind, Domain.excludeChecked_eq,
    ok_bind, endsChecked_eq ha hb, ok_bind, setDomainChecked_eq (hs.lt_domains hloser), ok_bind,
    @relaxChecked_eq (net.setDomain loser _) a b hs.sound_distinct ha hb]
  rfl

theorem decideInequalityChecked_eq (hs : net.Sound) (ha : a < net.size) (hb : b < net.size) :
    net.decideInequalityChecked a b = lift (net.decideInequality a b).outcome := by
  rw [decideInequalityChecked, domainChecked_eq (hs.lt_domains ha), ok_bind,
    domainChecked_eq (hs.lt_domains hb), ok_bind, decideInequality]
  dsimp only
  split
  · split
    · cases (net.domain a).isSingleton with
      | true =>
          cases (net.domain b).isSingleton with
          | true =>
              dsimp only
              rw [nameChecked_eq ha, ok_bind, nameChecked_eq hb]
              rfl
          | false => exact concedeChecked_eq hs ha hb hb _
      | false =>
          cases (net.domain b).isSingleton with
          | true => exact concedeChecked_eq hs ha hb ha _
          | false => rfl
    · rfl
  · rw [endsChecked_eq ha hb, ok_bind, relaxChecked_eq hs.sound_distinct ha hb]
    rfl

theorem decideInequalitiesChecked_eq {es : List (Nat × Nat)} :
    ∀ {net : Network}, net.Sound → es.Nodup →
      (∀ e ∈ es, net.distinct.adjacent e.1 e.2 = true ∧ e.1 < e.2) →
      decideInequalitiesChecked es net = lift (decideInequalities es net).outcome := by
  induction es with
  | nil =>
      intro net _ _ _
      rfl
  | cons e es ih =>
      intro net hs hnodup hes
      obtain ⟨a, b⟩ := e
      obtain ⟨hfresh, hnodup⟩ := List.nodup_cons.1 hnodup
      obtain ⟨hab, hlt⟩ := hes (a, b) List.mem_cons_self
      have hchecked := decideInequalityChecked_eq hs (hs.sound_distinct.lt_left hab)
        (hs.sound_distinct.lt_right hab)
      rw [decideInequalitiesChecked, decideInequalities]
      refine eq_lift_andThen hchecked fun phase hphase => ?_
      have hends := (decideInequality_returns hs hab hlt).of_eq_ok hphase
      cases phase with
      | stuck mid cause => rfl
      | passed mid =>
          -- An edge of the list is still there when its turn comes: no turn removes any but its own.
          exact ih hends.pruned.sound hnodup
            (hends.rest hlt hfresh fun e he => hes e (List.mem_cons_of_mem _ he))

/-- Deciding the inequalities of a network commits no breach. -/
theorem pruneChecked_eq (hs : net.Sound) : net.pruneChecked = lift net.prune.outcome := by
  rw [pruneChecked, Graph.edgesChecked_eq, ok_bind, prune]
  exact decideInequalitiesChecked_eq hs (Graph.nodup_edges _)
    fun e he => hs.sound_distinct.mem_edges.1 he

/-! ## Choosing a variable -/

def isCriticalChecked (net : Network) (a : Nat) : Checked Bool := do
  let d ← net.domainChecked a
  let row ← net.distinct.neighborsChecked a
  return d.size ≤ row.count

def tighterChecked (net : Network) (best : Option Nat) (a : Nat) : Checked (Option Nat) :=
  match best with
  | none => return some a
  | some b => do
      let d ← net.domainChecked a
      let e ← net.domainChecked b
      return if d.size < e.size then some a else some b

def criticalChecked? (net : Network) : Checked (Option Nat) :=
  net.distinct.vertices.foldlM (fun best a => do
    let critical ← net.isCriticalChecked a
    if critical then net.tighterChecked best a else return best) none

def differenceChecked (net : Network) (e : Nat × Nat) : Checked (String × String) := do
  let first ← net.nameChecked e.1
  let second ← net.nameChecked e.2
  return (first, second)

def differencesChecked (net : Network) : Checked (List (String × String)) := do
  let edges ← net.distinct.edgesChecked
  edges.mapM net.differenceChecked

theorem isCriticalChecked_eq (hs : net.Sound) (ha : a < net.size) :
    net.isCriticalChecked a = .ok (net.isCritical a) := by
  rw [isCriticalChecked, domainChecked_eq (hs.lt_domains ha), ok_bind,
    Graph.neighborsChecked_eq (hs.sound_distinct.lt_order ha)]
  rfl

theorem tighterChecked_eq (hs : net.Sound) {best : Option Nat} (hbest : ∀ b ∈ best, b < net.size)
    (ha : a < net.size) : net.tighterChecked best a = .ok (net.tighter best a) ∧
      ∀ b ∈ net.tighter best a, b < net.size := by
  cases best with
  | none => exact ⟨rfl, fun b hb => Option.mem_some_iff.1 hb ▸ ha⟩
  | some c =>
      have hc : c < net.size := hbest c rfl
      refine ⟨?_, fun b hb => ?_⟩
      · rw [tighterChecked, domainChecked_eq (hs.lt_domains ha), ok_bind,
          domainChecked_eq (hs.lt_domains hc)]
        rfl
      · rw [tighter] at hb
        split at hb
        · exact Option.mem_some_iff.1 hb ▸ ha
        · exact Option.mem_some_iff.1 hb ▸ hc

theorem criticalChecked?_eq (hs : net.Sound) : net.criticalChecked? = .ok net.critical? := by
  rw [criticalChecked?, critical?, List.foldl_filter]
  refine foldlM_eq_ok (fun best => ∀ b ∈ best, b < net.size) ?_ (fun b hb => by cases hb)
  intro a hvertex best hbest
  have ha := hs.sound_distinct.lt_of_mem_vertices hvertex
  rw [isCriticalChecked_eq hs ha, ok_bind]
  split
  · exact tighterChecked_eq hs hbest ha
  · exact ⟨rfl, hbest⟩

theorem differencesChecked_eq (hs : net.Sound) :
    net.differencesChecked = .ok net.differences := by
  rw [differencesChecked, Graph.edgesChecked_eq, ok_bind]
  refine mapM_eq_ok fun e he => ?_
  obtain ⟨hadj, -⟩ := hs.sound_distinct.mem_edges.1 he
  rw [differenceChecked, nameChecked_eq (hs.sound_distinct.lt_left hadj), ok_bind,
    nameChecked_eq (hs.sound_distinct.lt_right hadj)]
  rfl

/-! ## Reading a witness -/

/-- Changes the domains of the variables in a list. -/
def adaptChecked (f : Domain → Checked Domain) (js : List Nat) (net : Network) : Checked Network :=
  js.foldlM (fun net j => do
    let d ← net.domainChecked j
    let e ← f d
    net.setDomainChecked j e) net

def settleChecked (net : Network) (i : Nat) (v : Int) : Checked Network := do
  let only := Domain.singleton v
  let pinned ← net.setDomainChecked i only
  let equals ← net.equal.neighborsChecked i
  let same ← adaptChecked (fun d => return d.intersect only) equals.toList pinned
  let others ← net.distinct.neighborsChecked i
  adaptChecked (·.excludeChecked only) others.toList same

def pickChecked (order : ValueOrder) :
    List Nat → Network → Array (Option Int) → Checked (Network × Array (Option Int))
  | [], net, values => return (net, values)
  | i :: rest, net, values => do
      let leader ← net.leaderChecked i
      if leader = i then
        let d ← net.domainChecked i
        let name ← net.nameChecked i
        match d.first? order with
        | none => refuse (.emptyDomain name)
        | some v =>
            let net ← net.settleChecked i v
            require values.size i
            pickChecked order rest net (values.setIfInBounds i (some v))
      else pickChecked order rest net values

def assignFromChecked (net : Network) (values : Array (Option Int)) :
    List (Variable × Nat) → Assignment → Checked Assignment
  | [], s => return s
  | (x, i) :: rest, s => do
      let leader ← net.leaderChecked i
      require values.size leader
      match values.getD leader none with
      | none => refuse (.noValue x.name)
      | some v => assignFromChecked net values rest (s.insert x v)

def witnessChecked (net : Network) (order : ValueOrder) : Checked (Assignment × Network) := do
  let (net, values) ← pickChecked order (List.range net.size) net (Array.replicate net.size none)
  let s ← assignFromChecked net values net.vars.toList.zipIdx .empty
  if s.size = net.size then return (s, net) else refuse .incompleteAssignment

theorem adaptChecked_eq {f : Domain → Checked Domain} {f' : Domain → Domain}
    (hf : ∀ d, f d = .ok (f' d)) (hlt : ∀ j ∈ js, j < net.domains.size) :
    adaptChecked f js net = .ok (js.foldl (fun net j => net.setDomain j (f' (net.domain j))) net) := by
  refine foldlM_eq_ok (fun net' => net'.domains.size = net.domains.size) ?_ rfl
  intro j hj net' hsize
  have hj : j < net'.domains.size := hsize ▸ hlt j hj
  refine ⟨?_, ?_⟩
  · rw [domainChecked_eq hj, ok_bind, hf, ok_bind, setDomainChecked_eq hj]
  · rw [size_domains_setDomain, hsize]

theorem settleChecked_eq (hs : net.Sound) (hi : i < net.size) (v : Int) :
    net.settleChecked i v = .ok (net.settle i v) := by
  have hlt : ∀ {g : Graph} {net' : Network}, g.Sound net.size →
      net'.domains.size = net.domains.size → ∀ j ∈ (g.neighbors i).toList, j < net'.domains.size := by
    intro g net' hg hsize j hj
    rw [hsize]
    exact hs.lt_domains (hg.lt_right (IndexSet.mem_toList.1 hj))
  have hpin : net.setDomainChecked i (.singleton v) = .ok (net.pin i v) :=
    setDomainChecked_eq (hs.lt_domains hi) _
  have hsize : (net.pin i v).domains.size = net.domains.size := size_domains_setDomain net i _
  have hsame : adaptChecked (fun d => return d.intersect (.singleton v))
      (net.equal.neighbors i).toList (net.pin i v) = .ok _ :=
    adaptChecked_eq (fun _ => rfl) (hlt hs.sound_equal hsize)
  have hsize' := (sameButDomains_foldl (fun net j => (net.domain j).intersect (.singleton v))
    (net.pin i v) (net.equal.neighbors i).toList).size_domains_eq.trans hsize
  rw [settleChecked, hpin, ok_bind, Graph.neighborsChecked_eq (hs.sound_equal.lt_order hi),
    ok_bind, hsame, ok_bind, Graph.neighborsChecked_eq (hs.sound_distinct.lt_order hi), ok_bind,
    adaptChecked_eq (fun d => d.excludeChecked_eq _) (hlt hs.sound_distinct hsize')]
  rfl

theorem pickChecked_eq {is : List Nat} : ∀ {net : Network} {values : Array (Option Int)},
    net.Sound → values.size = net.size → (∀ i ∈ is, i < net.size) →
      pickChecked order is net values = lift (pick order is net values).outcome := by
  induction is with
  | nil =>
      intro net values _ _ _
      rfl
  | cons i is ih =>
      intro net values hs hsize his
      have hi := his i List.mem_cons_self
      have his' : ∀ k ∈ is, k < net.size := fun k hk => his k (List.mem_cons_of_mem _ hk)
      rw [pickChecked, leaderChecked_eq (hs.lt_leaders hi), ok_bind, pick]
      split
      · rw [domainChecked_eq (hs.lt_domains hi), ok_bind, nameChecked_eq hi, ok_bind]
        cases (net.domain i).first? order with
        | none => rfl
        | some v =>
            refine eq_lift_note ?_
            dsimp only
            rw [settleChecked_eq hs hi, ok_bind, require_of_lt (hsize.symm ▸ hi), ok_bind]
            have hsettled := (sameButDomains_settle net i v).size_eq
            refine ih (hs.settle i v) ?_ fun k hk => hsettled.symm ▸ his' k hk
            rw [Array.size_setIfInBounds, hsize, hsettled]
      · exact ih hs hsize his'

/-- Picking values changes nothing but domains, and the values. -/
theorem sameButDomains_pick {is : List Nat} {values values' : Array (Option Int)} :
    ∀ {net : Network}, (pick order is net values).outcome = .ok (net', values') →
      SameButDomains net net' ∧ values'.size = values.size := by
  induction is generalizing values with
  | nil =>
      intro net h
      cases h
      exact ⟨SameButDomains.refl _, rfl⟩
  | cons i is ih =>
      intro net h
      rw [pick] at h
      split at h
      · split at h
        · cases h
        · next v hv =>
            obtain ⟨hsame, hsize⟩ := ih h
            rw [Array.size_setIfInBounds] at hsize
            exact ⟨(sameButDomains_settle net i v).trans hsame, hsize⟩
      · exact ih h

theorem assignFromChecked_eq {values : Array (Option Int)}
    (hleader : ∀ i < net.size, i < net.leaders.size ∧ net.leader i < values.size)
    {ps : List (Variable × Nat)} :
    ∀ {s : Assignment}, (∀ p ∈ ps, p.2 < net.size) →
      assignFromChecked net values ps s = lift (assignFrom net values ps s) := by
  induction ps with
  | nil =>
      intro s _
      rfl
  | cons p ps ih =>
      intro s hps
      obtain ⟨x, i⟩ := p
      obtain ⟨hi, hvalue⟩ := hleader i (hps (x, i) List.mem_cons_self)
      rw [assignFromChecked, leaderChecked_eq hi, ok_bind, require_of_lt hvalue, ok_bind, assignFrom]
      cases values.getD (net.leader i) none with
      | none => rfl
      | some v => exact ih fun p hp => hps p (List.mem_cons_of_mem _ hp)

theorem witnessChecked_eq (hs : net.Sound) (order : ValueOrder) :
    net.witnessChecked order = lift (net.witness order).outcome := by
  have hreplicate : (Array.replicate net.size (none : Option Int)).size = net.size :=
    Array.size_replicate
  rw [witnessChecked, witness]
  refine eq_lift_andThen (pickChecked_eq hs hreplicate fun i hi => List.mem_range.1 hi) fun r hr => ?_
  obtain ⟨net', values⟩ := r
  obtain ⟨hsame, hsize⟩ := sameButDomains_pick hr
  refine eq_lift_andThen (y := .ofExcept _) (assignFromChecked_eq ?_ fun p hp => ?_) fun s _ => ?_
  · intro i hi
    rw [hsame.size_eq] at hi
    rw [hsame.leaders_eq, hsame.leader_eq, hsize, hreplicate]
    exact ⟨hs.lt_leaders hi, hs.leader_lt i hi⟩
  · have := List.snd_lt_of_mem_zipIdx hp
    simpa [size] using this
  · split <;> rfl

/-! ## Searching -/

def acceptChecked (settings : Settings) (mode : Mode) (net : Network) : Checked Verdict :=
  match mode with
  | .decide => return .sat .empty
  | .witness => do
      let (s, _) ← net.witnessChecked settings.order
      return .sat s

def tryValuesChecked (settings : Settings) (deeper : Network → Nat → Checked (Verdict × Nat))
    (net : Network) (x : Nat) : List Int → Nat → Checked (Verdict × Nat)
  | [], tried => do
      let differences ← net.differencesChecked
      return (.unsat (.inequalities differences), tried)
  | v :: vs, tried => do
      let tried := tried + 1
      if settings.affords tried then
        let _ ← net.nameChecked x
        let pinned ← net.setDomainChecked x (.singleton v)
        match ← deeper pinned tried with
        | (.unsat _, tried) => tryValuesChecked settings deeper net x vs tried
        | (verdict, tried) => return (verdict, tried)
      else
        let differences ← net.differencesChecked
        return (.unknown differences, tried)

def searchChecked (settings : Settings) (mode : Mode) :
    Nat → Network → Nat → Checked (Verdict × Nat)
  | 0, _, _ => refuse .searchTooDeep
  | depth + 1, net, tried => do
      if net.distinct.isEdgeless then
        let verdict ← net.acceptChecked settings mode
        return (verdict, tried)
      else
        match ← net.pruneChecked with
        | .stuck _ cause => return (.unsat cause, tried)
        | .passed net =>
            match ← net.criticalChecked? with
            | none =>
                let _ ← net.differencesChecked
                let verdict ← net.acceptChecked settings mode
                return (verdict, tried)
            | some x =>
                let d ← net.domainChecked x
                let _ ← net.nameChecked x
                tryValuesChecked settings (searchChecked settings mode depth) net x
                  (d.values settings.order) tried

theorem acceptChecked_eq (hs : net.Sound) :
    net.acceptChecked settings mode = lift (net.accept settings mode).outcome := by
  cases mode with
  | decide => rfl
  | witness => exact eq_lift_andThen (witnessChecked_eq hs settings.order) fun _ _ => rfl

theorem tryValuesChecked_eq (hs : net.Sound) (hx : x < net.size)
    {deeper : Network → Nat → Traced (Verdict × Nat)}
    {deeper' : Network → Nat → Checked (Verdict × Nat)}
    (hdeeper : ∀ v tried, deeper' (net.pin x v) tried = lift (deeper (net.pin x v) tried).outcome)
    {vs : List Int} : ∀ {tried : Nat}, tryValuesChecked settings deeper' net x vs tried =
      lift (tryValues settings deeper net x vs tried).outcome := by
  induction vs with
  | nil =>
      intro tried
      rw [tryValuesChecked, differencesChecked_eq hs]
      rfl
  | cons v vs ih =>
      intro tried
      rw [tryValuesChecked, tryValues]
      split
      · refine eq_lift_note ?_
        rw [nameChecked_eq hx, ok_bind, setDomainChecked_eq (hs.lt_domains hx), ok_bind]
        refine eq_lift_andThen (hdeeper v _) fun r _ => ?_
        obtain ⟨verdict, tried⟩ := r
        cases verdict with
        | unsat cause => exact ih
        | sat s => rfl
        | unknown pairs => rfl
      · rw [differencesChecked_eq hs]
        rfl

/-- Searching a sound network commits no breach, at any node of the tree. -/
theorem searchChecked_eq {depth : Nat} : ∀ {net : Network} {tried : Nat}, net.Sound →
    searchChecked settings mode depth net tried =
      lift (search settings mode depth net tried).outcome := by
  induction depth with
  | zero =>
      intro net tried _
      rfl
  | succ depth ih =>
      intro net tried hs
      rw [searchChecked, search]
      split
      · exact eq_lift_andThen (acceptChecked_eq hs) fun verdict _ => rfl
      · refine eq_lift_andThen (pruneChecked_eq hs) fun phase hphase => ?_
        have hends := (prune_returns hs).of_eq_ok hphase
        cases phase with
        | stuck mid cause => rfl
        | passed mid =>
            have hmid : mid.Sound := hends.1.sound
            dsimp only
            rw [criticalChecked?_eq hmid, ok_bind]
            cases hcritical : mid.critical? with
            | none =>
                refine eq_lift_note ?_
                dsimp only
                rw [differencesChecked_eq hmid, ok_bind]
                exact eq_lift_andThen (acceptChecked_eq hmid) fun verdict _ => rfl
            | some x =>
                have hx := hmid.sound_distinct.lt_of_mem_vertices (mem_of_critical? hcritical).1
                refine eq_lift_note ?_
                dsimp only
                rw [domainChecked_eq (hmid.lt_domains hx), ok_bind, nameChecked_eq hx, ok_bind]
                -- Pinning a variable moves no edge: the nodes below are as sound as this one.
                exact tryValuesChecked_eq hmid hx fun v tried =>
                  ih (hmid.setDomain x (Domain.normal_singleton v))

end Network

end FiniteDomain
