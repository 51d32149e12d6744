import FiniteDomain.Proofs.CollapseExact
import FiniteDomain.Proofs.GreedyWitness
import FiniteDomain.Proofs.PruneExact
import FiniteDomain.Solve.Search
import Mathlib

/-!
# What a search answers

`Answers` says what each verdict means for a problem that is given by its solutions.
It names no network, so that it can be said of a search and of everything that calls
one, and it is kept when the problem is put differently.

The depth of a search is enough for the same reason on every level but the first: the
variable that was fixed above still has an inequality, and deciding the inequalities
drops it. On the first level the depth itself is one more than there are
inequalities. `Deep` is the disjunction of the two, and every level hands the next
one the second half of it.
-/

namespace FiniteDomain

/-- The assignment that is handed out for a solution. -/
def Mode.report (mode : Mode) (vars : Array Variable) (σ : Nat → Int) : Assignment :=
  match mode with
  | .decide => .empty
  | .witness => .ofValues vars σ

/-- What a verdict says about the problem with the given solutions. -/
def Verdict.Answers (settings : Settings) (mode : Mode) (vars : Array Variable)
    (goal : (Nat → Int) → Prop) : Verdict → Prop
  | .sat s => ∃ σ, goal σ ∧ s = mode.report vars σ
  | .unsat _ => ∀ σ, ¬goal σ
  | .unknown _ => settings.budget ≠ none

section Answers

variable {settings : Settings} {mode : Mode} {vars : Array Variable} {verdict : Verdict}
  {goal goal' : (Nat → Int) → Prop} {cause : Conflict}

theorem Verdict.Answers.congr (h : verdict.Answers settings mode vars goal)
    (hiff : ∀ σ, goal σ ↔ goal' σ) : verdict.Answers settings mode vars goal' := by
  have heq : goal = goal' := funext fun σ => propext (hiff σ)
  rwa [← heq]

theorem refute_returns (h : ∀ σ, ¬goal σ) :
    Returns (refute cause).outcome (Verdict.Answers settings mode vars goal) :=
  Traced.returns_note (Traced.returns_pure h)

end Answers

namespace Network

variable {net : Network} {settings : Settings} {mode : Mode} {σ : Nat → Int} {x : Nat} {v : Int}

/-- A network that a search may be started on. -/
structure Searchable (net : Network) : Prop where
  sound : net.Sound
  merged : net.Merged
  leadersFit : net.LeadersFit
  viable : net.AllViable
  distinctNames : DistinctNames net.vars

namespace Searchable

theorem pruned {net' : Network} (h : net.Searchable) (hp : Pruned net net') : net'.Searchable where
  sound := hp.sound
  merged := hp.merged h.merged
  leadersFit := hp.leadersFit h.merged h.leadersFit
  viable := hp.allViable h.viable
  distinctNames := hp.vars_eq.symm ▸ h.distinctNames

theorem domain_pin (h : net.Searchable) (hx : x < net.size) (v : Int) (i : Nat) :
    (net.pin x v).domain i = if i = x then .singleton v else net.domain i :=
  domain_setDomain _ (h.sound.size_domains.symm ▸ hx) i

theorem pinned_pin (h : net.Searchable) (hx : x < net.size) (v : Int) : (net.pin x v).Pinned x := by
  refine ⟨v, fun w => ?_⟩
  rw [h.domain_pin hx, if_pos rfl, Domain.mem_singleton]

/-- A leader can be fixed to a value of its domain. -/
theorem pin (h : net.Searchable) (hx : x < net.size) (hlead : net.leader x = x)
    (hv : v ∈ net.domain x) : (net.pin x v).Searchable where
  sound := h.sound.setDomain x (Domain.normal_singleton v)
  merged := ⟨h.merged.not_equal, h.merged.leader_leader, h.merged.leader_of_distinct⟩
  leadersFit i hi w hw := by
    change w ∈ (net.pin x v).domain (net.leader i) at hw
    rw [h.domain_pin hx] at hw ⊢
    by_cases hli : net.leader i = x
    · rw [if_pos hli, Domain.mem_singleton] at hw
      subst hw
      split
      · exact Domain.mem_singleton.2 rfl
      · exact h.leadersFit i hi w (hli ▸ hv)
    · have hix : i ≠ x := fun hix => hli (by rw [hix, hlead])
      rw [if_neg hli] at hw
      rw [if_neg hix]
      exact h.leadersFit i hi w hw
  viable i hi := by
    rw [h.domain_pin hx]
    split
    · exact ⟨v, Domain.mem_singleton.2 rfl⟩
    · exact h.viable i hi
  distinctNames := h.distinctNames

theorem solved_pin (h : net.Searchable) (hx : x < net.size) (hv : v ∈ net.domain x) :
    (net.pin x v).Solved σ ↔ net.Solved σ ∧ σ x = v := by
  have hvalue : ∀ w, w ∈ Domain.singleton v ↔ w ∈ net.domain x ∧ w = v := by
    intro w
    rw [Domain.mem_singleton]
    exact ⟨fun hw => ⟨hw ▸ hv, hw⟩, fun hw => hw.2⟩
  rw [Solved, Network.pin, model_setDomain h.sound hx hvalue, and_right_comm]
  rfl

end Searchable

/-! ## Accepting -/

/-- A network without critical variables is accepted for a reason. -/
theorem accept_returns (h : net.Searchable) (hc : net.critical? = none) :
    Returns (net.accept settings mode).outcome
      (Verdict.Answers settings mode net.vars net.Solved) := by
  have hs := h.sound
  have hm := h.merged
  obtain ⟨values, settled, houtcome, hend⟩ :=
    witness_returns hs hm h.distinctNames (fun i hi => degree_lt_size hs h.viable hc hi)
      settings.order
  have hleader : ∀ i, net.valueFor values (net.leader i) = net.valueFor values i :=
    Picked.valueFor_leader hm values
  have hsolved : net.Solved (net.valueFor values) := by
    refine ⟨⟨fun i hi => ?_, fun i j hij => ?_, fun i j => hend.valueFor_ne hs hm⟩,
      fun i _ => (hleader i).symm⟩
    · refine h.leadersFit i hi _ ?_
      rw [← hleader]
      exact (hend.isFirst_valueFor hs hm (hs.leader_lt i hi) (hm.leader_leader i)).1.1
    · rw [hm.not_equal] at hij
      cases hij
  cases mode with
  | decide => exact Traced.returns_pure ⟨_, hsolved, rfl⟩
  | witness =>
      rw [accept]
      refine Traced.returns_bind (p := fun r => r.1 = .ofValues net.vars (net.valueFor values))
        ⟨_, houtcome, rfl⟩ fun r hr => ?_
      exact Traced.returns_pure ⟨_, hsolved, hr⟩

theorem critical?_of_isEdgeless (hs : net.Sound) (h : net.distinct.isEdgeless = true) :
    net.critical? = none := by
  rw [critical?_eq_none_iff]
  intro a ha
  obtain ⟨b, hab⟩ := hs.sound_distinct.mem_vertices.1 ha
  rw [hs.sound_distinct.isEdgeless_iff.1 h] at hab
  cases hab

/-! ## Trying values -/

/-- The loop over values answers for those it has still to try. -/
theorem tryValues_returns (h : net.Searchable) (hx : x < net.size)
    {deeper : Network → Nat → Traced (Verdict × Nat)} {vs : List Int} :
    ∀ {tried : Nat}, (∀ v ∈ vs, v ∈ net.domain x) →
      (∀ v ∈ vs, ∀ tried, Returns (deeper (net.pin x v) tried).outcome fun r =>
        r.1.Answers settings mode net.vars (net.pin x v).Solved) →
      Returns (tryValues settings deeper net x vs tried).outcome fun r =>
        r.1.Answers settings mode net.vars fun σ => net.Solved σ ∧ σ x ∈ vs := by
  induction vs with
  | nil =>
      intro tried _ _
      rw [tryValues]
      exact Traced.returns_pair (refute_returns fun σ hσ => List.not_mem_nil hσ.2) tried
  | cons v vs ih =>
      intro tried hvs hdeeper
      have hv := hvs v List.mem_cons_self
      rw [tryValues]
      split
      · refine Traced.returns_note (Traced.returns_bind (hdeeper v List.mem_cons_self _) ?_)
        intro r hr
        obtain ⟨verdict, tried'⟩ := r
        cases verdict with
        | sat s =>
            obtain ⟨σ, hσ, hs⟩ := hr
            obtain ⟨hsolved, hvalue⟩ := (h.solved_pin hx hv).1 hσ
            exact Traced.returns_pure ⟨σ, ⟨hsolved, hvalue ▸ List.mem_cons_self⟩, hs⟩
        | unknown pairs => exact Traced.returns_pure hr
        | unsat cause =>
            -- The value is out, so the solutions are those for the values that follow.
            have hout : ∀ σ, (net.Solved σ ∧ σ x ∈ vs) ↔ net.Solved σ ∧ σ x ∈ v :: vs := by
              intro σ
              refine and_congr_right fun hsolved => ?_
              rw [List.mem_cons]
              refine ⟨Or.inr, fun hmem => hmem.resolve_left fun hvalue => ?_⟩
              exact hr σ ((h.solved_pin hx hv).2 ⟨hsolved, hvalue⟩)
            have hrest := @ih tried' (fun w hw => hvs w (List.mem_cons_of_mem _ hw))
              fun w hw => hdeeper w (List.mem_cons_of_mem _ hw)
            exact hrest.mono fun r hr' => hr'.congr hout
      · next hbudget =>
          refine Traced.returns_note (Traced.returns_pure ?_)
          intro hnone
          rw [Settings.affords, hnone] at hbudget
          exact hbudget rfl

/-! ## Searching -/

/-- So many levels are enough to search a network. -/
def Deep (depth : Nat) (net : Network) : Prop :=
  net.distinct.edgeCount < depth ∨
    net.distinct.edgeCount ≤ depth ∧ ∃ i j, net.Pinned i ∧ net.distinct.adjacent i j = true

theorem not_deep_zero (hg : net.distinct.Sound net.size) : ¬Deep 0 net := by
  intro hdeep
  rcases hdeep with hlt | ⟨hle, i, j, -, hij⟩
  · omega
  · have hedgeless : net.distinct.isEdgeless = true := by
      rw [Graph.isEdgeless, beq_iff_eq]
      omega
    rw [hg.isEdgeless_iff.1 hedgeless] at hij
    cases hij

/-- Deciding inequalities pays for a level. -/
theorem Deep.edgeCount_le {depth : Nat} {net' : Network} (hdeep : Deep (depth + 1) net)
    (hg : net.distinct.Sound net.size) (hg' : net'.distinct.Sound net.size)
    (hsub : ∀ i j, net'.distinct.adjacent i j = true → net.distinct.adjacent i j = true)
    (hdropped : ∀ i, net.Pinned i → ∀ j, net'.distinct.adjacent i j = false) :
    net'.distinct.edgeCount ≤ depth := by
  rcases hdeep with hlt | ⟨hle, i, j, hi, hij⟩
  · have := hg'.edgeCount_le hg hsub
    omega
  · have := hg'.edgeCount_lt hg hsub (hdropped i hi j) hij
    omega

/--
A search that is deep enough is never refused, and its verdict is right: a solution
is one, there is none when it says so, and it gives no answer only under a budget.
-/
theorem search_returns {depth : Nat} :
    ∀ {net : Network} {tried : Nat}, net.Searchable → Deep depth net →
      Returns (search settings mode depth net tried).outcome fun r =>
        r.1.Answers settings mode net.vars net.Solved := by
  induction depth with
  | zero =>
      intro net tried h hdeep
      exact absurd hdeep (not_deep_zero h.sound.sound_distinct)
  | succ depth ih =>
      intro net tried h hdeep
      rw [search]
      split
      · next hedgeless =>
          exact Traced.returns_pair
            (accept_returns h (critical?_of_isEdgeless h.sound hedgeless)) tried
      · refine Traced.returns_bind (prune_returns h.sound) fun phase hends => ?_
        cases phase with
        | stuck mid cause =>
            have hnone : ∀ σ, ¬net.Solved σ := fun σ hσ =>
              hends.no_fit σ ⟨hσ.1.mem, hσ.1.distinct⟩
            exact Traced.returns_pair (refute_returns hnone) tried
        | passed mid =>
            obtain ⟨hp, hdropped⟩ := hends
            have hmid := h.pruned hp
            have hcongr : ∀ σ, mid.Solved σ ↔ net.Solved σ := fun σ => hp.solved_iff
            simp only []
            rw [← hp.vars_eq]
            split
            · next hcritical =>
                refine Traced.returns_note (Traced.returns_pair ?_ tried)
                exact (accept_returns hmid hcritical).mono fun verdict h => h.congr hcongr
            · next x hcritical =>
                obtain ⟨y, hxy⟩ :=
                  hmid.sound.sound_distinct.mem_vertices.1 (mem_of_critical? hcritical).1
                have hx := hmid.sound.sound_distinct.lt_left hxy
                have hlead := hmid.merged.leader_of_distinct x y hxy
                have hle := hdeep.edgeCount_le h.sound.sound_distinct
                  (hp.size_eq ▸ hmid.sound.sound_distinct) hp.adjacent_of_adjacent hdropped
                refine Traced.returns_note ((tryValues_returns hmid hx
                  (fun v hv => Domain.mem_values.1 hv) ?_).mono fun r hr => hr.congr fun σ => ?_)
                · intro v hv tried
                  exact ih (hmid.pin hx hlead (Domain.mem_values.1 hv))
                    (Or.inr ⟨hle, x, y, hmid.pinned_pin hx v, hxy⟩)
                · rw [Domain.mem_values, ← hcongr]
                  exact and_iff_left_of_imp fun hsolved => hsolved.1.mem x hx

end Network

end FiniteDomain
