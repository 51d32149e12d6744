import FiniteDomain.Proofs.DirectSolve
import Mathlib

/-!
# Inequalities that fixed variables decide

An inequality needs no search if one of its ends has a single value left: the pass over the
inequalities takes that value from the other end and drops the inequality. A conjunction in
which every inequality has such an end, because a variable is fixed or is equal to a fixed
one, is solved by the pass alone, and each variable takes the first value left for its class.

So a solution is recognized as the one that is found without following the run: it has to give
every variable the first value of its declaration, except for those that are equal to a
variable declared before them.
-/

namespace FiniteDomain

variable {scope : Scope} {xs : List Variable} {es : List Equation} {settings : Settings}
  {mode : Mode} {σ τ : Nat → Int}

theorem Mode.report_congr {vars : Array Variable} (mode : Mode)
    (h : ∀ i < vars.size, σ i = τ i) : mode.report vars σ = mode.report vars τ := by
  cases mode with
  | decide => rfl
  | witness =>
      rw [report, report, Assignment.ofValues, Assignment.ofValues]
      congr 1
      refine List.map_congr_left fun p hp => ?_
      have hlt := List.snd_lt_of_mem_zipIdx hp
      rw [Nat.add_zero, Array.length_toList] at hlt
      rw [h p.2 hlt]

namespace Network

variable {net mid : Network}

/-- The pass drops all inequalities if each of them has a pinned end. -/
theorem prune_of_pinned (hs : net.Sound) (hfits : net.Fits σ)
    (hends : ∀ i j, net.distinct.adjacent i j = true → net.Pinned i ∨ net.Pinned j) :
    ∃ out, net.prune.outcome = .ok (.passed out) ∧ Pruned net out ∧
      ∀ i j, out.distinct.adjacent i j = false := by
  have hreturns : Returns net.prune.outcome _ := prune_returns hs
  obtain ⟨phase, hprune, hends'⟩ := hreturns
  cases phase with
  | stuck out cause => exact absurd hfits (hends'.no_fit σ)
  | passed out =>
      obtain ⟨hpruned, hdropped⟩ := hends'
      refine ⟨out, hprune, hpruned, fun i j => ?_⟩
      rw [Bool.eq_false_iff]
      intro hij
      rcases hends i j (hpruned.adjacent_of_adjacent i j hij) with hi | hj
      · rw [hdropped i hi j] at hij
        cases hij
      · rw [hpruned.sound.sound_distinct.comm, hdropped j hj i] at hij
        cases hij

/-- The search ends at once, and every leader has the first value of its domain. -/
theorem search_of_pinned (h : net.Searchable) (hσ : net.Solved σ)
    (hends : ∀ i j, net.distinct.adjacent i j = true → net.Pinned i ∨ net.Pinned j)
    (hfirst : ∀ i < net.size, net.leader i = i →
      settings.order.IsFirst (· ∈ net.domain i) (σ i)) (depth tried : Nat) :
    (net.search settings mode (depth + 1) tried).outcome =
      .ok (.sat (mode.report net.vars σ), tried) := by
  obtain ⟨hmodel, hleader⟩ := hσ
  have hfits : net.Fits σ := ⟨hmodel.mem, hmodel.distinct⟩
  obtain ⟨out, hprune, hpruned, hfree⟩ := prune_of_pinned h.sound hfits hends
  have hedgeless := hpruned.sound.sound_distinct.isEdgeless_iff.2 hfree
  have hkept := (hpruned.fits_iff σ).2 hfits
  obtain ⟨τ, hτ, hsearch⟩ :=
    search_greedy h hprune (critical?_of_isEdgeless hpruned.sound hedgeless) settings
  have hgreedy : out.Greedy settings.order σ := by
    refine ⟨fun i hi hlead => ?_, fun i hi => ?_⟩
    · rw [hpruned.leader_eq] at hlead
      obtain ⟨-, hleast⟩ := hfirst i (hpruned.size_eq ▸ hi) hlead
      refine ⟨⟨hkept.mem i hi, fun k _ hik => ?_⟩, fun v hv => ?_⟩
      · rw [hfree] at hik
        cases hik
      · exact hleast v (hpruned.mem_of_mem i v hv.1)
    · rw [hpruned.leader_eq, ← hleader i (hpruned.size_eq ▸ hi)]
  have heq : ∀ i < net.vars.size, τ i = σ i := fun i hi =>
    hτ.unique hgreedy hpruned.sound (hpruned.merged h.merged) (hpruned.size_eq.symm ▸ hi)
  rw [hsearch, mode.report_congr heq]

end Network

/-! ## Conjunctions -/

/-- Is the variable at place `i` fixed, or made equal to a fixed one? -/
def Settled (scope : Scope) (es : List Equation) (i : Nat) : Prop :=
  ∃ (k : Nat) (x : Variable), scope.vars[k]? = some x ∧ x.value? ≠ none ∧
    (k = i ∨ ∃ e ∈ es, e.Joins scope true k i)

namespace Network.Imposed

variable {net : Network} {i k : Nat}

theorem connected_of_joins (h : Imposed scope es net) {e : Equation} (he : e ∈ es)
    (hjoins : e.Joins scope true k i) : net.equal.Connected k i := by
  by_cases hki : k = i
  · exact hki ▸ Graph.Connected.refl _ k
  · exact Graph.Connected.of_adjacent ((h.adjacent true k i).2 ⟨hki, e, he, hjoins⟩)

/-- Merging leaves the class of a settled variable one value. -/
theorem pinned_of_settled (h : Imposed scope es net) {mid : Network} (hc : Collapsed net mid)
    (hviable : mid.AllViable) (hi : i < net.size) (hsettled : Settled scope es i) :
    mid.Pinned (mid.leader i) := by
  obtain ⟨k, x, hk, hfixed, hki⟩ := hsettled
  obtain ⟨v, hv⟩ := Option.ne_none_iff_exists'.1 hfixed
  have hs := h.posed.sound
  have hconnected : net.equal.Connected k i := by
    rcases hki with rfl | ⟨e, he, hjoins⟩
    · exact Graph.Connected.refl _ k
    · exact h.connected_of_joins he hjoins
  have hlead : mid.leader i < mid.size :=
    hc.sound.leader_lt i ((size_congr hc.vars_eq).symm ▸ hi)
  have honly : ∀ w, w ∈ mid.domain (mid.leader i) → w = v := by
    intro w hw
    have hreach := (hc.connected_leader i).trans (hconnected.symm hs.sound_equal)
    have hw := (hc.mem_domain _ w).1 hw k hreach
    have hlt : k < net.size := h.size_eq ▸ (Array.getElem?_eq_some_iff.1 hk).1
    rw [h.mem_domain k hlt, mem_domain_ofVariables hk] at hw
    exact hw.1.2 v hv
  obtain ⟨u, hu⟩ := hviable _ hlead
  refine ⟨v, fun w => ⟨honly w, fun hw => ?_⟩⟩
  rw [hw, ← honly u hu]
  exact hu

end Network.Imposed

/--
A conjunction whose inequalities all have a settled end is solved without trying values. The
solution is the one that gives each variable its first value, or that of an earlier variable
which it is made equal to.
-/
theorem Clause.solveAll_of_settled (hd : scope.Declares xs) (hes : ∀ e ∈ es, e.Proper xs)
    (hσ : Solves scope es σ)
    (hends : ∀ e ∈ es, ∀ i j, e.Joins scope false i j → Settled scope es i ∨ Settled scope es j)
    (hfirst : ∀ i x, scope.vars[i]? = some x →
      (∃ k < i, ∃ e ∈ es, e.Joins scope true k i) ∨ settings.order.IsFirst x.Takes (σ i)) :
    (solveAll scope settings mode es).outcome = .ok (.sat (mode.report scope.vars σ)) := by
  obtain ⟨net, mid, himposed, hcollapsed, hsearchable, hmodel, hsolve⟩ := solveAll_search hd hes hσ
  have hs := himposed.posed.sound
  have hsolved := (hcollapsed.solved_iff hs).2 hmodel
  have hpinned : ∀ i j, mid.distinct.adjacent i j = true → mid.Pinned i ∨ mid.Pinned j := by
    intro i j hij
    obtain ⟨a, b, hab, rfl, rfl⟩ := (hcollapsed.contracts i j).1 hij
    obtain ⟨-, e, he, hjoins⟩ := (himposed.adjacent false a b).1 hab
    refine (hends e he a b hjoins).imp ?_ ?_
    · exact himposed.pinned_of_settled hcollapsed hsearchable.viable
        (hs.sound_distinct.lt_left hab)
    · exact himposed.pinned_of_settled hcollapsed hsearchable.viable
        (hs.sound_distinct.lt_right hab)
  have hleast : ∀ i < mid.size, mid.leader i = i →
      settings.order.IsFirst (· ∈ mid.domain i) (σ i) := by
    intro i hi hlead
    have hlt : i < scope.vars.size := by
      rwa [Network.size_congr hcollapsed.vars_eq, himposed.size_eq] at hi
    have hx : scope.vars[i]? = some scope.vars[i] := Array.getElem?_eq_getElem hlt
    rcases hfirst i _ hx with ⟨k, hki, e, he, hjoins⟩ | ⟨-, hleast⟩
    · -- An earlier variable of the class would be its leader.
      have hconnected := (himposed.connected_of_joins he hjoins).symm hs.sound_equal
      have hle := hcollapsed.leader_le i k hconnected
      omega
    · refine ⟨hsolved.1.mem i hi, fun v hv => hleast v ?_⟩
      have hv := (hcollapsed.mem_domain i v).1 hv i (Graph.Connected.refl _ i)
      rw [himposed.mem_domain i (himposed.size_eq ▸ hlt), Network.mem_domain_ofVariables hx] at hv
      exact hv.1
  have hvars : mid.vars = scope.vars := hcollapsed.vars_eq.trans himposed.posed.vars_eq
  rw [hsolve, Network.search_of_pinned hsearchable hsolved hpinned hleast, hvars]
  rfl

end FiniteDomain
