import FiniteDomain.Proofs.CollapseExact
import FiniteDomain.Proofs.ImposeExact
import Mathlib

/-!
# Collapsing takes the quotient by the equalities

Whatever equations were imposed on a network, and in whatever order, collapsing it
either gets stuck, and then the network has no model, or takes the quotient by its
equalities: every component is spoken for by its first variable, shares one domain,
and has handed its inequalities to that variable. Nothing in this description depends
on the order in which classes are merged or edges are moved.

A domain may have run empty before the equalities are merged. Collapsing does not mind:
the quotient is then one without models.
-/

namespace FiniteDomain

namespace Network

variable {base net net' : Network} {vars : Array Variable} {i j : Nat} {v : Int} {equal : Bool}

/-! ## Networks that equations were imposed on -/

/-- Is this what is left of the network of some variables after equations were imposed, one at
a time, none of which was refused? -/
inductive Built (vars : Array Variable) : Network → Prop where
  | start : Built vars (ofVariables vars)
  | restrict {net net' : Network} {i : Nat} {v : Int} {equal : Bool}
      (h : Built vars net) (hstep : net.restrict i v equal = .ok net') : Built vars net'
  | relate {net net' : Network} {i j : Nat} {equal : Bool}
      (h : Built vars net) (hstep : net.relate i j equal = .ok net') : Built vars net'

theorem lt_of_restrict (h : net.restrict i v equal = .ok net') : i < net.size := by
  by_contra hi
  rw [restrict, requireVariable, if_neg hi] at h
  cases h

theorem lt_of_relate (h : net.relate i j equal = .ok net') : i < net.size ∧ j < net.size := by
  rw [relate] at h
  refine ⟨?_, ?_⟩
  · by_contra hi
    rw [requireVariable, if_neg hi] at h
    cases h
  · by_contra hj
    cases hi : net.requireVariable i with
    | error fault =>
        rw [hi] at h
        cases h
    | ok u =>
        rw [hi, requireVariable, if_neg hj] at h
        cases h

/-- Only an equality may relate a variable to itself. -/
theorem equal_of_relate_self (h : net.relate i i equal = .ok net') : equal = true := by
  by_contra hne
  rw [Bool.not_eq_true] at hne
  have hi := (lt_of_relate h).1
  rw [relate, requireVariable_of_lt hi, hne] at h
  simp [bind, Except.bind] at h

/-- Imposing equations keeps the shape in which classes can be merged. -/
theorem Built.posed (h : Built vars net) : Posed ⟨vars⟩ net := by
  induction h with
  | start => exact posed_ofVariables ⟨vars⟩
  | restrict _ hstep ih =>
      exact ((restrict_returns ih (lt_of_restrict hstep) _ _).of_eq_ok hstep).1
  | relate _ hstep ih =>
      obtain ⟨hi, hj⟩ := lt_of_relate hstep
      -- A variable is only ever related to itself by an equality, or the step was refused.
      refine ((relate_returns ih hi hj fun hij => ?_).of_eq_ok hstep).1
      subst hij
      exact equal_of_relate_self hstep

/-! ## The quotient -/

/-- Is `net` the quotient of `base` by the equalities of `base`? -/
structure IsQuotient (base net : Network) : Prop where
  vars_eq : net.vars = base.vars
  isEdgeless_equal : net.equal.isEdgeless = true
  not_equal : ∀ i j, net.equal.adjacent i j = false
  /-- A component is spoken for by its first variable. -/
  connected_leader : ∀ i, base.equal.Connected i (net.leader i)
  leader_le : ∀ i j, base.equal.Connected i j → net.leader i ≤ j
  /-- A variable may take what its whole component could take. -/
  normal : ∀ i, (net.domain i).Normal
  mem_domain : ∀ i v, v ∈ net.domain i ↔ ∀ j, base.equal.Connected i j → v ∈ base.domain j
  /-- The inequalities are the old ones, moved to the leaders. -/
  adjacent_iff : ∀ a b, net.distinct.adjacent a b = true ↔
    ∃ i j, base.distinct.adjacent i j = true ∧ net.leader i = a ∧ net.leader j = b
  /-- The old models are the new ones that do not vary within a component. -/
  model_iff : ∀ σ, base.Model σ ↔
    net.Model σ ∧ ∀ i j, base.equal.Connected i j → σ i = σ j

theorem Collapsed.isQuotient (hs : base.Sound) (h : Collapsed base net) : IsQuotient base net where
  vars_eq := h.vars_eq
  isEdgeless_equal := h.sound.sound_equal.isEdgeless_iff.2 h.not_equal
  not_equal := h.not_equal
  connected_leader i := (h.connected_leader i).symm hs.sound_equal
  leader_le := h.leader_le
  normal := h.sound.normal
  mem_domain := h.mem_domain
  adjacent_iff := h.contracts
  model_iff σ := by
    rw [← h.solved_iff hs]
    refine ⟨?_, ?_⟩
    · intro hsolved
      have hm := (h.solved_iff hs).1 hsolved
      exact ⟨hsolved.1, fun i j hc => hm.eq_of_connected hc⟩
    · intro hm
      obtain ⟨hm, hconst⟩ := hm
      exact ⟨hm, fun i _ => (hconst _ _ (h.connected_leader i)).symm⟩

/--
However a network came about, collapsing it is not refused. If it gets stuck the
network has no model; otherwise it leaves the quotient by the equalities, and with it
exactly the models of the network.
-/
theorem collapse_isQuotient (h : Built vars net) :
    ∃ phase, net.collapse.outcome = .ok phase ∧
      phase.Ends (IsQuotient net) (fun _ => ∀ σ, ¬net.Model σ) := by
  have hposed := h.posed
  obtain ⟨phase, houtcome, hends⟩ := collapse_returns hposed.sound hposed.leader_eq
  refine ⟨phase, houtcome, hends.mono ?_ ?_⟩
  · exact fun net' hcollapsed => hcollapsed.isQuotient hposed.sound
  · exact fun cause hstuck σ => hstuck.no_model hposed.sound

/-- Two chained equalities, a value at the far end of the chain, and an inequality that hangs
on to it. -/
def chain : Network :=
  let start := ofVariables #[.ofWidth "a" 2 Nat.two_pos, .ofWidth "b" 2 Nat.two_pos,
    .ofWidth "c" 2 Nat.two_pos, .ofWidth "d" 2 Nat.two_pos]
  let joined := { start with equal := (start.equal.link 0 1).link 2 1 }
  let valued := joined.setDomain 2 ((joined.domain 2).intersectInterval (.point 3))
  { valued with distinct := valued.distinct.link 3 2 }

theorem built_chain : Built chain.vars chain := by
  have hfirst := @Built.relate chain.vars _ _ 0 1 true .start rfl
  have hsecond := @Built.relate _ _ _ 2 1 true hfirst rfl
  have hthird := @Built.restrict _ _ _ 2 3 true hsecond rfl
  exact @Built.relate _ _ _ 3 2 false hthird rfl

/-- The chain collapses into its first variable, which takes over the value and the
inequality. -/
theorem isQuotient_chain : ∃ net, chain.collapse.outcome = .ok (.passed net) ∧
    IsQuotient chain net ∧ net.leader 2 = 0 ∧ net.distinct.adjacent 0 3 = true := by
  have hpassed : (match chain.collapse.outcome with
      | .ok (.passed net) => net.leader 2 == 0 && net.distinct.adjacent 0 3
      | _ => false) = true := by
    decide +kernel
  obtain ⟨phase, houtcome, hends⟩ := collapse_isQuotient built_chain
  rw [houtcome] at hpassed
  cases phase with
  | stuck net cause => cases hpassed
  | passed net =>
      simp only [Bool.and_eq_true, beq_iff_eq] at hpassed
      exact ⟨net, houtcome, hends, hpassed⟩

end Network

end FiniteDomain
