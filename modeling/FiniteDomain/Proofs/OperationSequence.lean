import FiniteDomain.Proofs.EqualityQuotient
import FiniteDomain.Proofs.ImposedNetwork
import FiniteDomain.Proofs.PhaseExits
import Mathlib

/-!
# Networks keep their form, whatever is done to them

The phases of solving are meant to follow each other, but nothing enforces it. A caller may
mix them with equations and fixed values in any order, and may go on with a network that a
phase left behind when it got stuck. This file says what can be relied on then: domains
stay in normal form, graphs stay undirected and loopless with counts that are right, and a
leader does not come after its variable. Values are only ever lost, except by fixing a
variable, which may give it any value.

The graphs count their edges by the handshake equation. It is put here into the form in
which a reader would count: each pair of neighbours once.
-/

namespace FiniteDomain

namespace Graph

variable {g : Graph} {n : Nat}

/-- Is this an undirected and loopless graph on `n` vertices, and are its cached numbers the true
ones? -/
structure Faithful (g : Graph) (n : Nat) : Prop where
  order_eq : g.order = n
  lt_of_adjacent : ∀ a b, g.adjacent a b = true → a < n ∧ b < n
  symm : ∀ a b, g.adjacent a b = true → g.adjacent b a = true
  irrefl : ∀ a, g.adjacent a a = false
  degree_eq : ∀ a, g.degree a = ((Finset.range n).filter fun b => g.adjacent a b = true).card
  edgeCount_eq : g.edgeCount = ((Finset.range n ×ˢ Finset.range n).filter fun e =>
    e.1 < e.2 ∧ g.adjacent e.1 e.2 = true).card

/-- The degrees count every edge from both of its ends. -/
theorem Sound.edgeCount_eq (hg : g.Sound n) : g.edgeCount =
    ((Finset.range n ×ˢ Finset.range n).filter fun e =>
      e.1 < e.2 ∧ g.adjacent e.1 e.2 = true).card := by
  let up : Nat → Nat → Nat := fun a b => if a < b ∧ g.adjacent a b = true then 1 else 0
  have hends : ∀ a b, (if g.adjacent a b = true then 1 else 0) = up a b + up b a := by
    intro a b
    simp only [up, hg.comm b a]
    rcases Nat.lt_trichotomy a b with hlt | rfl | hgt
    · simp [hlt, hlt.not_gt]
    · simp [hg.irrefl]
    · simp [hgt, hgt.not_gt]
  have hsum : ∑ a ∈ Finset.range n, ∑ b ∈ Finset.range n, (up a b + up b a) =
      2 * g.edgeCount := by
    rw [← hg.handshake]
    refine Finset.sum_congr rfl fun a _ => ?_
    rw [← hg.sum_adjacent]
    exact Finset.sum_congr rfl fun b _ => (hends a b).symm
  have hswap : ∑ a ∈ Finset.range n, ∑ b ∈ Finset.range n, up b a =
      ∑ a ∈ Finset.range n, ∑ b ∈ Finset.range n, up a b := Finset.sum_comm
  simp only [Finset.sum_add_distrib] at hsum
  rw [Finset.card_filter, Finset.sum_product]
  show _ = ∑ a ∈ Finset.range n, ∑ b ∈ Finset.range n, up a b
  omega

theorem Sound.faithful (hg : g.Sound n) : g.Faithful n where
  order_eq := hg.order_eq
  lt_of_adjacent _ _ hab := ⟨hg.lt_left hab, hg.lt_right hab⟩
  symm := hg.symm
  irrefl := hg.irrefl
  degree_eq := hg.degree_eq
  edgeCount_eq := hg.edgeCount_eq

end Graph

namespace Network

variable {net net' : Network} {i j : Nat} {v : Int} {equal : Bool}

/-! ## Operations -/

/-- What can be done to a network. To `check` it or to `branch` is only to look at it, for a
variable without values or for a critical one. -/
inductive Operation where
  | restrict (i : Nat) (v : Int) (equal : Bool)
  | relate (i j : Nat) (equal : Bool)
  | fix (i : Nat) (v : Int)
  | check
  | collapse
  | prune
  | branch
  | witness (order : ValueOrder)

/-- The network that an operation leaves behind. It is left behind by a phase that got stuck
as well; nothing is left if the operation is refused. -/
def perform (net : Network) : Operation → Except Fault Network
  | .restrict i v equal => net.restrict i v equal
  | .relate i j equal => net.relate i j equal
  | .fix i v => net.fix i v
  | .check => .ok net.check.network
  | .collapse => net.collapse.outcome.map Phase.network
  | .prune => net.prune.outcome.map Phase.network
  | .branch => .ok net
  | .witness order => (net.witness order).outcome.map Prod.snd

/-- Performs one operation after the other, none of which may be refused. -/
def performAll (net : Network) (ops : List Operation) : Except Fault Network :=
  ops.foldlM perform net

/-- What can be relied on at any time. -/
structure Invariant (net : Network) : Prop where
  normal : ∀ i, (net.domain i).Normal
  equal : net.equal.Faithful net.size
  distinct : net.distinct.Faithful net.size
  leader_le : ∀ i, net.leader i ≤ i

/-! ## One operation -/

theorem restrict_steady (hs : net.Sound) (h : net.restrict i v equal = .ok net') :
    Steady net net' := by
  rw [restrict_eq (lt_of_restrict h)] at h
  cases h
  refine Steady.setDomain hs ?_ fun w hw => (mem_restricted.1 hw).1
  split
  · exact (hs.normal i).intersectInterval _
  · exact (hs.normal i).excludeInterval _

theorem steady_join (hs : net.Sound) (hi : i < net.size) (hj : j < net.size) (hij : i ≠ j) :
    Steady net (net.join i j equal) := by
  cases equal with
  | false => exact Steady.withDistinct hs (hs.sound_distinct.link hi hj hij)
  | true =>
      have hlink := hs.sound_equal.link hi hj hij
      refine ⟨?_, rfl, id, fun _ _ => id⟩
      exact ⟨hs.size_domains, hs.size_leaders, hs.normal, hlink, hs.sound_distinct, hs.leader_lt⟩

theorem relate_steady (hs : net.Sound) (h : net.relate i j equal = .ok net') :
    Steady net net' := by
  obtain ⟨hi, hj⟩ := lt_of_relate h
  by_cases hij : i = j
  · subst hij
    rw [equal_of_relate_self h, relate_self hi] at h
    cases h
    exact Steady.refl hs
  · rw [relate_eq_join hi hj hij] at h
    cases h
    exact steady_join hs hi hj hij

theorem network_check (net : Network) : net.check.network = net := by
  unfold check
  split <;> rfl

/-- Fixing a variable takes no notice of what it had left, and touches nothing else. -/
theorem fix_eq_ok (h : net.fix i v = .ok net') : net' = net.pin i v := by
  rw [fix] at h
  cases hi : net.requireVariable i with
  | error fault =>
      rw [hi] at h
      cases h
  | ok u =>
      rw [hi] at h
      cases h
      rfl

theorem perform_steady (hs : net.Sound) {op : Operation} (hop : ∀ i v, op ≠ .fix i v)
    (h : net.perform op = .ok net') : Steady net net' := by
  cases op with
  | restrict i v equal => exact restrict_steady hs h
  | relate i j equal => exact relate_steady hs h
  | fix i v => exact absurd rfl (hop i v)
  | check =>
      cases h
      rw [network_check]
      exact Steady.refl hs
  | collapse =>
      obtain ⟨phase, hphase, hsteady⟩ := collapse_steady hs
      rw [perform, hphase] at h
      cases h
      exact hsteady
  | prune =>
      obtain ⟨phase, hphase, hsteady⟩ := prune_steady hs
      rw [perform, hphase] at h
      cases h
      exact hsteady
  | branch =>
      cases h
      exact Steady.refl hs
  | witness order =>
      cases hwitness : (net.witness order).outcome with
      | error fault =>
          rw [perform, hwitness] at h
          cases h
      | ok r =>
          rw [perform, hwitness] at h
          cases h
          exact witness_steady hs hwitness

theorem perform_sound (hs : net.Sound) (hle : ∀ i, net.leader i ≤ i) {op : Operation}
    (h : net.perform op = .ok net') :
    net'.Sound ∧ (∀ i, net'.leader i ≤ i) ∧ net'.vars = net.vars := by
  by_cases hop : ∀ i v, op ≠ .fix i v
  · have hsteady := perform_steady hs hop h
    exact ⟨hsteady.sound, hsteady.leader_le hle, hsteady.vars_eq⟩
  · push Not at hop
    obtain ⟨i, v, rfl⟩ := hop
    rw [fix_eq_ok h]
    exact ⟨hs.setDomain i (Domain.normal_singleton v), hle, rfl⟩

/-- A phase may get stuck, but it is not refused. -/
theorem exists_perform_phase (hs : net.Sound) :
    ∀ op ∈ [Operation.check, .collapse, .prune, .branch], ∃ net', net.perform op = .ok net' := by
  obtain ⟨collapsed, hcollapsed, -⟩ := collapse_steady hs
  obtain ⟨pruned, hpruned, -⟩ := prune_steady hs
  simp [perform, hcollapsed, hpruned, Except.map]

/-! ## Any sequence of operations -/

theorem performAll_sound {ops : List Operation} :
    ∀ {net : Network}, net.Sound → (∀ i, net.leader i ≤ i) → net.performAll ops = .ok net' →
      net'.Sound ∧ (∀ i, net'.leader i ≤ i) ∧ net'.vars = net.vars := by
  induction ops with
  | nil =>
      intro net hs hle h
      cases h
      exact ⟨hs, hle, rfl⟩
  | cons op ops ih =>
      intro net hs hle h
      rw [performAll, List.foldlM_cons] at h
      cases hop : net.perform op with
      | error fault =>
          rw [hop] at h
          cases h
      | ok mid =>
          rw [hop] at h
          obtain ⟨hs', hle', hvars⟩ := perform_sound hs hle hop
          obtain ⟨hend, hend', hvars'⟩ := ih hs' hle' h
          exact ⟨hend, hend', hvars'.trans hvars⟩

theorem Sound.invariant (hs : net.Sound) (hle : ∀ i, net.leader i ≤ i) : net.Invariant where
  normal := hs.normal
  equal := hs.sound_equal.faithful
  distinct := hs.sound_distinct.faithful
  leader_le := hle

/--
After any operations in any order, phases that got stuck among them, a network is in
form. No phase is refused then, and whatever is done next takes no value back that is
gone, unless it fixes a variable.
-/
theorem performAll_invariant {vars : Array Variable} {ops : List Operation}
    (h : (ofVariables vars).performAll ops = .ok net) :
    net.vars = vars ∧ net.Invariant ∧
    (∀ op ∈ [Operation.check, .collapse, .prune, .branch], ∃ net', net.perform op = .ok net') ∧
    ∀ op net', net.perform op = .ok net' → (∀ i v, op ≠ .fix i v) →
      ∀ i v, v ∈ net'.domain i → v ∈ net.domain i := by
  have hstart : ∀ i, (ofVariables vars).leader i ≤ i := fun i => (leader_ofVariables vars i).le
  obtain ⟨hs, hle, hvars⟩ := performAll_sound (sound_ofVariables vars) hstart h
  refine ⟨hvars, hs.invariant hle, exists_perform_phase hs, fun op net' hop hfix => ?_⟩
  exact (perform_steady hs hfix hop).mem_of_mem

def fourBits : Array Variable :=
  #[.ofWidth "a" 1 Nat.one_pos, .ofWidth "b" 1 Nat.one_pos, .ofWidth "c" 1 Nat.one_pos,
    .ofWidth "d" 1 Nat.one_pos]

/-- The second class cannot be merged, first for an inequality inside it and then for the values
that deciding inequalities has left it. Fixing its variables mends it. -/
def mended : List Operation :=
  [.relate 1 0 true, .relate 2 3 true, .relate 1 2 false, .relate 2 3 false, .collapse, .fix 2 0,
    .prune, .collapse, .fix 2 0, .fix 3 0, .collapse, .branch, .check]

/-- The conflict at which collapsing gets stuck after the first so many operations. -/
def conflictAfter? (ops : List Operation) (count : Nat) : Option Conflict :=
  (((ofVariables fourBits).performAll (ops.take count)).bind
    (·.collapse.outcome)).toOption.bind Phase.cause?

theorem performAll_invariant_mended :
    conflictAfter? mended 4 = some (.contradiction "c" "d") ∧
    conflictAfter? mended 7 = some (.equality "c" "d") ∧
    ∃ net net', (ofVariables fourBits).performAll mended = .ok net ∧ net.Invariant ∧
      net.perform (.witness .ascending) = .ok net' ∧
      ∀ i v, v ∈ net'.domain i → v ∈ net.domain i := by
  refine ⟨by decide +kernel, by decide +kernel, ?_⟩
  have hok : (((ofVariables fourBits).performAll mended).bind
      (·.perform (.witness .ascending))).isOk = true := by
    decide +kernel
  cases hrun : (ofVariables fourBits).performAll mended with
  | error fault =>
      rw [hrun] at hok
      cases hok
  | ok net =>
      obtain ⟨-, hinvariant, -, hsub⟩ := performAll_invariant hrun
      rw [hrun] at hok
      change (net.perform (.witness .ascending)).isOk = true at hok
      cases hwitness : net.perform (.witness .ascending) with
      | error fault =>
          rw [hwitness] at hok
          cases hok
      | ok net' =>
          exact ⟨net, net', rfl, hinvariant, hwitness, hsub _ net' hwitness (by simp)⟩

end Network

end FiniteDomain
