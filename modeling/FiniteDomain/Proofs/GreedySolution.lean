import FiniteDomain.Proofs.SearchVerdict
import Mathlib

/-!
# The greedy solution

An accepted network is solved without a search: one leader after the other takes the first
value that its earlier neighbours have left, and everything else follows its leader. This
determines the solution. `Greedy` says what it is without the walk that finds it, so a
solution is known as soon as it is recognized.
-/

namespace FiniteDomain

variable {order : ValueOrder} {p q : Int → Prop} {v w : Int}

theorem ValueOrder.IsFirst.unique (hv : order.IsFirst p v) (hw : order.IsFirst p w) : v = w := by
  have hvw := hv.2 w hw.1
  have hwv := hw.2 v hv.1
  cases order <;> simp only [ValueOrder.Before] at hvw hwv <;> omega

theorem ValueOrder.IsFirst.congr (hv : order.IsFirst p v) (hiff : ∀ u, p u ↔ q u) :
    order.IsFirst q v :=
  ⟨(hiff v).1 hv.1, fun u hu => hv.2 u ((hiff u).2 hu)⟩

namespace Network

variable {net : Network} {σ τ : Nat → Int} {i : Nat} {settings : Settings}

/-- Does every leader have the first value that its earlier neighbours have left, and every other
variable the value of its leader? -/
structure Greedy (net : Network) (order : ValueOrder) (σ : Nat → Int) : Prop where
  isFirst : ∀ i < net.size, net.leader i = i → order.IsFirst (fun v => v ∈ net.domain i ∧
    ∀ k < i, net.distinct.adjacent i k = true → σ k ≠ v) (σ i)
  leader_eq : ∀ i < net.size, σ i = σ (net.leader i)

namespace Greedy

/-- A variable that need not differ from any other has the first value of its domain. -/
theorem isFirst_domain (h : net.Greedy order σ) (hi : i < net.size) (hlead : net.leader i = i)
    (hfree : ∀ k, net.distinct.adjacent i k = false) : order.IsFirst (· ∈ net.domain i) (σ i) :=
  (h.isFirst i hi hlead).congr fun v => by simp [hfree]

/-- There is one greedy solution, since what comes first does not depend on what comes later. -/
theorem unique (h : net.Greedy order σ) (h' : net.Greedy order τ) (hs : net.Sound)
    (hm : net.Merged) (hi : i < net.size) : σ i = τ i := by
  have hleaders : ∀ i < net.size, net.leader i = i → σ i = τ i := by
    intro i
    induction i using Nat.strong_induction_on with
    | h i ih =>
      intro hi hlead
      refine (h.isFirst i hi hlead).unique ((h'.isFirst i hi hlead).congr fun v => ?_)
      refine and_congr_right fun _ => forall_congr' fun k => forall_congr' fun hk =>
        forall_congr' fun hik => ?_
      -- An earlier neighbour is a leader as well.
      have hlead := hm.leader_of_distinct k i (hs.sound_distinct.symm _ _ hik)
      rw [ih k hk (hk.trans hi) hlead]
  rw [h.leader_eq i hi, h'.leader_eq i hi]
  exact hleaders _ (hs.leader_lt i hi) (hm.leader_leader i)

end Greedy

/-- A network without critical variables is accepted with its greedy solution. -/
theorem accept_greedy (h : net.Searchable) (hc : net.critical? = none) (settings : Settings) :
    ∃ σ, net.Greedy settings.order σ ∧
      ∀ mode, (net.accept settings mode).outcome = .ok (.sat (mode.report net.vars σ)) := by
  have hs := h.sound
  have hm := h.merged
  obtain ⟨values, settled, houtcome, hend⟩ :=
    witness_returns hs hm h.distinctNames (fun i hi => degree_lt_size hs h.viable hc hi)
      settings.order
  refine ⟨net.valueFor values, ⟨fun i hi => hend.isFirst_valueFor hs hm hi, fun i _ => ?_⟩, ?_⟩
  · exact (Picked.valueFor_leader hm values i).symm
  · intro mode
    cases mode with
    | decide => rfl
    | witness =>
        rw [accept, Traced.outcome_bind, houtcome]
        rfl

end Network

end FiniteDomain
