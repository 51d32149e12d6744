import FiniteDomain.Proofs.Holding
import FiniteDomain.Proofs.NetworkModel
import FiniteDomain.Proofs.Returning
import FiniteDomain.Solve.Clause
import Mathlib

/-!
# Imposing equations is exact

Imposing an equation keeps those models of a network under which the equation holds.
So the models of the network of a conjunction, which is what imposing all equations
on the network of the variables leaves, are the solutions of the conjunction. The
loop looks at the left variable of an equation only; what it makes of an equation
that empties no domain is still exact, whatever the right variable has left.
-/

namespace FiniteDomain

namespace Network

variable {net net' : Network} {scope : Scope} {xs : List Variable} {e : Equation}
  {es : List Equation} {σ : Nat → Int} {i j : Nat} {equal : Bool} {v : Int}

theorem requireVariable_of_lt (hi : i < net.size) : net.requireVariable i = .ok () := if_pos hi

/-- The network of some variables before any classes are merged. -/
structure Posed (scope : Scope) (net : Network) : Prop where
  sound : net.Sound
  vars_eq : net.vars = scope.vars
  leader_eq : ∀ i, net.leader i = i

theorem posed_ofVariables (scope : Scope) : Posed scope (ofVariables scope.vars) where
  sound := sound_ofVariables scope.vars
  vars_eq := rfl
  leader_eq := leader_ofVariables scope.vars

theorem restrict_returns (h : Posed scope net) (hi : i < net.size) (v : Int) (equal : Bool) :
    Returns (net.restrict i v equal) fun net' => Posed scope net' ∧
      ∀ σ, net'.Model σ ↔ net.Model σ ∧ ((σ i == v) == equal) = true := by
  have hmem : ∀ w, w ∈ (if equal then (net.domain i).intersectInterval (.point v)
      else (net.domain i).excludeValue v) ↔ w ∈ net.domain i ∧ ((w == v) == equal) = true := by
    intro w
    cases equal with
    | true => simp [Domain.mem_intersectInterval, Interval.mem_point]
    | false => simp [Domain.mem_excludeValue]
  have hnormal : (if equal then (net.domain i).intersectInterval (.point v)
      else (net.domain i).excludeValue v).Normal := by
    split
    · exact (h.sound.normal i).intersectInterval _
    · exact (h.sound.normal i).excludeInterval _
  rw [restrict, requireVariable_of_lt hi]
  exact ⟨_, rfl, ⟨h.sound.setDomain i hnormal, h.vars_eq, h.leader_eq⟩,
    fun σ => model_setDomain h.sound hi hmem⟩

theorem link_iff {g : Graph} {r : Int → Int → Prop} (hg : g.Sound net.size) (hi : i < net.size)
    (hj : j < net.size) (hij : i ≠ j) (hr : ∀ {v w}, r v w → r w v) :
    (∀ a b, (g.link i j).adjacent a b = true → r (σ a) (σ b)) ↔
      (∀ a b, g.adjacent a b = true → r (σ a) (σ b)) ∧ r (σ i) (σ j) := by
  have hadj := fun a b => Graph.adjacent_link (c := a) (d := b) (hg.order_eq.symm ▸ hi)
    (hg.order_eq.symm ▸ hj) hij
  simp only [hadj]
  refine ⟨?_, ?_⟩
  · intro h
    exact ⟨fun a b hab => h a b (Or.inl hab), h i j (Or.inr (Or.inl ⟨rfl, rfl⟩))⟩
  · intro h a b hab
    rcases hab with hab | ⟨rfl, rfl⟩ | ⟨rfl, rfl⟩
    · exact h.1 a b hab
    · exact h.2
    · exact hr h.2

theorem relate_returns (h : Posed scope net) (hi : i < net.size) (hj : j < net.size)
    (hself : i = j → equal = true) :
    Returns (net.relate i j equal) fun net' => Posed scope net' ∧
      ∀ σ, net'.Model σ ↔ net.Model σ ∧ ((σ i == σ j) == equal) = true := by
  have hs := h.sound
  rw [relate, requireVariable_of_lt hi, requireVariable_of_lt hj]
  by_cases hij : i = j
  · subst hij
    rw [hself rfl]
    refine ⟨net, by simp [bind, Except.bind, pure, Except.pure], h, fun σ => ?_⟩
    simp
  · cases equal with
    | true =>
        refine ⟨{ net with equal := net.equal.link i j },
          by simp [bind, Except.bind, pure, Except.pure, hij], ?_, fun σ => ?_⟩
        · exact ⟨⟨hs.size_domains, hs.size_leaders, hs.normal, hs.sound_equal.link hi hj hij,
            hs.sound_distinct, hs.leader_lt⟩, h.vars_eq, h.leader_eq⟩
        · have hiff := link_iff (σ := σ) hs.sound_equal hi hj hij (r := fun v w => v = w) Eq.symm
          simp only [beq_true, beq_iff_eq]
          refine ⟨?_, ?_⟩
          · intro hm
            have := hiff.1 hm.equal
            exact ⟨⟨hm.mem, this.1, hm.distinct⟩, this.2⟩
          · intro hm
            exact ⟨hm.1.mem, hiff.2 ⟨hm.1.equal, hm.2⟩, hm.1.distinct⟩
    | false =>
        refine ⟨{ net with distinct := net.distinct.link i j },
          by simp [bind, Except.bind, pure, Except.pure, hij], ?_, fun σ => ?_⟩
        · exact ⟨hs.withDistinct (hs.sound_distinct.link hi hj hij), h.vars_eq, h.leader_eq⟩
        · have hiff := link_iff (σ := σ) hs.sound_distinct hi hj hij (r := fun v w => v ≠ w)
            Ne.symm
          simp only [beq_false, Bool.not_eq_true', beq_eq_false_iff_ne]
          refine ⟨?_, ?_⟩
          · intro hm
            have := hiff.1 hm.distinct
            exact ⟨⟨hm.mem, hm.equal, this.1⟩, this.2⟩
          · intro hm
            exact ⟨hm.1.mem, hm.1.equal, hiff.2 ⟨hm.1.distinct, hm.2⟩⟩

/-- A proper equation is never refused, and the models that remain satisfy it. -/
theorem impose_returns (hd : scope.Declares xs) (h : Posed scope net) (he : e.Proper xs) :
    Returns (net.impose scope e) fun r => r.1 < r.2.size ∧ Posed scope r.2 ∧
      ∀ σ, r.2.Model σ ↔ net.Model σ ∧ e.holds (.ofValues scope.vars σ) = .ok true := by
  have hfound : ∀ name ∈ e.names, ∃ i x, scope.lookup name = .ok i ∧ i < net.size ∧
      scope.vars[i]? = some x ∧ x.name = name ∧
      ∀ σ, (Assignment.ofValues scope.vars σ).get name = .ok (σ i) := by
    intro name hname
    obtain ⟨i, x, hlookup, hi, rfl⟩ := hd.lookup_eq (he.declared name hname)
    refine ⟨i, x, hlookup, ?_, hi, rfl, fun σ => ?_⟩
    · rw [size, h.vars_eq]
      exact (Array.getElem?_eq_some_iff.1 hi).1
    · exact Assignment.get_eq_ok (Assignment.get?_ofValues hd.distinctNames hi σ)
  have hsize : ∀ {net'}, Posed scope net' → net'.size = net.size := by
    intro net' h'
    exact size_congr (h'.vars_eq.trans h.vars_eq.symm)
  cases e with
  | value name v equal =>
      obtain ⟨i, x, hlookup, hi, -, -, hget⟩ := hfound name (by simp [Equation.names])
      obtain ⟨net', hnet', h', hmodel⟩ := restrict_returns h hi v equal
      refine ⟨(i, net'), ?_, (hsize h').symm ▸ hi, h', fun σ => ?_⟩
      · rw [impose, hlookup]
        simp only [bind, Except.bind, hnet']
        rfl
      · rw [hmodel, Equation.holds, hget]
        simp [bind, Except.bind, pure, Except.pure]
  | pair left right equal =>
      obtain ⟨i, x, hlookup, hi, hx, hname, hget⟩ := hfound left (by simp [Equation.names])
      obtain ⟨j, y, hlookup', hj, hy, hname', hget'⟩ := hfound right (by simp [Equation.names])
      have hself : i = j → equal = true := by
        intro hij
        rw [hij, hy] at hx
        injection hx with hyx
        by_contra hne
        rw [Bool.not_eq_true] at hne
        exact he.not_reflexive left (by rw [hne, ← hname', hyx, hname])
      obtain ⟨net', hnet', h', hmodel⟩ := relate_returns h hi hj hself
      refine ⟨(i, net'), ?_, (hsize h').symm ▸ hi, h', fun σ => ?_⟩
      · rw [impose, hlookup, hlookup']
        simp only [bind, Except.bind, hnet']
        rfl
      · rw [hmodel, Equation.holds, hget, hget']
        simp [bind, Except.bind, pure, Except.pure]

/-- Imposing proper equations is never refused. -/
theorem imposeAll_returns (hd : scope.Declares xs) (hes : ∀ e ∈ es, e.Proper xs) :
    ∀ {net : Network}, Posed scope net →
      Returns (imposeAll scope es net) fun phase => phase.Ends
        (fun net' => Posed scope net' ∧ ∀ σ, net'.Model σ ↔ net.Model σ ∧
          ∀ e ∈ es, e.holds (.ofValues scope.vars σ) = .ok true)
        (fun _ => ∀ σ, ¬(net.Model σ ∧ ∀ e ∈ es, e.holds (.ofValues scope.vars σ) = .ok true)) := by
  induction es with
  | nil =>
      intro net h
      exact Returns.ok ⟨h, fun σ => by simp⟩
  | cons e es ih =>
      intro net h
      rw [imposeAll]
      refine (impose_returns hd h (hes e List.mem_cons_self)).bind fun r hr => ?_
      obtain ⟨i, net'⟩ := r
      obtain ⟨hi, h', hmodel⟩ := hr
      simp only []
      split
      · refine (ih (fun e he => hes e (List.mem_cons_of_mem _ he)) h').mono fun phase hends =>
          hends.mono ?_ ?_
        · intro net'' hnet''
          refine ⟨hnet''.1, fun σ => ?_⟩
          rw [hnet''.2, hmodel, List.forall_mem_cons, and_assoc]
        · intro cause hnone σ hσ
          rw [List.forall_mem_cons] at hσ
          exact hnone σ ⟨(hmodel σ).2 ⟨hσ.1, hσ.2.1⟩, hσ.2.2⟩
      · next hviable =>
          refine Returns.ok fun σ hσ => ?_
          rw [List.forall_mem_cons] at hσ
          have hm := (hmodel σ).2 ⟨hσ.1, hσ.2.1⟩
          exact hviable (viable_iff.2 ⟨σ i, hm.mem i hi⟩)

/-- A network passes the check exactly if every variable has a value left. -/
theorem check_ends (hs : net.Sound) :
    net.check.Ends (fun net' => net' = net ∧ net.AllViable) (fun _ => ¬net.AllViable) := by
  rw [check, emptied?]
  cases hfind : net.domains.findIdx? Domain.isEmpty with
  | none =>
      refine ⟨rfl, fun i hi => ?_⟩
      have hi' : i < net.domains.size := by rwa [hs.size_domains]
      have hempty := Array.findIdx?_eq_none_iff.1 hfind _ (Array.getElem_mem hi')
      rw [Domain.isEmpty_eq_false_iff] at hempty
      simpa [domain, Array.getD_eq_getD_getElem?, hi'] using hempty
  | some i =>
      intro hviable
      obtain ⟨hi, hempty, -⟩ := Array.findIdx?_eq_some_iff_getElem.1 hfind
      obtain ⟨v, hmem⟩ := hviable i (hs.size_domains ▸ hi)
      rw [domain, Array.getD_eq_getD_getElem?, Array.getElem?_eq_getElem hi] at hmem
      exact Domain.isEmpty_iff.1 hempty _ hmem

theorem mem_domain_ofVariables {x : Variable} (hi : scope.vars[i]? = some x) :
    v ∈ (ofVariables scope.vars).domain i ↔ x.Takes v := by
  obtain ⟨hlt, rfl⟩ := Array.getElem?_eq_some_iff.1 hi
  rw [domain_ofVariables _ hlt, Domain.mem_ofVariable]
  rfl

/-- The models of the network in which nothing is known are the values the variables may take. -/
theorem model_ofVariables : (ofVariables scope.vars).Model σ ↔ scope.Takes σ := by
  refine ⟨?_, ?_⟩
  · intro hm i x hx
    exact (mem_domain_ofVariables hx).1 (hm.mem i (Array.getElem?_eq_some_iff.1 hx).1)
  · intro htakes
    refine ⟨fun i hi => ?_, fun i j hij => ?_, fun i j hij => ?_⟩
    · have hx : scope.vars[i]? = some scope.vars[i] := Array.getElem?_eq_getElem hi
      exact (mem_domain_ofVariables hx).2 (htakes i _ hx)
    · exact absurd hij (by simp [ofVariables, Graph.adjacent_edgeless])
    · exact absurd hij (by simp [ofVariables, Graph.adjacent_edgeless])

end Network

end FiniteDomain
