import FiniteDomain.Proofs.SearchVerdict
import Mathlib

/-!
# No value is tried where inequalities do not meet

If no two inequalities have a variable in common, a search decides them all in the one
pass that it begins with, and tries no value. So it needs no budget.

A critical variable has no more values than inequalities, and here that is one. Either it
had that value before the pass: then it was bound, and the pass has dropped its inequality.
Or it has lost values in the pass, and a pass takes values from a variable only when it
drops one of its inequalities, which was the only one. Either way it has no inequality
left, and a variable without inequalities is not looked at.
-/

namespace FiniteDomain

namespace Graph

variable {g h : Graph} {n a : Nat}

/-- Has every vertex at most one neighbour? -/
def IsMatching (g : Graph) : Prop :=
  ∀ a b c, g.adjacent a b = true → g.adjacent a c = true → b = c

theorem IsMatching.mono (hm : h.IsMatching)
    (hsub : ∀ a b, g.adjacent a b = true → h.adjacent a b = true) : g.IsMatching :=
  fun a b c hab hac => hm a b c (hsub a b hab) (hsub a c hac)

theorem IsMatching.degree_le (h : g.IsMatching) (hg : g.Sound n) (a : Nat) : g.degree a ≤ 1 := by
  rw [hg.degree_eq, Finset.card_le_one]
  intro b hb c hc
  exact h a b c (Finset.mem_filter.1 hb).2 (Finset.mem_filter.1 hc).2

end Graph

theorem refute_decided {cause : Conflict} :
    Returns (refute cause).outcome fun verdict => verdict.status ≠ .unknown :=
  ⟨.unsat cause, rfl, by simp [Verdict.status]⟩

namespace Network

variable {net mid net' : Network} {settings : Settings} {mode : Mode} {a b i x : Nat}
  {verdict : Verdict} {depth tried : Nat}

/-! ## What a pass takes for what it drops -/

/-- Has every variable kept its domain, or else lost an inequality? -/
def Paid (net net' : Network) : Prop :=
  ∀ i, net'.domain i = net.domain i ∨
    ∃ j, net.distinct.adjacent i j = true ∧ net'.distinct.adjacent i j = false

theorem Paid.refl (net : Network) : Paid net net := fun _ => Or.inl rfl

/-- What is paid once is paid for good, since a pass adds no inequality. -/
theorem Paid.trans (h : Paid net mid) (h' : Paid mid net') (hp : Pruned net mid)
    (hp' : Pruned mid net') : Paid net net' := by
  intro i
  rcases h i with hkept | ⟨j, hold, hgone⟩
  · rcases h' i with hkept' | ⟨j, hold, hgone⟩
    · exact Or.inl (hkept'.trans hkept)
    · exact Or.inr ⟨j, hp.adjacent_of_adjacent i j hold, hgone⟩
  · refine Or.inr ⟨j, hold, ?_⟩
    rw [Bool.eq_false_iff] at hgone ⊢
    exact fun hback => hgone (hp'.adjacent_of_adjacent i j hback)

section Step

variable (hs : net.Sound) (hab : net.distinct.adjacent a b = true)

include hs hab

theorem paid_concede {common : Domain} {loser : Nat} (hloser : loser = a ∨ loser = b) :
    Paid net ((net.setDomain loser ((net.domain loser).exclude common)).relax a b) := by
  intro i
  by_cases hi : i = loser
  · -- The loser pays with the inequality that is being decided.
    have hdropped : ∀ c d, (c = a ∧ d = b) ∨ (c = b ∧ d = a) →
        (net.relax a b).distinct.adjacent c d = false := by
      intro c d hcd
      rw [Bool.eq_false_iff]
      exact fun h => ((adjacent_relax hs hab c d).1 h).2 hcd
    subst hi
    rcases hloser with rfl | rfl
    · exact Or.inr ⟨b, hab, hdropped _ _ (Or.inl ⟨rfl, rfl⟩)⟩
    · exact Or.inr ⟨a, hs.sound_distinct.symm _ _ hab, hdropped _ _ (Or.inr ⟨rfl, rfl⟩)⟩
  · exact Or.inl (domain_setDomain_ne net _ hi)

theorem paid_decideInequality
    (h : (net.decideInequality a b).outcome = .ok (.passed mid)) : Paid net mid := by
  unfold decideInequality at h
  simp only [] at h
  split at h
  · split at h
    · split at h
      · cases h
      · cases h
        exact paid_concede hs hab (Or.inr rfl)
      · cases h
        exact paid_concede hs hab (Or.inl rfl)
      · cases h
        exact Paid.refl net
    · cases h
      exact Paid.refl net
  · cases h
    exact fun i => Or.inl rfl

end Step

theorem paid_decideInequalities {es : List (Nat × Nat)} :
    ∀ {net : Network}, net.Sound → es.Nodup →
      (∀ e ∈ es, net.distinct.adjacent e.1 e.2 = true ∧ e.1 < e.2) →
      (decideInequalities es net).outcome = .ok (.passed net') → Paid net net' := by
  induction es with
  | nil =>
      intro net _ _ _ h
      cases h
      exact Paid.refl net'
  | cons e es ih =>
      intro net hs hnodup hes h
      obtain ⟨a, b⟩ := e
      obtain ⟨hfresh, hnodup⟩ := List.nodup_cons.1 hnodup
      obtain ⟨hab, hlt⟩ := hes (a, b) List.mem_cons_self
      obtain ⟨phase, hphase, h⟩ := Traced.outcome_bind_eq_ok.1 h
      cases phase with
      | stuck mid cause => cases h
      | passed mid =>
          have hdecided : Decided a b net mid :=
            (decideInequality_returns hs hab hlt).of_eq_ok hphase
          have hrest := hdecided.rest hlt hfresh fun e he => hes e (List.mem_cons_of_mem _ he)
          have hpruned := hdecided.pruned
          have hpass : Pruned mid net' :=
            ((decideInequalities_returns hpruned.sound hnodup hrest).of_eq_ok h).1
          exact (paid_decideInequality hs hab hphase).trans
            (ih hpruned.sound hnodup hrest h) hpruned hpass

/-! ## Searching -/

/-- One value at most, and one that is left, make a variable bound to it. -/
theorem pinned_of_size_le_one {v : Int} (hsize : (net.domain i).size ≤ 1)
    (hv : v ∈ net.domain i) : net.Pinned i := by
  refine ⟨v, fun w => ⟨fun hw => ?_, fun hw => hw ▸ hv⟩⟩
  have hlength := Domain.length_values (net.domain i) .ascending
  rw [← Domain.mem_values] at hv hw
  generalize (net.domain i).values .ascending = vs at hlength hv hw
  rw [← hlength] at hsize
  cases vs with
  | nil => cases hv
  | cons u us =>
      have hnil : us.length = 0 := by
        rw [List.length_cons] at hsize
        omega
      rw [List.eq_nil_of_length_eq_zero hnil] at hv hw
      rw [List.mem_singleton.1 hv, List.mem_singleton.1 hw]

/-- After a pass over inequalities that do not meet, no variable is critical. -/
theorem critical?_of_isMatching (h : net.Searchable) (hm : net.distinct.IsMatching)
    (hprune : net.prune.outcome = .ok (.passed mid)) : mid.critical? = none := by
  obtain ⟨hpruned, hdropped⟩ := (prune_returns h.sound).of_eq_ok hprune
  have hmid := h.pruned hpruned
  have hg := hmid.sound.sound_distinct
  have hpaid : Paid net mid := paid_decideInequalities h.sound (Graph.nodup_edges net.distinct)
    (fun e he => h.sound.sound_distinct.mem_edges.1 he) hprune
  rw [critical?_eq_none_iff]
  intro x hx
  rw [Bool.eq_false_iff]
  intro hcritical
  rw [isCritical, decide_eq_true_eq] at hcritical
  obtain ⟨y, hxy⟩ := hg.mem_vertices.1 hx
  have hdegree := (hm.mono hpruned.adjacent_of_adjacent).degree_le hg x
  rcases hpaid x with hkept | ⟨z, hold, hgone⟩
  · obtain ⟨v, hv⟩ := hmid.viable x (hg.lt_left hxy)
    rw [hkept] at hcritical hv
    have hpinned : net.Pinned x := pinned_of_size_le_one (hcritical.trans hdegree) hv
    rw [hdropped x hpinned y] at hxy
    cases hxy
  · have hyz : z = y := hm x z y hold (hpruned.adjacent_of_adjacent x y hxy)
    rw [← hyz, hgone] at hxy
    cases hxy

theorem accept_decided (h : net.Searchable) (hc : net.critical? = none) :
    Returns (net.accept settings mode).outcome fun verdict =>
      verdict.status ≠ .unknown := by
  have hreturns : Returns (net.accept settings mode).outcome _ := accept_returns h hc
  obtain ⟨verdict, houtcome, -⟩ := hreturns
  refine ⟨verdict, houtcome, ?_⟩
  cases mode with
  | decide =>
      cases houtcome
      simp [Verdict.status]
  | witness =>
      obtain ⟨r, -, hr⟩ := Traced.outcome_bind_eq_ok.1 houtcome
      cases hr
      simp [Verdict.status]

/-- A search whose inequalities do not meet comes to an end whatever the budget. -/
theorem search_of_isMatching (h : net.Searchable) (hm : net.distinct.IsMatching) :
    Returns (search settings mode (depth + 1) net tried).outcome fun r =>
      r.1.status ≠ .unknown := by
  rw [search]
  split
  · next hedgeless =>
      have hcritical := critical?_of_isEdgeless h.sound hedgeless
      exact Traced.returns_pair (accept_decided h hcritical) tried
  · obtain ⟨phase, hphase, hends⟩ := prune_returns h.sound
    refine Traced.returns_bind ⟨phase, hphase, rfl⟩ fun phase' heq => ?_
    subst heq
    cases phase with
    | stuck mid cause => exact Traced.returns_pair refute_decided tried
    | passed mid =>
        have hcritical := critical?_of_isMatching h hm hphase
        simp only [hcritical]
        have hmid := h.pruned hends.1
        exact Traced.returns_note (Traced.returns_pair (accept_decided hmid hcritical) tried)

end Network

end FiniteDomain
