import FiniteDomain.Proofs.NetworkEmbedding
import Mathlib

/-!
# A search does not see variables without inequalities

A search looks at inequalities and at variables that have some. Variables put in between
have none, so the pass over the inequalities, the choice of the variable to branch on and
the count of tried values are those of the smaller network.

What the witness gives to the variables of the smaller network is its greedy solution. Read
at the moved places, the greedy solution of the larger network is one of the smaller network
as well, and there is only one.
-/

namespace FiniteDomain

open Traced (Mirrors)

variable {ρ : ℕ ↪o ℕ} {vars vars' : Array Variable} {settings : Settings} {mode : Mode}

namespace Network

variable {net net' : Network} {a b i x : Nat} {es : List (Nat × Nat)} {order : ValueOrder}
  {σ : Nat → Int}

namespace Embeds

/-! ## Deciding inequalities -/

section Edge

variable (h : Embeds ρ vars vars' net net') (ha : a < vars.size) (hb : b < vars.size)
  (hab : a ≠ b)

include h ha hb hab

theorem concede_mirrors {loser : Nat} (hloser : loser < vars.size) (common : Domain) :
    Mirrors (Phase.Embeds ρ vars vars') (net.concede a b loser common)
      (net'.concede (ρ a) (ρ b) (ρ loser) common) := by
  rw [concede, concede, h.domain_eq]
  refine Mirrors.note (Mirrors.of_pure (.passed ?_))
  exact (h.setDomain hloser ((h.sound.normal loser).exclude common)).relax ha hb hab

theorem decideInequality_mirrors :
    Mirrors (Phase.Embeds ρ vars vars') (net.decideInequality a b)
      (net'.decideInequality (ρ a) (ρ b)) := by
  have hconcede : ∀ {loser : Nat}, loser < vars.size → ∀ common, Mirrors _ _ _ :=
    fun hloser => h.concede_mirrors ha hb hab hloser
  rw [decideInequality, decideInequality]
  simp only [h.domain_eq, h.name_eq]
  cases (net.domain a).overlaps (net.domain b) with
  | false => exact Mirrors.note (Mirrors.of_pure (.passed (h.relax ha hb hab)))
  | true =>
      cases ((net.domain a).intersect (net.domain b)).isSingleton with
      | false => exact Mirrors.of_pure (.passed h)
      | true =>
          cases (net.domain a).isSingleton <;> cases (net.domain b).isSingleton
          · exact Mirrors.of_pure (.passed h)
          · exact hconcede ha _
          · exact hconcede hb _
          · exact Mirrors.of_pure (.stuck _)

end Edge

theorem decideInequalities_mirrors : ∀ {net net' : Network}, Embeds ρ vars vars' net net' →
    (∀ e ∈ es, e.1 < vars.size ∧ e.2 < vars.size ∧ e.1 ≠ e.2) →
    Mirrors (Phase.Embeds ρ vars vars') (decideInequalities es net)
      (decideInequalities (es.map fun e => (ρ e.1, ρ e.2)) net') := by
  induction es with
  | nil => exact fun h _ => Mirrors.of_pure (.passed h)
  | cons e es ih =>
      intro net net' h hes
      obtain ⟨a, b⟩ := e
      obtain ⟨⟨ha, hb, hab⟩, hes⟩ := List.forall_mem_cons.1 hes
      rw [List.map_cons, decideInequalities, decideInequalities]
      refine (h.decideInequality_mirrors ha hb hab).bind fun phase phase' _ _ hphase => ?_
      cases hphase with
      | passed h => exact ih h hes
      | stuck cause => exact Mirrors.of_pure (.stuck cause)

theorem prune_mirrors (h : Embeds ρ vars vars' net net') :
    Mirrors (Phase.Embeds ρ vars vars') net.prune net'.prune := by
  rw [prune, prune, h.edges_eq]
  refine h.decideInequalities_mirrors fun e he => ?_
  obtain ⟨hadj, hlt⟩ := h.sound_distinct.mem_edges.1 he
  exact ⟨h.sound_distinct.lt_left hadj, h.sound_distinct.lt_right hadj, hlt.ne⟩

/-! ## Branching -/

theorem foldl_tighter (h : Embeds ρ vars vars' net net') (as : List Nat) :
    ∀ best : Option Nat, (as.map ρ).foldl net'.tighter (best.map ρ) =
      (as.foldl net.tighter best).map ρ := by
  induction as with
  | nil => exact fun _ => rfl
  | cons a as ih =>
      intro best
      have hstep : net'.tighter (best.map ρ) (ρ a) = (net.tighter best a).map ρ := by
        cases best with
        | none => rfl
        | some b =>
            simp only [Option.map_some, tighter, h.domain_eq]
            split <;> rfl
      rw [List.map_cons, List.foldl_cons, List.foldl_cons, hstep, ih]

theorem critical?_eq (h : Embeds ρ vars vars' net net') :
    net'.critical? = net.critical?.map ρ := by
  have hcritical : net'.isCritical ∘ ρ = net.isCritical := by
    funext a
    rw [Function.comp_apply, isCritical, isCritical, h.domain_eq,
      h.distinct.degree_eq h.sound_distinct h.sound_distinct']
  rw [critical?, critical?, h.distinct.vertices_eq h.sound_distinct h.sound_distinct',
    List.filter_map, hcritical]
  exact h.foldl_tighter _ none

/-! ## Accepting -/

/-- At the moved places a greedy solution is greedy. -/
theorem greedy (h : Embeds ρ vars vars' net net') (hσ : net'.Greedy order σ) :
    net.Greedy order (σ ∘ ρ) where
  isFirst i hi hlead := by
    have hi' : ρ i < net'.size := by
      rw [h.size_eq']
      exact h.lt_iff.2 (h.size_eq ▸ hi)
    have hlead' : net'.leader (ρ i) = ρ i := by rw [h.leader_eq, hlead]
    refine (hσ.isFirst (ρ i) hi' hlead').congr fun v => ?_
    rw [h.domain_eq]
    refine and_congr_right fun _ => ⟨fun hleft k hk hik => ?_, fun hleft k hk hik => ?_⟩
    · exact hleft (ρ k) (ρ.lt_iff_lt.2 hk) (by rwa [h.distinct.adjacent_eq])
    · obtain ⟨j, hij, rfl⟩ := (h.distinct.image_neighbors i k).1 hik
      exact hleft j (ρ.lt_iff_lt.1 hk) hij
  leader_eq i hi := by
    have hi' : ρ i < net'.size := by
      rw [h.size_eq']
      exact h.lt_iff.2 (h.size_eq ▸ hi)
    rw [Function.comp_apply, hσ.leader_eq _ hi', h.leader_eq, Function.comp_apply]

theorem accept_mirrors (h : Embeds ρ vars vars' net net') (hnet : net.Searchable)
    (hnet' : net'.Searchable) (hc : net.critical? = none) :
    Mirrors (Verdict.Embeds ρ vars vars' settings.order mode) (net.accept settings mode)
      (net'.accept settings mode) := by
  have hc' : net'.critical? = none := by rw [h.critical?_eq, hc, Option.map_none]
  obtain ⟨σ, hσ, hverdict⟩ := accept_greedy hnet hc settings
  obtain ⟨σ', hσ', hverdict'⟩ := accept_greedy hnet' hc' settings
  intro verdict houtcome
  rw [hverdict] at houtcome
  cases houtcome
  refine ⟨_, hverdict' mode, ?_⟩
  rw [h.vars_eq, h.vars_eq']
  refine .sat (fun i hi => ?_) fun k hk hfresh => ?_
  · exact (h.greedy hσ').unique hσ h.sound hnet.merged (h.size_eq.symm ▸ hi)
  · rw [← h.untouched_domain k hfresh]
    exact hσ'.isFirst_domain (h.size_eq'.symm ▸ hk) (h.untouched_leader k hfresh)
      (h.distinct.not_adjacent hfresh)

/-! ## Searching -/

/-- Are these the same results of a search, with the same number of values tried? -/
def Results (ρ : ℕ ↪o ℕ) (vars vars' : Array Variable) (order : ValueOrder) (mode : Mode)
    (r r' : Verdict × Nat) : Prop :=
  r.1.Embeds ρ vars vars' order mode r'.1 ∧ r'.2 = r.2

theorem results_mirrors {first first' : Traced Verdict} {tried : Nat}
    (h : Mirrors (Verdict.Embeds ρ vars vars' order mode) first first') :
    Mirrors (Results ρ vars vars' order mode) (first >>= fun verdict => pure (verdict, tried))
      (first' >>= fun verdict => pure (verdict, tried)) :=
  h.bind fun _ _ _ _ hverdict => Mirrors.of_pure ⟨hverdict, rfl⟩

theorem tryValues_mirrors (h : Embeds ρ vars vars' net net')
    {deeper deeper' : Network → Nat → Traced (Verdict × Nat)} {vs : List Int}
    (hdeeper : ∀ v ∈ vs, ∀ tried, Mirrors (Results ρ vars vars' settings.order mode)
      (deeper (net.pin x v) tried) (deeper' (net'.pin (ρ x) v) tried)) :
    ∀ tried : Nat, Mirrors (Results ρ vars vars' settings.order mode)
      (tryValues settings deeper net x vs tried)
      (tryValues settings deeper' net' (ρ x) vs tried) := by
  induction vs with
  | nil =>
      intro tried
      rw [tryValues, tryValues, h.differences_eq]
      exact results_mirrors (refute_mirrors _)
  | cons v vs ih =>
      intro tried
      obtain ⟨hv, hvs⟩ := List.forall_mem_cons.1 hdeeper
      rw [tryValues, tryValues]
      simp only [h.differences_eq]
      cases settings.affords (tried + 1) with
      | false => exact Mirrors.note (Mirrors.of_pure ⟨.unknown _, rfl⟩)
      | true =>
          refine Mirrors.note ((hv (tried + 1)).bind fun r r' _ _ hr => ?_)
          obtain ⟨verdict, tried₁⟩ := r
          obtain ⟨verdict', tried₂⟩ := r'
          obtain ⟨hverdict, rfl⟩ := hr
          cases hverdict with
          | sat hkept hfresh => exact Mirrors.of_pure ⟨.sat hkept hfresh, rfl⟩
          | unsat cause => exact ih hvs _
          | unknown pairs => exact Mirrors.of_pure ⟨.unknown pairs, rfl⟩

theorem search_mirrors {depth : Nat} : ∀ {net net' : Network} {tried : Nat},
    Embeds ρ vars vars' net net' → net.Searchable → net'.Searchable →
    Mirrors (Results ρ vars vars' settings.order mode) (search settings mode depth net tried)
      (search settings mode depth net' tried) := by
  induction depth with
  | zero =>
      intro net net' tried _ _ _ r hr
      cases hr
  | succ depth ih =>
      intro net net' tried h hnet hnet'
      have hedgeless : net'.distinct.isEdgeless = net.distinct.isEdgeless := by
        rw [Graph.isEdgeless, Graph.isEdgeless, h.edgeCount_eq]
      rw [search, search, hedgeless]
      cases hempty : net.distinct.isEdgeless with
      | true =>
          have hc := critical?_of_isEdgeless h.sound hempty
          exact results_mirrors (h.accept_mirrors hnet hnet' hc)
      | false =>
          refine h.prune_mirrors.bind fun phase phase' hphase hphase' hends => ?_
          cases hends with
          | stuck cause => exact results_mirrors (refute_mirrors cause)
          | @passed mid mid' h =>
              have hmid := hnet.pruned ((prune_returns hnet.sound).of_eq_ok hphase).1
              have hmid' := hnet'.pruned ((prune_returns hnet'.sound).of_eq_ok hphase').1
              simp only [h.critical?_eq]
              cases hc : mid.critical? with
              | none =>
                  exact Mirrors.note (results_mirrors (h.accept_mirrors hmid hmid' hc))
              | some x =>
                  obtain ⟨y, hxy⟩ := h.sound_distinct.mem_vertices.1 (mem_of_critical? hc).1
                  have hx := h.sound_distinct.lt_left hxy
                  have hx' := h.lt_iff.2 hx
                  have hlead := hmid.merged.leader_of_distinct x y hxy
                  have hlead' : mid'.leader (ρ x) = ρ x := by rw [h.leader_eq, hlead]
                  simp only [Option.map_some, h.domain_eq]
                  refine Mirrors.note (h.tryValues_mirrors (fun v hv tried => ?_) tried)
                  rw [Domain.mem_values] at hv
                  refine ih (h.setDomain hx (Domain.normal_singleton v)) ?_ ?_
                  · exact hmid.pin (h.size_eq.symm ▸ hx) hlead hv
                  · exact hmid'.pin (h.size_eq'.symm ▸ hx') hlead' (h.domain_eq x ▸ hv)

/-! ## Solving -/

theorem solve_mirrors {scope scope' : Scope} (h : Embeds ρ vars vars' net net')
    (hposed : Posed scope net) (hposed' : Posed scope' net') (hviable : net.AllViable)
    (hviable' : net'.AllViable) (hnames : DistinctNames scope.vars)
    (hnames' : DistinctNames scope'.vars) :
    Mirrors (Verdict.Embeds ρ vars vars' settings.order mode) (net.solve settings mode)
      (net'.solve settings mode) := by
  rw [solve, solve]
  refine Mirrors.note (h.collapse_mirrors.bind fun phase phase' hphase hphase' hends => ?_)
  cases hends with
  | stuck cause => exact refute_mirrors cause
  | @passed mid mid' hmid =>
      have hcollapsed : Collapsed net mid :=
        (collapse_returns hposed.sound hposed.leader_eq).of_eq_ok hphase
      have hcollapsed' : Collapsed net' mid' :=
        (collapse_returns hposed'.sound hposed'.leader_eq).of_eq_ok hphase'
      simp only [hmid.edgeCount_eq]
      refine Mirrors.note ((hmid.search_mirrors (hcollapsed.searchable hposed hviable hnames)
        (hcollapsed'.searchable hposed' hviable' hnames')).bind fun r r' _ _ hr => ?_)
      exact Mirrors.note (Mirrors.of_pure hr.1)

end Embeds

end Network

end FiniteDomain
