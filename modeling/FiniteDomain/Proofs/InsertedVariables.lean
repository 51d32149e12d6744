import FiniteDomain.Proofs.DisjunctionAgreement
import FiniteDomain.Proofs.SearchEmbedding
import Mathlib

/-!
# Variables that are not mentioned do not interfere

Variables of other names may be declared anywhere among those of a clause. Their indices push
the others apart, which moves rows across words and changes every number that a solver
computes with. None of that can be seen from outside: the verdict has the same status and the
same cause, a witness gives the variables of the clause the same values, and the others
have the first values of their declarations.

The scope of the longer list contains the scope of the shorter one in the same order, so
there is an order embedding of the indices. Equations are looked up by name and land at the
moved places, and from there on the two runs are mirrors of each other.
-/

namespace FiniteDomain

open Traced (Mirrors)

variable {ρ : ℕ ↪o ℕ} {xs xs' : List Variable} {scope scope' : Scope} {name : String}
  {settings : Settings} {mode : Mode} {order : ValueOrder}

/-- A sequence returns only if its parts do. -/
theorem exists_of_bind_eq_ok {α β : Type} {x : Except Fault α} {f : α → Except Fault β} {b : β}
    (h : x.bind f = .ok b) : ∃ a, x = .ok a ∧ f a = .ok b := by
  cases x with
  | error fault => cases h
  | ok a => exact ⟨a, rfl, h⟩

/-- Is `xs'` the list `xs` with variables of other names put in between? -/
def Inserted (xs xs' : List Variable) : Prop :=
  xs'.filter (fun x => x.name ∈ xs.map Variable.name) = xs

instance : Decidable (Inserted xs xs') := inferInstanceAs (Decidable (_ = _))

theorem Inserted.subset (h : Inserted xs xs') : xs ⊆ xs' := by
  intro x hx
  rw [← h] at hx
  exact (List.mem_filter.1 hx).1

namespace Equation

variable {e : Equation}

theorem left_mem_names (e : Equation) : e.left ∈ e.names := by
  cases e <;> exact List.mem_cons_self

theorem Proper.mono (h : e.Proper xs) (hsub : xs ⊆ xs') : e.Proper xs' :=
  ⟨fun name hname => List.map_subset _ hsub (h.declared name hname), h.not_reflexive⟩

end Equation

/-! ## Scopes -/

namespace Scope

/-- Are the variables of `scope` those of `scope'` that have one of the names? -/
def Filters (names : List String) (scope scope' : Scope) : Prop :=
  scope.vars.toList = scope'.vars.toList.filter fun x => x.name ∈ names

section Filter

variable {names : List String} {start start' next next' : Scope} {x : Variable}
  (h : Filters names start start')

include h

/-- An earlier declaration of a name is found in both scopes or in neither. -/
theorem Filters.declare (hx : x.name ∈ names) (hnext : start.declare x = .ok next)
    (hnext' : start'.declare x = .ok next') : Filters names next next' := by
  have hfind : start.vars.find? (·.same x) = start'.vars.find? (·.same x) := by
    rw [← Array.find?_toList, ← Array.find?_toList, h, List.find?_filter]
    refine congrFun (congrArg _ (funext fun y => ?_)) _
    by_cases hy : y.same x = true
    · rw [Variable.same, beq_iff_eq] at hy
      simp [hy, hx]
    · simp [hy]
  unfold Scope.declare at hnext hnext'
  rw [hfind] at hnext
  cases hfirst : start'.vars.find? (·.same x) with
  | some first =>
      rw [hfirst] at hnext hnext'
      simp only [] at hnext hnext'
      split at hnext
      · next hagree =>
          rw [if_pos hagree] at hnext'
          cases hnext
          cases hnext'
          exact h
      · cases hnext
  | none =>
      rw [hfirst] at hnext hnext'
      cases hindex : Index.ofNat start.size <;> rw [hindex] at hnext <;> cases hnext
      cases hindex' : Index.ofNat start'.size <;> rw [hindex'] at hnext' <;> cases hnext'
      rw [Filters] at h ⊢
      simp [h, hx]

theorem Filters.declare_of_not_mem (hx : x.name ∉ names)
    (hnext' : start'.declare x = .ok next') : Filters names start next' := by
  unfold Scope.declare at hnext'
  split at hnext'
  · split at hnext'
    · cases hnext'
      exact h
    · cases hnext'
  · cases hindex : Index.ofNat start'.size <;> rw [hindex] at hnext' <;> cases hnext'
    rw [Filters] at h ⊢
    simp [h, hx]

end Filter

/-- Declaring the variables of some names takes no notice of the others. -/
theorem filters_foldlM {names : List String} : ∀ {xs : List Variable}
    {start start' scope scope' : Scope}, Filters names start start' →
    (xs.filter fun x => x.name ∈ names).foldlM declare start = .ok scope →
    xs.foldlM declare start' = .ok scope' → Filters names scope scope' := by
  intro xs
  induction xs with
  | nil =>
      intro start start' scope scope' hstart h h'
      cases h
      cases h'
      exact hstart
  | cons x xs ih =>
      intro start start' scope scope' hstart h h'
      rw [List.foldlM_cons] at h'
      cases hnext' : start'.declare x with
      | error fault =>
          rw [hnext'] at h'
          cases h'
      | ok next' =>
          rw [hnext'] at h'
          by_cases hx : x.name ∈ names
          · rw [List.filter_cons_of_pos (by simpa using hx), List.foldlM_cons] at h
            cases hnext : start.declare x with
            | error fault =>
                rw [hnext] at h
                cases h
            | ok next =>
                rw [hnext] at h
                exact ih (hstart.declare hx hnext hnext') h h'
          · rw [List.filter_cons_of_neg (by simpa using hx)] at h
            exact ih (hstart.declare_of_not_mem hx hnext') h h'

/-- Is one scope contained in another one that has only other names in between? -/
structure Embeds (ρ : ℕ ↪o ℕ) (xs : List Variable) (scope scope' : Scope) : Prop where
  placed : ∀ i, scope'.vars[ρ i]? = scope.vars[i]?
  mem_range_iff : ∀ k y, scope'.vars[k]? = some y →
    (k ∈ Set.range ρ ↔ y.name ∈ xs.map Variable.name)

theorem exists_embeds {groups groups' : List (List Variable)} (h : ofGroups groups = .ok scope)
    (h' : ofGroups groups' = .ok scope') (hins : Inserted groups.flatten groups'.flatten) :
    ∃ ρ, Embeds ρ groups.flatten scope scope' := by
  have hd := declares_ofGroups h
  have hd' := declares_ofGroups h'
  have hfilter : Filters (groups.flatten.map Variable.name) scope scope' := by
    have hstart : Filters (groups.flatten.map Variable.name) empty empty := rfl
    refine filters_foldlM hstart ?_ h'
    rw [hins]
    exact h
  rw [Filters] at hfilter
  have hsub : scope.vars.toList.Sublist scope'.vars.toList := hfilter ▸ List.filter_sublist
  obtain ⟨ρ, hρ⟩ := List.sublist_iff_exists_orderEmbedding_getElem?_eq.1 hsub
  have hplaced : ∀ i, scope'.vars[ρ i]? = scope.vars[i]? := by
    intro i
    rw [← Array.getElem?_toList, ← Array.getElem?_toList, hρ]
  refine ⟨ρ, hplaced, fun k y hk => ⟨?_, fun hname => ?_⟩⟩
  · rintro ⟨i, rfl⟩
    rw [hplaced] at hk
    exact List.mem_map_of_mem (hd.mem i y hk)
  · have hy : y ∈ scope.vars.toList := by
      rw [hfilter, List.mem_filter]
      exact ⟨Array.mem_toList_iff.2 (Array.mem_of_getElem? hk), by simpa using hname⟩
    obtain ⟨i, hi⟩ := Array.mem_iff_getElem?.1 (Array.mem_toList_iff.1 hy)
    -- The name is found at one place only.
    have hki := (hd'.lookup_eq_ok_iff hk).2 rfl
    have hρi := (hd'.lookup_eq_ok_iff ((hplaced i).trans hi)).2 rfl
    rw [hki] at hρi
    cases hρi
    exact ⟨i, rfl⟩

namespace Embeds

variable (h : Embeds ρ xs scope scope') (hd : scope.Declares xs) (hd' : scope'.Declares xs')

include h hd hd'

theorem lookup_eq_ok_iff (hname : name ∈ xs.map Variable.name) {k : Nat} :
    scope'.lookup name = .ok k ↔ ∃ i, scope.lookup name = .ok i ∧ ρ i = k := by
  obtain ⟨i, x, hi, hx, rfl⟩ := hd.lookup_eq hname
  have hi' := (hd'.lookup_eq_ok_iff ((h.placed i).trans hx)).2 rfl
  rw [hi, hi']
  simp

end Embeds

end Scope

/-! ## Imposing equations -/

namespace Network

variable {net net' : Network} {e : Equation} {es done : List Equation} {i k : Nat} {v : Int}

section

variable (h : Scope.Embeds ρ xs scope scope') (hd : scope.Declares xs)
  (hd' : scope'.Declares xs')

include h hd hd'

theorem allows_iff (he : e.Proper xs) : e.Allows scope' (ρ i) v ↔ e.Allows scope i v := by
  cases e with
  | value name w equal =>
      have hname := he.declared name (by simp [Equation.names])
      simp [Equation.Allows, h.lookup_eq_ok_iff hd hd' hname]
  | pair left right equal => rfl

theorem allows_of_not_mem_range (he : e.Proper xs) (hk : k ∉ Set.range ρ) :
    e.Allows scope' k v := by
  cases e with
  | value name w equal =>
      intro hlookup
      have hname := he.declared name (by simp [Equation.names])
      obtain ⟨i, -, hi⟩ := (h.lookup_eq_ok_iff hd hd' hname).1 hlookup
      exact absurd ⟨i, hi⟩ hk
  | pair left right equal => trivial

theorem joins_iff (he : e.Proper xs) {equal : Bool} {c d : Nat} :
    e.Joins scope' equal c d ↔ ∃ a b, e.Joins scope equal a b ∧ ρ a = c ∧ ρ b = d := by
  cases e with
  | value name w equal' => simp [Equation.Joins]
  | pair left right equal' =>
      have hleft := he.declared left (by simp [Equation.names])
      have hright := he.declared right (by simp [Equation.names])
      simp only [Equation.Joins, h.lookup_eq_ok_iff hd hd' hleft,
        h.lookup_eq_ok_iff hd hd' hright]
      refine ⟨?_, ?_⟩
      · rintro ⟨heq, ⟨⟨a, ha, rfl⟩, b, hb, rfl⟩ | ⟨⟨a, ha, rfl⟩, b, hb, rfl⟩⟩
        · exact ⟨a, b, ⟨heq, Or.inl ⟨ha, hb⟩⟩, rfl, rfl⟩
        · exact ⟨b, a, ⟨heq, Or.inr ⟨ha, hb⟩⟩, rfl, rfl⟩
      · rintro ⟨a, b, ⟨heq, ⟨ha, hb⟩ | ⟨ha, hb⟩⟩, rfl, rfl⟩
        · exact ⟨heq, Or.inl ⟨⟨a, ha, rfl⟩, b, hb, rfl⟩⟩
        · exact ⟨heq, Or.inr ⟨⟨b, ha, rfl⟩, a, hb, rfl⟩⟩

theorem Imposed.contracts (himposed : Imposed scope done net) (himposed' : Imposed scope' done net')
    (hdone : ∀ e ∈ done, e.Proper xs) (equal : Bool) :
    (net.graph equal).Contracts ρ (net'.graph equal) := by
  intro c d
  rw [himposed'.adjacent]
  simp only [himposed.adjacent]
  refine ⟨?_, ?_⟩
  · rintro ⟨hcd, e, he, hjoins⟩
    obtain ⟨a, b, hab, rfl, rfl⟩ := (joins_iff h hd hd' (hdone e he)).1 hjoins
    exact ⟨a, b, ⟨fun heq => hcd (heq ▸ rfl), e, he, hab⟩, rfl, rfl⟩
  · rintro ⟨a, b, ⟨hab, e, he, hjoins⟩, rfl, rfl⟩
    exact ⟨ρ.injective.ne hab, e, he, (joins_iff h hd hd' (hdone e he)).2 ⟨a, b, hjoins, rfl, rfl⟩⟩

/-- The same equations leave the same network, but for the variables in between. -/
theorem Imposed.embeds (himposed : Imposed scope done net) (himposed' : Imposed scope' done net')
    (hdone : ∀ e ∈ done, e.Proper xs) : Embeds ρ scope.vars scope'.vars net net' := by
  have hs := himposed.posed.sound
  have hs' := himposed'.posed.sound
  have hlt : ∀ i, ρ i < net'.size ↔ i < net.size := by
    intro i
    rw [himposed.size_eq, himposed'.size_eq, ← not_iff_not, Nat.not_lt, Nat.not_lt,
      ← Array.getElem?_eq_none_iff, ← Array.getElem?_eq_none_iff, h.placed]
  refine ⟨h.placed, hs, hs', himposed.posed.vars_eq, himposed'.posed.vars_eq, fun i => ?_,
    fun i => ?_, Imposed.contracts h hd hd' himposed himposed' hdone true,
    Imposed.contracts h hd hd' himposed himposed' hdone false, fun k hk => ?_, fun k _ => ?_⟩
  · rcases Nat.lt_or_ge i net.size with hi | hi
    · refine Domain.eq_of_mem_iff (hs'.normal _) (hs.normal _) fun v => ?_
      obtain ⟨x, hx⟩ : ∃ x, scope.vars[i]? = some x :=
        ⟨_, Array.getElem?_eq_getElem (himposed.size_eq ▸ hi)⟩
      rw [himposed.mem_domain i hi, himposed'.mem_domain _ ((hlt i).2 hi),
        mem_domain_ofVariables hx, mem_domain_ofVariables ((h.placed i).trans hx)]
      refine and_congr_right fun _ => forall₂_congr fun e he => ?_
      exact allows_iff h hd hd' (hdone e he)
    · have hi' : net'.size ≤ ρ i := by
        rw [← Nat.not_lt, hlt]
        exact Nat.not_lt.2 hi
      rw [domain_of_size_le (hs'.size_domains ▸ hi'), domain_of_size_le (hs.size_domains ▸ hi)]
  · rw [himposed.posed.leader_eq, himposed'.posed.leader_eq]
  · rcases Nat.lt_or_ge k net'.size with hk' | hk'
    · refine Domain.eq_of_mem_iff (hs'.normal _) ((sound_ofVariables _).normal _) fun v => ?_
      rw [himposed'.mem_domain k hk']
      refine and_iff_left fun e he => ?_
      exact allows_of_not_mem_range h hd hd' (hdone e he) hk
    · rw [domain_of_size_le (hs'.size_domains ▸ hk'), domain_of_size_le]
      rw [(sound_ofVariables _).size_domains, size]
      exact himposed'.size_eq ▸ hk'
  · exact himposed'.posed.leader_eq k

end

/-- Every variable has a value to begin with. -/
theorem allViable_ofVariables (scope : Scope) : (ofVariables scope.vars).AllViable := by
  intro k hk
  obtain ⟨σ, hσ⟩ := scope.exists_takes
  have hx : scope.vars[k]? = some scope.vars[k] := Array.getElem?_eq_getElem hk
  exact ⟨σ k, (mem_domain_ofVariables hx).2 (hσ k _ hx)⟩

/-- Variables in between still have their values. -/
theorem Embeds.allViable (hembeds : Embeds ρ scope.vars scope'.vars net net')
    (hviable : net.AllViable) : net'.AllViable := by
  intro k hk
  rw [hembeds.size_eq'] at hk
  by_cases hrange : k ∈ Set.range ρ
  · obtain ⟨i, rfl⟩ := hrange
    rw [hembeds.domain_eq]
    exact hviable i (hembeds.size_eq.symm ▸ hembeds.lt_iff.1 hk)
  · rw [hembeds.untouched_domain k hrange]
    exact allViable_ofVariables scope' k hk

theorem check_eq_passed (hs : net.Sound) (hviable : net.AllViable) : net.check = .passed net := by
  have hends := check_ends hs
  cases hcheck : net.check with
  | passed mid =>
      rw [hcheck] at hends
      rw [hends.1]
  | stuck mid cause =>
      rw [hcheck] at hends
      exact absurd hviable hends

/-- What imposing an equation returns is the index of its left variable. -/
theorem lookup_left (h : net.impose scope e = .ok (i, net')) : scope.lookup e.left = .ok i := by
  cases e with
  | value name v equal =>
      obtain ⟨j, hj, h⟩ := exists_of_bind_eq_ok h
      obtain ⟨mid, -, h⟩ := exists_of_bind_eq_ok h
      cases h
      exact hj
  | pair left right equal =>
      obtain ⟨j, hj, h⟩ := exists_of_bind_eq_ok h
      obtain ⟨k, -, h⟩ := exists_of_bind_eq_ok h
      obtain ⟨mid, -, h⟩ := exists_of_bind_eq_ok h
      cases h
      exact hj

/-- An equation takes values from its left variable only. -/
theorem Imposed.allViable_impose (hd : scope.Declares xs) (h : Imposed scope done net)
    (hviable : net.AllViable) (he : e.Proper xs) (himpose : net.impose scope e = .ok (i, net'))
    (hleft : net'.viable i = true) : net'.AllViable := by
  obtain ⟨j, mid, himpose', -, h'⟩ := h.impose hd he
  cases himpose.symm.trans himpose'
  intro k hk
  by_cases hki : k = i
  · exact hki ▸ viable_iff.1 hleft
  · obtain ⟨v, hv⟩ := hviable k (h.size_eq ▸ h'.size_eq ▸ hk)
    refine ⟨v, (h'.mem_domain k hk v).2 ?_⟩
    rw [h.mem_domain k (h.size_eq ▸ h'.size_eq ▸ hk)] at hv
    refine ⟨hv.1, List.forall_mem_append.2 ⟨hv.2, List.forall_mem_singleton.2 ?_⟩⟩
    cases e with
    | value name w equal =>
        intro hlookup
        cases hlookup.symm.trans (lookup_left himpose)
        exact absurd rfl hki
    | pair left right equal => trivial

/-- Equations are imposed alike, and as long as none gets stuck no variable is out of values. -/
theorem imposeAll_mirrors (h : Scope.Embeds ρ xs scope scope') (hd : scope.Declares xs)
    (hd' : scope'.Declares xs') (hsub : xs ⊆ xs') : ∀ {done : List Equation} {net net' : Network},
    Imposed scope done net → Imposed scope' done net' → net.AllViable →
    (∀ e ∈ done, e.Proper xs) → (∀ e ∈ es, e.Proper xs) →
    Mirrors (fun phase phase' => phase.Embeds ρ scope.vars scope'.vars phase' ∧
        phase.Ends AllViable fun _ => True)
      (.ofExcept (imposeAll scope es net)) (.ofExcept (imposeAll scope' es net')) := by
  induction es with
  | nil =>
      intro done net net' himposed himposed' hviable hdone _
      exact Mirrors.of_pure ⟨.passed (himposed.embeds h hd hd' himposed' hdone), hviable⟩
  | cons e es ih =>
      intro done net net' himposed himposed' hviable hdone hes
      obtain ⟨he, hes⟩ := List.forall_mem_cons.1 hes
      have hdone := Equation.forall_proper_concat hdone he
      obtain ⟨i, mid, himpose, hi, hmid⟩ := himposed.impose hd he
      obtain ⟨k, mid', himpose', -, hmid'⟩ := himposed'.impose hd' (he.mono hsub)
      have hembeds := hmid.embeds h hd hd' hmid' hdone
      have hleft := he.declared e.left e.left_mem_names
      have hk : ρ i = k := by
        obtain ⟨j, hj, hjk⟩ := (h.lookup_eq_ok_iff hd hd' hleft).1 (lookup_left himpose')
        cases hj.symm.trans (lookup_left himpose)
        exact hjk
      rw [imposeAll, imposeAll, himpose, himpose', ← hk]
      simp only [bind, Except.bind, hembeds.viable_eq]
      split
      · next hleft =>
          exact ih hmid hmid' (himposed.allViable_impose hd hviable he himpose hleft) hdone hes
      · exact Mirrors.of_pure ⟨.stuck _, trivial⟩

end Network

/-! ## Clauses -/

namespace Clause

variable {c : Clause} {e : Equation} {es : List Equation}

section

variable (h : Scope.Embeds ρ xs scope scope') (hd : scope.Declares xs)
  (hd' : scope'.Declares xs') (hsub : xs ⊆ xs')

include h hd hd' hsub

theorem solveEquations_mirrors (hes : ∀ e ∈ es, e.Proper xs) :
    Mirrors (Verdict.Embeds ρ scope.vars scope'.vars settings.order mode)
      (solveEquations scope settings mode es) (solveEquations scope' settings mode es) := by
  have hes' : ∀ e ∈ es, e.Proper xs' := fun e he => (hes e he).mono hsub
  have hstart := Network.imposed_ofVariables scope
  have hstart' := Network.imposed_ofVariables scope'
  rw [solveEquations, solveEquations]
  refine (Network.imposeAll_mirrors h hd hd' hsub hstart hstart'
    (Network.allViable_ofVariables scope) (List.forall_mem_nil _) hes).bind ?_
  rintro phase phase' hphase hphase' ⟨hembeds, hviable⟩
  cases hembeds with
  | stuck cause => exact refute_mirrors cause
  | @passed net net' hnet =>
      have hposed : Network.Posed scope net :=
        ((Network.imposeAll_imposed hd hstart hes).of_eq_ok hphase).posed
      have hposed' : Network.Posed scope' net' :=
        ((Network.imposeAll_imposed hd' hstart' hes').of_eq_ok hphase').posed
      have hviable' := hnet.allViable hviable
      simp only [Phase.andThen, Network.check_eq_passed hposed.sound hviable,
        Network.check_eq_passed hposed'.sound hviable']
      exact hnet.solve_mirrors hposed hposed' hviable hviable' hd.distinctNames hd'.distinctNames

theorem solveAll_mirrors (hes : ∀ e ∈ es, e.Proper xs) :
    Mirrors (Verdict.Embeds ρ scope.vars scope'.vars settings.order mode)
      (solveAll scope settings mode es) (solveAll scope' settings mode es) := by
  have hes' : ∀ e ∈ es, e.Proper xs' := fun e he => (hes e he).mono hsub
  intro verdict hverdict
  rw [outcome_solveAll_eq hd hes] at hverdict
  rw [outcome_solveAll_eq hd' hes']
  exact solveEquations_mirrors h hd hd' hsub hes verdict hverdict

theorem solveVariants_mirrors : ∀ {es : List Equation} {undecided : Option _},
    (∀ e ∈ es, e.Proper xs) →
    Mirrors (Verdict.Embeds ρ scope.vars scope'.vars settings.order mode)
      (solveVariants scope settings mode c es undecided)
      (solveVariants scope' settings mode c es undecided) := by
  intro es
  induction es with
  | nil =>
      intro undecided _
      cases undecided with
      | none => exact refute_mirrors _
      | some pairs => exact Mirrors.of_pure (.unknown pairs)
  | cons e es ih =>
      intro undecided hes
      obtain ⟨he, hes⟩ := List.forall_mem_cons.1 hes
      rw [solveVariants, solveVariants]
      refine (solveAll_mirrors h hd hd' hsub (List.forall_mem_singleton.2 he)).bind ?_
      intro verdict verdict' _ _ hverdict
      cases hverdict with
      | sat hkept hfresh => exact Mirrors.of_pure (.sat hkept hfresh)
      | unknown pairs => exact Mirrors.note (ih hes)
      | unsat cause => exact Mirrors.note (ih hes)

theorem solve_mirrors (hc : c.Proper xs) :
    Mirrors (Verdict.Embeds ρ scope.vars scope'.vars settings.order mode)
      (c.solve scope settings mode) (c.solve scope' settings mode) := by
  have hc' : c.Proper xs' := fun e he => (hc e he).mono hsub
  cases hconn : c.connective with
  | all =>
      rw [solve, solve, hconn]
      exact solveAll_mirrors h hd hd' hsub hc
  | any =>
      intro verdict hverdict
      rw [outcome_solve_of_any hd hc hconn] at hverdict
      rw [outcome_solve_of_any hd' hc' hconn]
      exact solveVariants_mirrors h hd hd' hsub hc verdict hverdict

end

end Clause

/-! ## The result -/

/-- The first value that the declaration of a variable allows. -/
def Variable.firstValue (x : Variable) (order : ValueOrder) : Int :=
  match x.value?, order with
  | some v, _ => v
  | none, .ascending => 0
  | none, .descending => x.maxValue

theorem Variable.firstValue_congr {x y : Variable} (hwidth : x.width = y.width)
    (hvalue : x.value? = y.value?) : x.firstValue order = y.firstValue order := by
  simp only [firstValue, maxValue, hwidth, hvalue]

theorem Variable.isFirst_firstValue (x : Variable) (order : ValueOrder) :
    order.IsFirst x.Takes (x.firstValue order) := by
  have hmax : 0 ≤ x.maxValue := maxOfWidth_nonneg x.width
  cases hvalue : x.value? with
  | some v =>
      have hfirst : x.firstValue order = v := by simp [firstValue, hvalue]
      simp only [ValueOrder.IsFirst, takes_of_fixed hvalue, hfirst]
      refine ⟨trivial, fun w hw => ?_⟩
      cases order <;> simp [ValueOrder.Before, hw]
  | none =>
      simp only [ValueOrder.IsFirst, takes_of_free hvalue]
      cases order <;> simp only [ValueOrder.Before, firstValue, hvalue] <;>
        refine ⟨⟨by omega, by omega⟩, fun w hw => by omega⟩

/-- Is the second verdict, over more variables, the first one? The variables that were added have
the first values of their declarations. -/
def Verdict.Extends (order : ValueOrder) (mode : Mode) (xs xs' : List Variable) :
    Verdict → Verdict → Prop
  | sat s, sat s' =>
      match mode with
      | .decide => s = .empty ∧ s' = .empty
      | .witness =>
          (∀ x ∈ xs, ∃ v, s.get? x.name = some v ∧ s'.get? x.name = some v) ∧
          ∀ x ∈ xs', x.name ∉ xs.map Variable.name →
            s'.get? x.name = some (x.firstValue order)
  | unsat cause, unsat cause' => cause' = cause
  | unknown pairs, unknown pairs' => pairs' = pairs
  | _, _ => False

theorem Verdict.Embeds.extends {verdict verdict' : Verdict} (h : Scope.Embeds ρ xs scope scope')
    (hd : scope.Declares xs) (hd' : scope'.Declares xs')
    (hembeds : verdict.Embeds ρ scope.vars scope'.vars order mode verdict') :
    verdict.Extends order mode xs xs' verdict' := by
  cases hembeds with
  | unsat cause => rfl
  | unknown pairs => rfl
  | @sat σ σ' hkept hfresh =>
      cases mode with
      | decide => exact ⟨rfl, rfl⟩
      | witness =>
          refine ⟨fun x hx => ?_, fun x hx hname => ?_⟩
          · obtain ⟨i, y, hi, hyx, -⟩ := hd.declared x hx
            have hlt := (Array.getElem?_eq_some_iff.1 hi).1
            rw [← hyx]
            refine ⟨σ i, Assignment.get?_ofValues hd.distinctNames hi σ, ?_⟩
            rw [← hkept i hlt]
            exact Assignment.get?_ofValues hd'.distinctNames ((h.placed i).trans hi) σ'
          · obtain ⟨k, y, hk, hyx, hwidth, hvalue⟩ := hd'.declared x hx
            have hrange : k ∉ Set.range ρ := by
              rw [h.mem_range_iff k y hk, hyx]
              exact hname
            have hfirst := (hfresh k (Array.getElem?_eq_some_iff.1 hk).1 hrange).congr fun v =>
              Network.mem_domain_ofVariables hk
            rw [← hyx, ← Variable.firstValue_congr hwidth hvalue,
              (y.isFirst_firstValue order).unique hfirst]
            exact Assignment.get?_ofValues hd'.distinctNames hk σ'

/--
Variables of other names, put anywhere among those of a clause, leave its verdict as it is, in
every mode and under every budget: the same status, the same cause, and the same values for the
variables of the clause. What was put in between has its known value, or else the first
value of its width in the order in which values are tried.
-/
theorem Clause.solve_of_inserted {groups groups' : List (List Variable)}
    (hscope : Scope.ofGroups groups = .ok scope) (hscope' : Scope.ofGroups groups' = .ok scope')
    (hins : Inserted groups.flatten groups'.flatten) {c : Clause} (hc : c.Proper groups.flatten)
    (settings : Settings) (mode : Mode) :
    ∃ verdict verdict', (c.solve scope settings mode).outcome = .ok verdict ∧
      (c.solve scope' settings mode).outcome = .ok verdict' ∧
      verdict.Extends settings.order mode groups.flatten groups'.flatten verdict' := by
  have hd := Scope.declares_ofGroups hscope
  have hd' := Scope.declares_ofGroups hscope'
  obtain ⟨ρ, hρ⟩ := Scope.exists_embeds hscope hscope' hins
  have hreturns : Returns (c.solve scope settings mode).outcome _ := solve_returns hd hc
  obtain ⟨verdict, hverdict, -⟩ := hreturns
  obtain ⟨verdict', hverdict', hembeds⟩ := solve_mirrors hρ hd hd' hins.subset hc verdict hverdict
  exact ⟨verdict, verdict', hverdict, hverdict', hembeds.extends hρ hd hd'⟩

/-- The three bits with a wider variable in front of them and a known one in between. -/
def paddedBits : List (List Variable) :=
  [[.ofWidth "x" 3 (by decide), .ofWidth "a" 1 Nat.one_pos, .ofWidth "b" 1 Nat.one_pos],
    [.ofWidth "b" 1 Nat.one_pos, ⟨"y", 2, some 1, Nat.two_pos, by decide⟩,
      .ofWidth "c" 1 Nat.one_pos]]

/-- Along the path the bits have the values they had, and the triangle is left open as before. -/
theorem Clause.solve_of_inserted_bits : ∃ scope, Scope.ofGroups paddedBits = .ok scope ∧
    (∃ s, (bitPath.solve scope { order := .descending } .witness).outcome = .ok (.sat s) ∧
      s.get? "a" = some 0 ∧ s.get? "b" = some 1 ∧ s.get? "c" = some 0 ∧ s.get? "x" = some 7 ∧
      s.get? "y" = some 1) ∧
    (bitTriangle.solve scope { budget := some 1 } .decide).outcome =
      .ok (.unknown [("a", "b"), ("a", "c"), ("b", "c")]) := by
  have hbits : Scope.ofGroups bits = .ok bitScope := rfl
  have hins : Inserted bits.flatten paddedBits.flatten := by decide
  obtain ⟨scope, hscope⟩ : ∃ scope, Scope.ofGroups paddedBits = .ok scope := ⟨_, rfl⟩
  refine ⟨scope, hscope, ?_, ?_⟩
  · have hsat : (bitPath.solve bitScope { order := .descending } .witness).outcome =
        .ok (.sat (.ofValues bitScope.vars fun i => if i = 1 then 1 else 0)) := by decide +kernel
    obtain ⟨verdict, verdict', hverdict, hverdict', hextends⟩ :=
      solve_of_inserted hbits hscope hins proper_bitPath
        { order := .descending } .witness
    have hfound : Except.ok verdict = .ok _ := hverdict.symm.trans hsat
    cases hfound
    cases verdict' with
    | unsat cause => cases hextends
    | unknown pairs => cases hextends
    | sat s =>
        obtain ⟨hkept, hfresh⟩ := hextends
        have hvalue : ∀ x ∈ bits.flatten, s.get? x.name =
            (Assignment.ofValues bitScope.vars fun i => if i = 1 then 1 else 0).get? x.name := by
          intro x hx
          obtain ⟨v, hv, hv'⟩ := hkept x hx
          rw [hv, hv']
        exact ⟨s, hverdict', hvalue (.ofWidth "a" 1 (by decide)) (by decide),
          hvalue (.ofWidth "b" 1 (by decide)) (by decide),
          hvalue (.ofWidth "c" 1 (by decide)) (by decide),
          hfresh (.ofWidth "x" 3 (by decide)) (by decide) (by decide),
          hfresh ⟨"y", 2, some 1, by decide, by decide⟩ (by decide) (by decide)⟩
  · have hopen : (bitTriangle.solve bitScope { budget := some 1 } .decide).outcome =
        .ok (.unknown [("a", "b"), ("a", "c"), ("b", "c")]) := by decide +kernel
    obtain ⟨verdict, verdict', hverdict, hverdict', hextends⟩ :=
      solve_of_inserted hbits hscope hins proper_bitTriangle
        { budget := some 1 } .decide
    have hfound : Except.ok verdict = .ok _ := hverdict.symm.trans hopen
    cases hfound
    cases verdict' with
    | sat s => cases hextends
    | unsat cause => cases hextends
    | unknown pairs =>
        cases hextends
        exact hverdict'

end FiniteDomain
