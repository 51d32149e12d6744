import FiniteDomain.Network.Basic
import FiniteDomain.Proofs.DomainForm
import FiniteDomain.Proofs.GraphSound
import Mathlib

/-!
# Networks and their models

A model of a network gives every variable a value that is left for it, the same
value to the ends of an equality and different values to the ends of an inequality.
The solvers are right because every phase keeps the models, or says that there are
none; what a phase does to domains and graphs is only the means to that.

`Sound` is the part of a network's shape that every operation keeps. `Merged` is
the shape after equal variables have been merged: no equality is left, and
inequalities join leaders only. From then on the domain of a variable that is not
its own leader is not looked at again, and goes stale; what remains true of it is
that its leader takes nothing it could not take.
-/

namespace FiniteDomain

namespace Network

variable {net : Network} {d : Domain} {g : Graph} {σ : Nat → Int} {i j : Nat} {v : Int}

/-! ## Changing one part -/

theorem size_congr {net' : Network} (h : net'.vars = net.vars) : net'.size = net.size := by
  rw [size, h, size]

theorem name_congr {net' : Network} (h : net'.vars = net.vars) (i : Nat) :
    net'.name i = net.name i := by
  rw [name, h, name]

@[simp]
theorem size_domains_setDomain (net : Network) (i : Nat) (d : Domain) :
    (net.setDomain i d).domains.size = net.domains.size :=
  Array.size_setIfInBounds

theorem domain_setDomain_ne (net : Network) (d : Domain) (h : j ≠ i) :
    (net.setDomain i d).domain j = net.domain j := by
  simp only [domain, setDomain, Array.getD_eq_getD_getElem?]
  rw [Array.getElem?_setIfInBounds_ne (Ne.symm h)]

theorem domain_setDomain_self (d : Domain) (h : i < net.domains.size) :
    (net.setDomain i d).domain i = d := by
  simp only [domain, setDomain, Array.getD_eq_getD_getElem?]
  rw [Array.getElem?_setIfInBounds_self_of_lt h]
  rfl

theorem domain_setDomain (d : Domain) (h : i < net.domains.size) (j : Nat) :
    (net.setDomain i d).domain j = if j = i then d else net.domain j := by
  split
  · next hji => rw [hji, domain_setDomain_self d h]
  · next hji => exact domain_setDomain_ne net d hji

theorem domain_of_size_le (h : net.domains.size ≤ i) : net.domain i = .empty := by
  rw [domain, Array.getD_eq_getD_getElem?, Array.getElem?_eq_none h]
  rfl

/-- Do the two networks differ in nothing but what their domains hold? -/
structure SameButDomains (net net' : Network) : Prop where
  vars_eq : net'.vars = net.vars
  equal_eq : net'.equal = net.equal
  distinct_eq : net'.distinct = net.distinct
  leaders_eq : net'.leaders = net.leaders
  size_domains_eq : net'.domains.size = net.domains.size

namespace SameButDomains

theorem refl (net : Network) : SameButDomains net net := ⟨rfl, rfl, rfl, rfl, rfl⟩

theorem trans {net net' net'' : Network} (h : SameButDomains net net')
    (h' : SameButDomains net' net'') : SameButDomains net net'' where
  vars_eq := h'.vars_eq.trans h.vars_eq
  equal_eq := h'.equal_eq.trans h.equal_eq
  distinct_eq := h'.distinct_eq.trans h.distinct_eq
  leaders_eq := h'.leaders_eq.trans h.leaders_eq
  size_domains_eq := h'.size_domains_eq.trans h.size_domains_eq

theorem setDomain (net : Network) (i : Nat) (d : Domain) :
    SameButDomains net (net.setDomain i d) :=
  ⟨rfl, rfl, rfl, rfl, size_domains_setDomain net i d⟩

theorem size_eq {net net' : Network} (h : SameButDomains net net') : net'.size = net.size :=
  size_congr h.vars_eq

theorem leader_eq {net net' : Network} (h : SameButDomains net net') (i : Nat) :
    net'.leader i = net.leader i := by
  rw [leader, h.leaders_eq, leader]

end SameButDomains

theorem sameButDomains_foldl (f : Network → Nat → Domain) (net : Network) (js : List Nat) :
    SameButDomains net (js.foldl (fun net j => net.setDomain j (f net j)) net) := by
  induction js generalizing net with
  | nil => exact SameButDomains.refl net
  | cons j js ih => exact (SameButDomains.setDomain net j _).trans (ih _)

/-- Changes the domains of a list of variables, each of which occurs once. -/
theorem domain_foldl_setDomain (f : Domain → Domain) {net : Network} {js : List Nat}
    (hnodup : js.Nodup) (hlt : ∀ j ∈ js, j < net.domains.size) (i : Nat) :
    (js.foldl (fun net j => net.setDomain j (f (net.domain j))) net).domain i =
      if i ∈ js then f (net.domain i) else net.domain i := by
  induction js generalizing net with
  | nil => simp
  | cons j js ih =>
      obtain ⟨hj, hnodup⟩ := List.nodup_cons.1 hnodup
      have hlt' : ∀ k ∈ js, k < (net.setDomain j (f (net.domain j))).domains.size := by
        intro k hk
        rw [size_domains_setDomain]
        exact hlt k (List.mem_cons_of_mem _ hk)
      rw [List.foldl_cons, ih hnodup hlt', domain_setDomain _ (hlt j List.mem_cons_self)]
      by_cases hij : i = j
      · subst hij
        simp [hj]
      · simp [hij]

/-! ## Shape -/

/-- What holds of every network that the operations build. -/
structure Sound (net : Network) : Prop where
  size_domains : net.domains.size = net.size
  size_leaders : net.leaders.size = net.size
  normal : ∀ i, (net.domain i).Normal
  sound_equal : net.equal.Sound net.size
  sound_distinct : net.distinct.Sound net.size
  leader_lt : ∀ i < net.size, net.leader i < net.size

theorem Sound.of_sameButDomains {net' : Network} (h : net.Sound) (hsame : SameButDomains net net')
    (hnormal : ∀ i, (net'.domain i).Normal) : net'.Sound where
  size_domains := by rw [hsame.size_domains_eq, h.size_domains, hsame.size_eq]
  size_leaders := by rw [hsame.leaders_eq, h.size_leaders, hsame.size_eq]
  normal := hnormal
  sound_equal := by rw [hsame.equal_eq, hsame.size_eq]; exact h.sound_equal
  sound_distinct := by rw [hsame.distinct_eq, hsame.size_eq]; exact h.sound_distinct
  leader_lt i hi := by
    rw [hsame.leader_eq, hsame.size_eq]
    exact h.leader_lt i (by rwa [hsame.size_eq] at hi)

theorem Sound.setDomain (h : net.Sound) (i : Nat) (hd : d.Normal) : (net.setDomain i d).Sound := by
  refine h.of_sameButDomains (SameButDomains.setDomain net i d) fun j => ?_
  by_cases hji : j = i
  · subst hji
    rcases Nat.lt_or_ge j net.domains.size with hj | hj
    · rw [domain_setDomain_self d hj]
      exact hd
    · rw [domain_of_size_le (by rwa [size_domains_setDomain])]
      exact Domain.normal_empty
  · rw [domain_setDomain_ne net d hji]
    exact h.normal j

theorem Sound.foldl_setDomain {f : Domain → Domain} (hf : ∀ d : Domain, d.Normal → (f d).Normal)
    (h : net.Sound) (js : List Nat) :
    (js.foldl (fun net j => net.setDomain j (f (net.domain j))) net).Sound := by
  induction js generalizing net with
  | nil => exact h
  | cons j js ih => exact ih (h.setDomain j (hf _ (h.normal j)))

theorem Sound.withDistinct (h : net.Sound) (hg : g.Sound net.size) :
    ({ net with distinct := g } : Network).Sound where
  size_domains := h.size_domains
  size_leaders := h.size_leaders
  normal := h.normal
  sound_equal := h.sound_equal
  sound_distinct := hg
  leader_lt := h.leader_lt

/-- Every variable has a value left. -/
def AllViable (net : Network) : Prop := ∀ i < net.size, ∃ v, v ∈ net.domain i

theorem viable_iff : net.viable i = true ↔ ∃ v, v ∈ net.domain i := by
  rw [viable, Bool.not_eq_true', Domain.isEmpty_eq_false_iff]

/-- No equality is left, and inequalities join leaders only. -/
structure Merged (net : Network) : Prop where
  not_equal : ∀ i j, net.equal.adjacent i j = false
  leader_leader : ∀ i, net.leader (net.leader i) = net.leader i
  leader_of_distinct : ∀ i j, net.distinct.adjacent i j = true → net.leader i = i

/-- A leader takes nothing that a member of its class could not take. -/
def LeadersFit (net : Network) : Prop :=
  ∀ i < net.size, ∀ v, v ∈ net.domain (net.leader i) → v ∈ net.domain i

/-! ## Models -/

/-- The values given by `σ` are left and respect both graphs. -/
structure Model (net : Network) (σ : Nat → Int) : Prop where
  mem : ∀ i < net.size, σ i ∈ net.domain i
  equal : ∀ i j, net.equal.adjacent i j = true → σ i = σ j
  distinct : ∀ i j, net.distinct.adjacent i j = true → σ i ≠ σ j

/-- A model in which every variable has the value of its leader. -/
def Solved (net : Network) (σ : Nat → Int) : Prop :=
  net.Model σ ∧ ∀ i < net.size, σ i = σ (net.leader i)

/-- The models of a network in which a domain was narrowed. -/
theorem model_setDomain (hs : net.Sound) (hi : i < net.size) {p : Int → Prop}
    (hd : ∀ w, w ∈ d ↔ w ∈ net.domain i ∧ p w) :
    (net.setDomain i d).Model σ ↔ net.Model σ ∧ p (σ i) := by
  have hdomain : ∀ j, σ j ∈ (net.setDomain i d).domain j ↔
      σ j ∈ net.domain j ∧ (j = i → p (σ i)) := by
    intro j
    rw [domain_setDomain d (hs.size_domains.symm ▸ hi)]
    split
    · next hji => simp [hji, hd]
    · next hji => simp [hji]
  refine ⟨?_, ?_⟩
  · intro hm
    refine ⟨⟨fun j hj => ((hdomain j).1 (hm.mem j hj)).1, hm.equal, hm.distinct⟩, ?_⟩
    exact ((hdomain i).1 (hm.mem i hi)).2 rfl
  · intro h
    obtain ⟨hm, hp⟩ := h
    exact ⟨fun j hj => (hdomain j).2 ⟨hm.mem j hj, fun _ => hp⟩, hm.equal, hm.distinct⟩

/-! ## The network in which nothing is known -/

theorem domain_ofVariables (vars : Array Variable) (hi : i < vars.size) :
    (ofVariables vars).domain i = Domain.ofVariable vars[i] := by
  simp [ofVariables, domain, Array.getD_eq_getD_getElem?, hi]

theorem leader_ofVariables (vars : Array Variable) (i : Nat) : (ofVariables vars).leader i = i := by
  simp only [ofVariables, leader, Array.getD_eq_getD_getElem?, Array.getElem?_range]
  split <;> rfl

theorem sound_ofVariables (vars : Array Variable) : (ofVariables vars).Sound where
  size_domains := by simp [ofVariables, size]
  size_leaders := by simp [ofVariables, size]
  normal i := by
    rcases Nat.lt_or_ge i vars.size with hi | hi
    · rw [domain_ofVariables vars hi]
      exact Domain.normal_ofVariable _
    · rw [domain_of_size_le (by simpa [ofVariables] using hi)]
      exact Domain.normal_empty
  sound_equal := Graph.sound_edgeless _
  sound_distinct := Graph.sound_edgeless _
  leader_lt i hi := by rwa [leader_ofVariables]

end Network

end FiniteDomain
