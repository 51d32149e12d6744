import FiniteDomain.Proofs.ClauseVerdict
import FiniteDomain.Proofs.GraphEmbedding
import FiniteDomain.Proofs.GreedySolution
import Mathlib

/-!
# Networks inside larger networks

Variables that nothing is known about but their declarations may be put in between those of
a network. What was variable `i` is then variable `ρ i`. Whatever a solver does to the one
network it does to the other, in the same order: classes are merged and inequalities
decided at the moved places, the same variable is branched on, the same values are tried
and counted, and a conflict names the same variables.

A variable in between is never touched. It takes part only where a witness is read, and
there it has the first value of its declaration.

`Mirrors` compares two computations and starts from the first: when that returns, so does
the second, with a result that is related to it. It goes through a sequence part by part.
-/

namespace FiniteDomain

variable {α β γ δ : Type}

/-- Whenever the first computation returns, the second one returns what is related to its
result. -/
def Traced.Mirrors (r : α → β → Prop) (x : Traced α) (y : Traced β) : Prop :=
  ∀ a, x.outcome = .ok a → ∃ b, y.outcome = .ok b ∧ r a b

namespace Traced.Mirrors

variable {r : α → β → Prop} {s : γ → δ → Prop} {x : Traced α} {y : Traced β}
  {f : α → Traced γ} {g : β → Traced δ}

theorem of_pure {a : α} {b : β} (h : r a b) : Mirrors r (pure a) (pure b) := by
  intro c hc
  cases hc
  exact ⟨b, rfl, h⟩

theorem bind (h : Mirrors r x y)
    (hnext : ∀ a b, x.outcome = .ok a → y.outcome = .ok b → r a b → Mirrors s (f a) (g b)) :
    Mirrors s (x >>= f) (y >>= g) := by
  intro c hc
  obtain ⟨a, ha, hc⟩ := outcome_bind_eq_ok.1 hc
  obtain ⟨b, hb, hab⟩ := h a ha
  obtain ⟨d, hd, hcd⟩ := hnext a b ha hb hab c hc
  exact ⟨d, outcome_bind_eq_ok.2 ⟨b, hb, hd⟩, hcd⟩

/-- Events do not matter. -/
theorem note {event event' : Event} {f : Unit → Traced γ} {g : Unit → Traced δ}
    (h : Mirrors s (f ()) (g ())) :
    Mirrors s (Traced.note event >>= f) (Traced.note event' >>= g) :=
  bind (of_pure (r := fun _ _ => True) trivial) fun _ _ _ _ _ => h

end Traced.Mirrors

open Traced (Mirrors)

variable {ρ : ℕ ↪o ℕ} {vars vars' : Array Variable} {order : ValueOrder} {settings : Settings}
  {mode : Mode}

/-- Are these the same verdicts, the second one over variables with others put in between? The
others have the first values of their declarations. -/
inductive Verdict.Embeds (ρ : ℕ ↪o ℕ) (vars vars' : Array Variable) (order : ValueOrder)
    (mode : Mode) : Verdict → Verdict → Prop where
  | sat {σ σ' : Nat → Int} (kept : ∀ i < vars.size, σ' (ρ i) = σ i)
      (fresh : ∀ k < vars'.size, k ∉ Set.range ρ →
        order.IsFirst (· ∈ (Network.ofVariables vars').domain k) (σ' k)) :
      Embeds ρ vars vars' order mode (.sat (mode.report vars σ)) (.sat (mode.report vars' σ'))
  | unsat (cause : Conflict) : Embeds ρ vars vars' order mode (.unsat cause) (.unsat cause)
  | unknown (pairs : List (String × String)) :
      Embeds ρ vars vars' order mode (.unknown pairs) (.unknown pairs)

theorem refute_mirrors (cause : Conflict) :
    Mirrors (Verdict.Embeds ρ vars vars' order mode) (refute cause) (refute cause) :=
  Mirrors.note (Mirrors.of_pure (.unsat cause))

namespace Network

/-- Is `net'` the network `net` with untouched variables put in between? -/
structure Embeds (ρ : ℕ ↪o ℕ) (vars vars' : Array Variable) (net net' : Network) : Prop where
  placed : ∀ i, vars'[ρ i]? = vars[i]?
  sound : net.Sound
  sound' : net'.Sound
  vars_eq : net.vars = vars
  vars_eq' : net'.vars = vars'
  domain_eq : ∀ i, net'.domain (ρ i) = net.domain i
  leader_eq : ∀ i, net'.leader (ρ i) = ρ (net.leader i)
  equal : net.equal.Contracts ρ net'.equal
  distinct : net.distinct.Contracts ρ net'.distinct
  untouched_domain : ∀ k ∉ Set.range ρ, net'.domain k = (ofVariables vars').domain k
  untouched_leader : ∀ k ∉ Set.range ρ, net'.leader k = k

end Network

/-- Do the phases end alike? -/
inductive Phase.Embeds (ρ : ℕ ↪o ℕ) (vars vars' : Array Variable) : Phase → Phase → Prop where
  | passed {net net' : Network} (h : Network.Embeds ρ vars vars' net net') :
      Embeds ρ vars vars' (.passed net) (.passed net')
  | stuck {net net' : Network} (cause : Conflict) :
      Embeds ρ vars vars' (.stuck net cause) (.stuck net' cause)

theorem Phase.Embeds.andThen {phase phase' : Phase} {next next' : Network → Phase}
    (h : phase.Embeds ρ vars vars' phase')
    (hnext : ∀ {net net'}, Network.Embeds ρ vars vars' net net' →
      (next net).Embeds ρ vars vars' (next' net')) :
    (phase.andThen next).Embeds ρ vars vars' (phase'.andThen next') := by
  cases h with
  | passed h => exact hnext h
  | stuck cause => exact .stuck cause

namespace Network

variable {net net' : Network} {d : Domain} {i a b head m x : Nat} {members members' : IndexSet}
  {swallowed swallowed' : IndexSet} {ms heads : List Nat} {es : List (Nat × Nat)}

namespace Embeds

section

variable (h : Embeds ρ vars vars' net net')

include h

theorem size_eq : net.size = vars.size := by rw [size, h.vars_eq]

theorem size_eq' : net'.size = vars'.size := by rw [size, h.vars_eq']

theorem lt_iff : ρ i < vars'.size ↔ i < vars.size := by
  rw [← not_iff_not, Nat.not_lt, Nat.not_lt, ← Array.getElem?_eq_none_iff,
    ← Array.getElem?_eq_none_iff, h.placed]

theorem name_eq (i : Nat) : net'.name (ρ i) = net.name i := by
  rw [name, name, h.vars_eq, h.vars_eq', h.placed]

theorem viable_eq (i : Nat) : net'.viable (ρ i) = net.viable i := by
  rw [viable, viable, h.domain_eq]

theorem edges_eq : net'.distinct.edges = net.distinct.edges.map fun e => (ρ e.1, ρ e.2) :=
  h.distinct.edges_eq h.sound.sound_distinct h.sound'.sound_distinct

theorem edgeCount_eq : net'.distinct.edgeCount = net.distinct.edgeCount :=
  h.distinct.edgeCount_eq h.sound.sound_distinct h.sound'.sound_distinct

theorem differences_eq : net'.differences = net.differences := by
  rw [differences, differences, h.edges_eq, List.map_map]
  refine List.map_congr_left fun e _ => ?_
  rw [Function.comp_apply, h.name_eq, h.name_eq]

/-! ## Changing one part -/

theorem setDomain (hi : i < vars.size) (hd : d.Normal) :
    Embeds ρ vars vars' (net.setDomain i d) (net'.setDomain (ρ i) d) := by
  have hlt : i < net.domains.size := by rwa [h.sound.size_domains, h.size_eq]
  have hlt' : ρ i < net'.domains.size := by
    rw [h.sound'.size_domains, h.size_eq']
    exact h.lt_iff.2 hi
  exact
    { h with
      sound := h.sound.setDomain i hd
      sound' := h.sound'.setDomain (ρ i) hd
      domain_eq := fun j => by
        rw [domain_setDomain d hlt, domain_setDomain d hlt', h.domain_eq]
        simp only [ρ.injective.eq_iff]
      untouched_domain := fun k hk => by
        rw [domain_setDomain_ne net' d fun hki => hk ⟨i, hki.symm⟩]
        exact h.untouched_domain k hk }

theorem withDistinct {g g' : Graph} (hg : g.Sound vars.size) (hg' : g'.Sound vars'.size)
    (hcontracts : g.Contracts ρ g') :
    Embeds ρ vars vars' { net with distinct := g } { net' with distinct := g' } :=
  { h with
    sound := h.sound.withDistinct (h.size_eq ▸ hg)
    sound' := h.sound'.withDistinct (h.size_eq' ▸ hg')
    distinct := hcontracts }

theorem sound_distinct : net.distinct.Sound vars.size := h.size_eq ▸ h.sound.sound_distinct

theorem sound_distinct' : net'.distinct.Sound vars'.size := h.size_eq' ▸ h.sound'.sound_distinct

theorem link (ha : a < vars.size) (hb : b < vars.size) (hab : a ≠ b) :
    Embeds ρ vars vars' { net with distinct := net.distinct.link a b }
      { net' with distinct := net'.distinct.link (ρ a) (ρ b) } := by
  have ha' := h.lt_iff.2 ha
  have hb' := h.lt_iff.2 hb
  exact h.withDistinct (h.sound_distinct.link ha hb hab)
    (h.sound_distinct'.link ha' hb' (ρ.injective.ne hab))
    (h.distinct.link h.sound_distinct h.sound_distinct' ha hb ha' hb' hab)

theorem relax (ha : a < vars.size) (hb : b < vars.size) (hab : a ≠ b) :
    Embeds ρ vars vars' (net.relax a b) (net'.relax (ρ a) (ρ b)) := by
  have ha' := h.lt_iff.2 ha
  have hb' := h.lt_iff.2 hb
  exact h.withDistinct (h.sound_distinct.unlink ha hb hab)
    (h.sound_distinct'.unlink ha' hb' (ρ.injective.ne hab))
    (h.distinct.unlink h.sound_distinct h.sound_distinct' ha hb ha' hb' hab)

theorem isolate (a : Nat) : Embeds ρ vars vars' { net with distinct := net.distinct.isolate a }
    { net' with distinct := net'.distinct.isolate (ρ a) } :=
  h.withDistinct (h.sound_distinct.isolate a) (h.sound_distinct'.isolate (ρ a))
    (h.distinct.isolate h.sound_distinct h.sound_distinct' a)

/-! ## Merging a class -/

theorem lead (hhead : head < vars.size) (hms : ∀ m ∈ ms, m < vars.size) :
    Embeds ρ vars vars' (lead head ms net) (lead (ρ head) (ms.map ρ) net') := by
  have hlt : ∀ m ∈ ms, m < net.leaders.size := by
    rwa [h.sound.size_leaders, h.size_eq]
  have hlt' : ∀ m ∈ ms.map ρ, m < net'.leaders.size := by
    rw [h.sound'.size_leaders, h.size_eq', List.forall_mem_map]
    exact fun m hm => h.lt_iff.2 (hms m hm)
  have hsound : ∀ {net : Network} {n : Nat} {ms : List Nat}, net.Sound → n < net.size →
      (∀ m ∈ ms, m < net.leaders.size) → (Network.lead n ms net).Sound := by
    intro net n ms hs hn hms
    refine ⟨hs.size_domains, (leaders_foldl_size _ _ _).trans hs.size_leaders, hs.normal,
      hs.sound_equal, hs.sound_distinct, fun i hi => ?_⟩
    rw [leader_lead hms]
    split
    · exact hn
    · exact hs.leader_lt i hi
  exact
    { h with
      sound := hsound h.sound (h.size_eq ▸ hhead) hlt
      sound' := hsound h.sound' (h.size_eq' ▸ h.lt_iff.2 hhead) hlt'
      leader_eq := fun i => by
        rw [leader_lead hlt, leader_lead hlt', apply_ite ρ, h.leader_eq]
        simp only [List.mem_map_of_injective ρ.injective]
      untouched_leader := fun k hk => by
        have hnot : k ∉ ms.map ρ := fun hmem => by
          obtain ⟨m, -, hm⟩ := List.mem_map.1 hmem
          exact hk ⟨m, hm⟩
        rw [leader_lead hlt', if_neg hnot]
        exact h.untouched_leader k hk }

end

theorem narrow : ∀ {net net' : Network}, Embeds ρ vars vars' net net' → head < vars.size →
    (narrow head ms net).Embeds ρ vars vars' (narrow (ρ head) (ms.map ρ) net') := by
  induction ms with
  | nil => exact fun h _ => .passed h
  | cons m ms ih =>
      intro net net' h hhead
      have hstep := h.setDomain hhead ((h.sound.normal head).intersect (h.sound.normal m))
      rw [List.map_cons, Network.narrow, Network.narrow, h.domain_eq, h.domain_eq]
      simp only [hstep.viable_eq]
      split
      · exact ih hstep hhead
      · rw [hstep.name_eq, hstep.name_eq]
        exact .stuck _

theorem foldl_setDomain (hd : d.Normal) : ∀ {net net' : Network},
    Embeds ρ vars vars' net net' → (∀ m ∈ ms, m < vars.size) →
    Embeds ρ vars vars' (ms.foldl (fun net m => net.setDomain m d) net)
      ((ms.map ρ).foldl (fun net m => net.setDomain m d) net') := by
  induction ms with
  | nil => exact fun h _ => h
  | cons m ms ih =>
      intro net net' h hms
      obtain ⟨hm, hms⟩ := List.forall_mem_cons.1 hms
      exact ih (h.setDomain hm hd) hms

theorem share (h : Embeds ρ vars vars' net net') (hms : ∀ m ∈ ms, m < vars.size) :
    Embeds ρ vars vars' (share head ms net) (share (ρ head) (ms.map ρ) net') := by
  rw [Network.share, Network.share, h.domain_eq]
  exact foldl_setDomain (h.sound.normal head) h hms

section Members

variable (hmembers : IndexSet.Image ρ members members')

include hmembers

theorem redirect {others : List Nat} : ∀ {net net' : Network}, Embeds ρ vars vars' net net' →
    head < vars.size → (∀ o ∈ others, o < vars.size) →
    (redirect head members m others net).Embeds ρ vars vars'
      (redirect (ρ head) members' (ρ m) (others.map ρ) net') := by
  induction others with
  | nil => exact fun h _ _ => .passed h
  | cons o os ih =>
      intro net net' h hhead hos
      obtain ⟨ho, hos⟩ := List.forall_mem_cons.1 hos
      rw [List.map_cons, Network.redirect, Network.redirect, hmembers.contains_eq]
      simp only [ρ.injective.eq_iff]
      split
      · rw [h.name_eq, h.name_eq]
        exact .stuck _
      · next hout =>
          rw [Bool.or_eq_true, decide_eq_true_eq, not_or] at hout
          exact ih (h.link hhead ho (Ne.symm hout.1)) hhead hos

theorem takeOver : ∀ {net net' : Network}, Embeds ρ vars vars' net net' → head < vars.size →
    (takeOver head members ms net).Embeds ρ vars vars'
      (takeOver (ρ head) members' (ms.map ρ) net') := by
  induction ms with
  | nil => exact fun h _ => .passed h
  | cons m ms ih =>
      intro net net' h hhead
      have hothers : ∀ o ∈ (net.distinct.neighbors m).toList, o < vars.size := fun o ho =>
        h.sound_distinct.lt_right (IndexSet.mem_toList.1 ho)
      rw [List.map_cons, Network.takeOver, Network.takeOver]
      simp only [(h.distinct.image_neighbors m).toList_eq]
      exact (redirect hmembers (h.isolate m) hhead hothers).andThen fun h => ih h hhead

theorem gather (h : Embeds ρ vars vars' net net') (hhead : head < vars.size) :
    (gather head members net).Embeds ρ vars vars' (gather (ρ head) members' net') := by
  have hfind : (net'.distinct.neighbors (ρ head)).toList.find? members'.contains =
      ((net.distinct.neighbors head).toList.find? members.contains).map ρ := by
    rw [(h.distinct.image_neighbors head).toList_eq, List.find?_map]
    congr 2
    exact funext hmembers.contains_eq
  rw [Network.gather, Network.gather, hfind, hmembers.toList_eq]
  cases (net.distinct.neighbors head).toList.find? members.contains with
  | none => exact takeOver hmembers h hhead
  | some m =>
      simp only [Option.map_some, h.name_eq]
      exact .stuck _

theorem mergeClass (h : Embeds ρ vars vars' net net') (hhead : head < vars.size)
    (hlt : ∀ m, members.contains m = true → m < vars.size) :
    (mergeClass head members net).Embeds ρ vars vars' (mergeClass (ρ head) members' net') := by
  have hms : ∀ m ∈ members.toList, m < vars.size := fun m hm => hlt m (IndexSet.mem_toList.1 hm)
  rw [Network.mergeClass, Network.mergeClass, hmembers.toList_eq]
  refine (narrow h hhead).andThen fun h => ?_
  refine (gather hmembers (h.share hms) hhead).andThen fun h => ?_
  exact .passed (h.lead hhead hms)

end Members

/-! ## Merging all classes -/

theorem classOf_mirrors (h : Embeds ρ vars vars' net net') (head : Nat) :
    Mirrors (IndexSet.Image ρ) (.ofExcept (net.classOf head))
      (.ofExcept (net'.classOf (ρ head))) := by
  have himage := h.equal.image_component h.sound.sound_equal h.sound'.sound_equal head
  intro members hmembers
  rw [Traced.outcome_ofExcept, classOf] at hmembers
  split at hmembers
  · cases hmembers
  · next hnot =>
      cases hmembers
      refine ⟨_, ?_, himage⟩
      rw [Traced.outcome_ofExcept, classOf, himage.contains_eq]
      exact if_neg hnot

theorem mergeClasses_mirrors : ∀ {swallowed swallowed' : IndexSet} {net net' : Network},
    Embeds ρ vars vars' net net' → IndexSet.Image ρ swallowed swallowed' →
    (∀ i ∈ heads, i < vars.size) →
    Mirrors (Phase.Embeds ρ vars vars') (mergeClasses heads swallowed net)
      (mergeClasses (heads.map ρ) swallowed' net') := by
  induction heads with
  | nil => exact fun h _ _ => Mirrors.of_pure (.passed h)
  | cons head heads ih =>
      intro swallowed swallowed' net net' h hswallowed hheads
      obtain ⟨hhead, hheads⟩ := List.forall_mem_cons.1 hheads
      rw [List.map_cons, mergeClasses, mergeClasses, hswallowed.contains_eq]
      split
      · exact ih h hswallowed hheads
      · refine (h.classOf_mirrors head).bind fun members members' hclass _ himage => ?_
        have hconnected := (classOf_returns h.sound head).of_eq_ok hclass
        have hlt : ∀ m, members.contains m = true → m < vars.size := by
          intro m hm
          obtain ⟨hc, hne⟩ := (hconnected m).1 hm
          exact h.size_eq ▸ hc.lt h.sound.sound_equal hne
        have hmerge := mergeClass himage h hhead hlt
        refine Mirrors.note ?_
        generalize Network.mergeClass head members net = phase at hmerge
        generalize Network.mergeClass (ρ head) members' net' = phase' at hmerge
        cases hmerge with
        | passed h => exact ih h (hswallowed.union himage) hheads
        | stuck cause => exact Mirrors.of_pure (.stuck cause)

theorem clearEqual (h : Embeds ρ vars vars' net net') :
    Embeds ρ vars vars' net.clearEqual net'.clearEqual := by
  have hsound : ∀ {net : Network}, net.Sound → net.clearEqual.Sound := fun hs =>
    ⟨hs.size_domains, hs.size_leaders, hs.normal,
      (adjacent_foldl_isolate hs.sound_equal _ 0 0).1, hs.sound_distinct, hs.leader_lt⟩
  have hnone : ∀ {net : Network}, net.Sound → ∀ a b, ¬net.clearEqual.equal.adjacent a b = true := by
    intro net hs a b hab
    obtain ⟨hab, ha, -⟩ :=
      (adjacent_foldl_isolate hs.sound_equal (List.range net.size) a b).2.1 hab
    exact ha (List.mem_range.2 (hs.sound_equal.lt_left hab))
  exact
    { h with
      sound := hsound h.sound
      sound' := hsound h.sound'
      equal := fun c d => by simp [hnone h.sound, hnone h.sound'] }

theorem collapse_mirrors (h : Embeds ρ vars vars' net net') :
    Mirrors (Phase.Embeds ρ vars vars') net.collapse net'.collapse := by
  have hheads : ∀ i ∈ net.equal.vertices, i < vars.size := fun i hi =>
    h.size_eq ▸ h.sound.sound_equal.lt_of_mem_vertices hi
  rw [collapse, collapse, h.equal.vertices_eq h.sound.sound_equal h.sound'.sound_equal]
  refine (mergeClasses_mirrors h (.withCapacity _ _) hheads).bind ?_
  intro phase phase' _ _ hphase
  cases hphase with
  | stuck cause => exact Mirrors.of_pure (.stuck cause)
  | @passed mid mid' h =>
      have hclear := h.clearEqual
      have hedgeless : mid'.clearEqual.equal.isEdgeless = mid.clearEqual.equal.isEdgeless := by
        rw [Graph.isEdgeless, Graph.isEdgeless,
          hclear.equal.edgeCount_eq hclear.sound.sound_equal hclear.sound'.sound_equal]
      simp only [hedgeless]
      cases mid.clearEqual.equal.isEdgeless with
      | true => exact Mirrors.of_pure (.passed hclear)
      | false =>
          intro phase hphase
          cases hphase

end Embeds

end Network

end FiniteDomain
