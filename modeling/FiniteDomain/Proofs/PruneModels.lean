import FiniteDomain.Proofs.PruneExact
import Mathlib

/-!
# Pruning keeps what fits

A pass over the inequalities is described by what it does to the assignments that fit a
network: none is lost and none is gained, while domains and inequalities only become
fewer. A pass gets stuck only where nothing fits.

The pass looks at domains and inequalities and at nothing else. So the description asks
for nothing but normal domains and a well-formed graph of inequalities; the equalities
and the leaders may be anything, and come out literally as they went in.
-/

namespace FiniteDomain

/-- Changes the network of a phase. -/
def Phase.map (f : Network → Network) : Phase → Phase
  | passed net => passed (f net)
  | stuck net cause => stuck (f net) cause

namespace Network

variable {net net' : Network} {a b loser : Nat} {common : Domain}

/-! ## What a pass does not look at -/

/-- The same network with other equalities and other leaders. -/
def withClasses (net : Network) (g : Graph) (leaders : Array Nat) : Network :=
  { net with equal := g, leaders := leaders }

section Frame

variable (g : Graph) (leaders : Array Nat)

/-- Gives every network that a phase may end with other equalities and leaders. -/
def reclass (x : Except Fault Phase) : Except Fault Phase :=
  x.map (Phase.map fun net => net.withClasses g leaders)

theorem concede_withClasses (net : Network) (a b loser : Nat) (common : Domain) :
    ((net.withClasses g leaders).concede a b loser common).outcome =
      reclass g leaders (net.concede a b loser common).outcome :=
  rfl

theorem decideInequality_withClasses (net : Network) (a b : Nat) :
    ((net.withClasses g leaders).decideInequality a b).outcome =
      reclass g leaders (net.decideInequality a b).outcome := by
  have hdomain : ∀ i, (net.withClasses g leaders).domain i = net.domain i := fun _ => rfl
  unfold decideInequality
  simp only [hdomain]
  split
  · split
    · split
      · rfl
      · exact concede_withClasses g leaders net a b b _
      · exact concede_withClasses g leaders net a b a _
      · rfl
    · rfl
  · rfl

theorem decideInequalities_withClasses (es : List (Nat × Nat)) (net : Network) :
    (decideInequalities es (net.withClasses g leaders)).outcome =
      reclass g leaders (decideInequalities es net).outcome := by
  induction es generalizing net with
  | nil => rfl
  | cons e es ih =>
      obtain ⟨a, b⟩ := e
      rw [decideInequalities, decideInequalities, Traced.outcome_bind, Traced.outcome_bind,
        decideInequality_withClasses]
      cases (net.decideInequality a b).outcome with
      | error fault => rfl
      | ok phase =>
          cases phase with
          | passed mid => exact ih mid
          | stuck mid cause => rfl

/-- Pruning does not look at equalities and leaders, and leaves them as they are. -/
theorem prune_withClasses (net : Network) :
    (net.withClasses g leaders).prune.outcome = reclass g leaders net.prune.outcome :=
  decideInequalities_withClasses g leaders net.distinct.edges net

end Frame

/-! ## The result -/

/-- What is asked of a network that is to be pruned. -/
structure Prunable (net : Network) : Prop where
  size_domains : net.domains.size = net.size
  normal : ∀ i, (net.domain i).Normal
  sound_distinct : net.distinct.Sound net.size

/-- Is `net'` the network `net` with fewer values and fewer inequalities, fitted by the same
assignments? -/
structure Simplifies (net net' : Network) : Prop where
  prunable : net'.Prunable
  fits_iff : ∀ σ, net'.Fits σ ↔ net.Fits σ
  mem_of_mem : ∀ i v, v ∈ net'.domain i → v ∈ net.domain i
  viable : ∀ i, (∃ v, v ∈ net.domain i) → ∃ v, v ∈ net'.domain i
  adjacent_of_adjacent : ∀ i j, net'.distinct.adjacent i j = true →
    net.distinct.adjacent i j = true
  vars_eq : net'.vars = net.vars
  equal_eq : net'.equal = net.equal
  leaders_eq : net'.leaders = net.leaders

/-- Without classes a network that can be pruned has the shape that all operations keep. -/
theorem Prunable.sound_classless (h : net.Prunable) :
    (net.withClasses (.edgeless net.size) (Array.range net.size)).Sound where
  size_domains := h.size_domains
  size_leaders := Array.size_range
  normal := h.normal
  sound_equal := Graph.sound_edgeless _
  sound_distinct := h.sound_distinct
  leader_lt i hi := by
    change (Array.range net.size).getD i i < net.size
    have hi : i < net.size := hi
    simp [Array.getD_eq_getD_getElem?, hi]

theorem Pruned.simplifies {g : Graph} {leaders : Array Nat}
    (h : Pruned (net.withClasses g leaders) net') :
    Simplifies net (net'.withClasses net.equal net.leaders) where
  prunable := ⟨h.sound.size_domains, h.sound.normal, h.sound.sound_distinct⟩
  fits_iff σ := by
    have hfits := h.fits_iff σ
    refine ⟨?_, ?_⟩
    · intro hσ
      obtain ⟨hmem, hdistinct⟩ := hfits.1 ⟨hσ.mem, hσ.distinct⟩
      exact ⟨hmem, hdistinct⟩
    · intro hσ
      obtain ⟨hmem, hdistinct⟩ := hfits.2 ⟨hσ.mem, hσ.distinct⟩
      exact ⟨hmem, hdistinct⟩
  mem_of_mem := h.mem_of_mem
  viable := h.viable
  adjacent_of_adjacent := h.adjacent_of_adjacent
  vars_eq := h.vars_eq
  equal_eq := rfl
  leaders_eq := rfl

/--
Pruning is not refused. If it gets stuck nothing fits the network; otherwise exactly
the same assignments fit as before, no domain or set of inequalities has grown, no
domain has run empty, and equalities and leaders are untouched.
-/
theorem prune_simplifies (h : net.Prunable) :
    ∃ phase, net.prune.outcome = .ok phase ∧
      phase.Ends (Simplifies net) (fun _ => ∀ σ, ¬net.Fits σ) := by
  -- The pass is known on a network of the shape all operations keep: take the classes out,
  -- and put them back into what comes of it.
  obtain ⟨phase, houtcome, hends⟩ := prune_returns h.sound_classless
  have hprune := prune_withClasses net.equal net.leaders
    (net.withClasses (.edgeless net.size) (Array.range net.size))
  rw [houtcome] at hprune
  refine ⟨_, hprune, ?_⟩
  cases phase with
  | passed net' => exact hends.1.simplifies
  | stuck net' cause => exact fun σ hσ => hends.no_fit σ ⟨hσ.mem, hσ.distinct⟩

/-- A value that is passed on: the first variable has one, its neighbour is left with the
other, which the last one then gives up as well. -/
def domino : Network where
  vars := #[.ofWidth "a" 1 Nat.one_pos, .ofWidth "b" 1 Nat.one_pos, .ofWidth "c" 2 Nat.two_pos]
  domains := #[.singleton 1, .ofWidth 1, .ofWidth 2]
  equal := .edgeless 3
  distinct := ((Graph.edgeless 3).link 0 1).link 1 2
  leaders := #[0, 1, 2]

theorem prunable_domino : domino.Prunable where
  size_domains := rfl
  normal i := by
    match i with
    | 0 | 1 | 2 => exact Domain.normal_ofInterval _
    | i + 3 =>
        rw [domain_of_size_le (Nat.le_add_left 3 i)]
        exact Domain.normal_empty
  sound_distinct := ((Graph.sound_edgeless 3).link (by decide) (by decide) (by decide)).link
    (by decide) (by decide) (by decide)

/-- No inequality is left, and the values are used up one after the other. -/
theorem simplifies_domino : ∃ net, domino.prune.outcome = .ok (.passed net) ∧
    Simplifies domino net ∧ net.distinct.isEdgeless = true ∧
    net.domain 1 = .singleton 0 ∧ net.domain 2 = ⟨[⟨1, 3, by decide⟩]⟩ := by
  have hpassed : (match domino.prune.outcome with
      | .ok (.passed net) => net.distinct.isEdgeless && net.domain 1 == .singleton 0 &&
          net.domain 2 == ⟨[⟨1, 3, by decide⟩]⟩
      | _ => false) = true := by
    decide +kernel
  obtain ⟨phase, houtcome, hends⟩ := prune_simplifies prunable_domino
  rw [houtcome] at hpassed
  cases phase with
  | stuck net cause => cases hpassed
  | passed net =>
      simp only [Bool.and_eq_true, beq_iff_eq, and_assoc] at hpassed
      exact ⟨net, houtcome, hends, hpassed⟩

end Network

end FiniteDomain
