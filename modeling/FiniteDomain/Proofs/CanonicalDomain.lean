import FiniteDomain.Proofs.DomainAlgebra
import Mathlib

/-!
# One list for every set of values

Two domains that hold the same values are the same list of intervals, and whether two domains
share a value is found out by a walk along their lists. Both rest on the normal form, in
different ways. Equality needs all of it: two intervals that touch without being joined change
no answer about any value, and would still make a second list for the same set. The walk needs
only that the intervals ascend: when it moves on from the interval that ends first, whatever
follows in the other list lies behind that end.

The union of intervals is taken a second time here, by sorting them by their lower ends and
joining neighbours in one sweep. The sweep never looks back: what it lets go ended before a gap,
and nothing that follows starts earlier. That it makes the list which inserting the intervals
one at a time makes is seen from the values of both and not from their steps.
-/

namespace FiniteDomain

namespace Interval

variable {a b : Interval} {v : Int}

/-- Do two intervals overlap or lie next to each other? -/
def touches (a b : Interval) : Bool := a.lo ≤ b.hi + 1 && b.lo ≤ a.hi + 1

/-- The interval, lengthened to the end of another one. -/
def stretch (a b : Interval) : Interval := ⟨a.lo, max a.hi b.hi, le_max_of_le_left a.lo_le_hi⟩

theorem mem_stretch (hle : a.lo ≤ b.lo) (h : a.touches b = true) :
    v ∈ a.stretch b ↔ v ∈ a ∨ v ∈ b := by
  simp only [touches, Bool.and_eq_true, decide_eq_true_eq] at h
  simp only [mem_def, stretch]
  omega

/-- Of two intervals in order that do not touch, the second starts behind a gap. -/
theorem gap_of_not_touches (hle : a.lo ≤ b.lo) (h : a.touches b = false) : a.hi + 1 < b.lo := by
  have hb := b.lo_le_hi
  simp only [touches, Bool.and_eq_false_iff, decide_eq_false_iff_not] at h
  omega

end Interval

namespace Domain

variable {d e : Domain} {a c : Interval} {as bs : List Interval} {S T : Set Int} {v : Int}

/-! ## Unions by sorting -/

/-- Joins an interval with those that follow it as long as they touch. -/
def fuse (a : Interval) : List Interval → List Interval
  | [] => [a]
  | b :: bs => if a.touches b then fuse (a.stretch b) bs else a :: fuse b bs

/-- Joins the intervals of a list from the front on. -/
def fuseAll : List Interval → List Interval
  | [] => []
  | a :: as => fuse a as

/-- The union of intervals that come in any order, by sorting them. -/
def sweep (as : List Interval) : Domain :=
  ⟨fuseAll (as.mergeSort fun a b => a.lo ≤ b.lo)⟩

/-- Do the intervals come in the order of their lower ends? -/
def Sorted (as : List Interval) : Prop := as.Pairwise fun a b => a.lo ≤ b.lo

theorem Sorted.stretch {b : Interval} (h : Sorted (a :: b :: bs)) :
    Sorted (a.stretch b :: bs) := by
  obtain ⟨ha, hbs⟩ := List.pairwise_cons.1 h
  exact List.pairwise_cons.2
    ⟨fun c hc => ha c (List.mem_cons_of_mem b hc), (List.pairwise_cons.1 hbs).2⟩

theorem mem_fuse (h : Sorted (a :: bs)) :
    v ∈ (⟨fuse a bs⟩ : Domain) ↔ v ∈ (⟨a :: bs⟩ : Domain) := by
  induction bs generalizing a with
  | nil => rfl
  | cons b bs ih =>
      obtain ⟨ha, hbs⟩ := List.pairwise_cons.1 h
      have hab : a.lo ≤ b.lo := ha b List.mem_cons_self
      rw [fuse]
      split
      · next htouch =>
          rw [ih h.stretch, mem_cons, mem_cons, mem_cons, Interval.mem_stretch hab htouch, or_assoc]
      · rw [mem_cons, ih hbs, mem_cons (a := a)]

theorem le_lo_of_mem_fuse (h : Sorted (a :: bs)) (hc : c ∈ fuse a bs) : a.lo ≤ c.lo := by
  induction bs generalizing a with
  | nil =>
      rw [List.mem_singleton.1 hc]
  | cons b bs ih =>
      obtain ⟨ha, hbs⟩ := List.pairwise_cons.1 h
      rw [fuse] at hc
      split at hc
      · -- Stretching an interval leaves its lower end alone.
        exact ih (a := a.stretch b) h.stretch hc
      · rcases List.mem_cons.1 hc with rfl | hc
        · exact le_rfl
        · exact (ha b List.mem_cons_self).trans (ih hbs hc)

theorem normal_fuse (h : Sorted (a :: bs)) : Normal ⟨fuse a bs⟩ := by
  induction bs generalizing a with
  | nil => exact normal_ofInterval a
  | cons b bs ih =>
      obtain ⟨ha, hbs⟩ := List.pairwise_cons.1 h
      have hab : a.lo ≤ b.lo := ha b List.mem_cons_self
      rw [fuse]
      split
      · exact ih h.stretch
      · next hgap =>
          have hgap := Interval.gap_of_not_touches hab (Bool.eq_false_iff.2 hgap)
          refine normal_cons.2 ⟨fun c hc => ?_, ih hbs⟩
          have hbc := le_lo_of_mem_fuse hbs hc
          omega

theorem sorted_mergeSort (as : List Interval) :
    Sorted (as.mergeSort fun a b => a.lo ≤ b.lo) := by
  have hsorted : (as.mergeSort fun a b => a.lo ≤ b.lo).Pairwise
      fun a b => decide (a.lo ≤ b.lo) := by
    apply List.pairwise_mergeSort
    · intro a b c hab hbc
      simp only [decide_eq_true_eq] at hab hbc ⊢
      omega
    · intro a b
      simp only [Bool.or_eq_true, decide_eq_true_eq]
      omega
  exact hsorted.imp fun hab => by simpa using hab

/-- Sorting intervals and joining neighbours comes to the list that inserting them makes. -/
theorem sweep_eq (as : List Interval) : sweep as = ofIntervals as := by
  have hmem : ∀ v, (∃ a ∈ as.mergeSort fun a b => a.lo ≤ b.lo, v ∈ a) ↔ v ∈ ofIntervals as := by
    intro v
    rw [mem_ofIntervals]
    simp only [List.mem_mergeSort]
  have hsorted := sorted_mergeSort as
  unfold sweep
  cases hlist : as.mergeSort fun a b => a.lo ≤ b.lo with
  | nil =>
      rw [hlist] at hmem
      exact eq_of_mem_iff normal_nil (normal_ofIntervals as) hmem
  | cons b bs =>
      rw [hlist] at hmem hsorted
      exact eq_of_mem_iff (normal_fuse hsorted) (normal_ofIntervals as) fun v =>
        (mem_fuse hsorted).trans (hmem v)

/-! ## Equality -/

theorem Built.eq_iff (h : Built d S) (h' : Built e T) : d = e ↔ S = T := by
  refine ⟨fun heq => ?_, fun heq => ?_⟩
  · subst heq
    exact Set.ext fun v => (h.mem_iff v).symm.trans (h'.mem_iff v)
  · subst heq
    exact eq_of_mem_iff h.normal h'.normal fun v => (h.mem_iff v).trans (h'.mem_iff v).symm

theorem mem_foldl_excludeValue {vs : List Int} :
    v ∈ vs.foldl excludeValue d ↔ v ∈ d ∧ v ∉ vs := by
  induction vs generalizing d with
  | nil => simp
  | cons w ws ih =>
      rw [List.foldl_cons, ih, mem_excludeValue, List.mem_cons, not_or, and_assoc]

theorem Normal.foldl_excludeValue (hd : d.Normal) (vs : List Int) :
    (vs.foldl excludeValue d).Normal := by
  induction vs generalizing d with
  | nil => exact hd
  | cons w ws ih => exact ih (hd.excludeInterval (.point w))

/-- Is `d` the one list of intervals for the set `S`, whatever is done in whatever order? -/
structure Canonical (d : Domain) (S : Set Int) : Prop where
  /-- Two domains are one list exactly if no integer is in one and not in the other. -/
  eq_iff : ∀ e T, Built e T → (d = e ↔ ∀ v, d.contains v = e.contains v)
  /-- Intervals with this union make the domain, however its values are cut up, in whatever
  order the intervals come and how often, inserted one by one or sorted and joined. -/
  union_eq : ∀ as : List Interval, (⋃ a ∈ as, a.values) = S → ofIntervals as = d ∧ sweep as = d
  intersect_comm : ∀ e T, Built e T → d.intersect e = e.intersect d
  intersect_assoc : ∀ e T f U, Built e T → Built f U →
    (d.intersect e).intersect f = d.intersect (e.intersect f)
  /-- What fits into a width is not changed when it is cut down to it. -/
  intersect_full : ∀ width all, full width = .ok all →
    (∀ v, d.contains v = true → 0 ≤ v ∧ v ≤ 2 ^ width - 1) → d.intersect all = d
  /-- Neither the order in which values are excluded nor their repetition matters. -/
  exclude_eq : ∀ vs ws : List Int, (∀ v, v ∈ vs ↔ v ∈ ws) →
    vs.foldl excludeValue d = ws.foldl excludeValue d

/--
Domains that were built by any operations are the same list of intervals exactly if they
hold the same values, and so the list does not remember how it came about.
-/
theorem Built.canonical (h : Built d S) : d.Canonical S where
  eq_iff e T h' := by
    refine ⟨fun heq v => by rw [heq], fun heq => eq_of_mem_iff h.normal h'.normal fun v => ?_⟩
    rw [← contains_iff, heq, contains_iff]
  union_eq as has := by
    have hunion : Domain.ofIntervals as = d := ((Built.ofIntervals as).eq_iff h).2 has
    exact ⟨hunion, (sweep_eq as).trans hunion⟩
  intersect_comm e T h' := ((h.intersect h').eq_iff (h'.intersect h)).2 (Set.inter_comm S T)
  intersect_assoc e T f U he hf :=
    (((h.intersect he).intersect hf).eq_iff (h.intersect (he.intersect hf))).2
      (Set.inter_assoc S T U)
  intersect_full width all hall hfits := by
    refine ((h.intersect (.full hall)).eq_iff h).2 (Set.inter_eq_left.2 fun v hv => ?_)
    exact hfits v ((contains_iff d v).2 ((h.mem_iff v).2 hv))
  exclude_eq vs ws hsame := by
    refine eq_of_mem_iff (h.normal.foldl_excludeValue vs) (h.normal.foldl_excludeValue ws) ?_
    intro v
    rw [mem_foldl_excludeValue, mem_foldl_excludeValue, hsame]

/-- The intervals of `scattered` in another order, cut up and in part repeated. -/
def reshuffled : List Interval :=
  [.point 3, ⟨5, 6, by decide⟩, ⟨-2, 0, by decide⟩, ⟨7, 9, by decide⟩, ⟨6, 8, by decide⟩,
    ⟨1, 2, by decide⟩, ⟨5, 6, by decide⟩]

theorem canonical_scattered : ∃ S, Built (ofIntervals scattered) S ∧
    (ofIntervals scattered).Canonical S ∧ (⋃ a ∈ reshuffled, a.values) = S ∧
    sweep reshuffled = ofIntervals scattered ∧
    sweep reshuffled = ⟨[⟨-2, 3, by decide⟩, ⟨5, 9, by decide⟩]⟩ := by
  have hbuilt : Built (ofIntervals scattered) _ := .ofIntervals scattered
  have hcanonical := hbuilt.canonical
  have hunion : (⋃ a ∈ reshuffled, a.values) = ⋃ a ∈ scattered, a.values := by
    ext v
    simp only [reshuffled, scattered, Interval.values, Interval.point, List.mem_cons,
      List.not_mem_nil, or_false, Set.iUnion_iUnion_eq_or_left, Set.iUnion_iUnion_eq_left,
      Set.mem_union, Set.mem_Icc]
    omega
  have hsweep := (hcanonical.union_eq reshuffled hunion).2
  exact ⟨_, hbuilt, hcanonical, hunion, hsweep, hsweep.trans (by decide)⟩

/-! ## Shared values -/

/--
The walk that looks for a shared value finds one exactly if there is one, exactly if the
walk that collects them collects something, and it does not matter from which side it looks.
-/
theorem Built.overlaps_iff_shares (h : Built d S) (h' : Built e T) :
    (d.overlaps e = true ↔ ∃ v, d.contains v = true ∧ e.contains v = true) ∧
      (d.overlaps e = true ↔ (d.intersect e).isEmpty = false) ∧
      (d.overlaps e = true ↔ e.overlaps d = true) := by
  simp only [contains_iff]
  refine ⟨overlaps_iff h.normal h'.normal, ?_, ?_⟩
  · rw [overlaps_eq, Bool.not_eq_true']
  · rw [overlaps_iff h.normal h'.normal, overlaps_iff h'.normal h.normal]
    simp only [and_comm]

/-- Two intervals, the upper one a single value. -/
def parted : Domain := ofIntervals [.point 9, ⟨0, 3, by decide⟩]

/-- What lies between the two, and the single value. -/
def upper : Domain := ofInterval ⟨4, 9, by decide⟩

/-- The two share their last value and no other, and are found to do so from both sides. -/
theorem shares_last : ∃ S T, Built parted S ∧ Built upper T ∧ parted.overlaps upper = true ∧
    upper.overlaps parted = true ∧ (parted.intersect upper).isEmpty = false ∧
    ((parted.excludeValue 9).intersect upper).isEmpty = true := by
  have hparted : Built parted _ := .ofIntervals _
  have hupper : Built upper _ := .ofInterval _
  obtain ⟨hshares, hmeet, hcomm⟩ := hparted.overlaps_iff_shares hupper
  have hoverlap : parted.overlaps upper = true := hshares.2 ⟨9, by decide, by decide⟩
  exact ⟨_, _, hparted, hupper, hoverlap, hcomm.1 hoverlap, hmeet.1 hoverlap, by decide⟩

end Domain

end FiniteDomain
