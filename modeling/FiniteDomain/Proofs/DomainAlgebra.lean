import FiniteDomain.Proofs.DomainForm
import Mathlib

/-!
# Domains compute with finite sets

Whatever way a domain is put together, its intervals are in normal form and it holds
what the same unions, intersections and differences of sets hold. `Built` sets the two
side by side: a domain and the set that it stands for, made in the same steps.

The one operation that has to bring about the normal form, rather than keep it, is the
union of intervals in any order. It inserts them one at a time into a normal list, and
the argument is about a single insertion. The hull that is put in place of two intervals
holds no more than they do because a gap of one integer is needed to keep them apart,
and what the hull absorbed is below all that follows.

A normal list can be searched by halving: seen from any value, the intervals that lie
before it come first and those that lie after it come last, with at most one between.
-/

namespace FiniteDomain

namespace Interval

variable {a b : Interval} {v : Int}

/-- The values of an interval. -/
def values (a : Interval) : Set Int := Set.Icc a.lo a.hi

/-- Where an interval lies, seen from a value: before it, around it or after it. -/
def side (a : Interval) (v : Int) : Ordering :=
  if a.hi < v then .lt else if v < a.lo then .gt else .eq

theorem side_eq_iff : a.side v = .eq ↔ v ∈ a := by
  unfold side
  split
  · next h =>
      rw [mem_def]
      simp
      omega
  · next h =>
      rw [mem_def]
      split <;> simp <;> omega

/-- Seen from a value, of two intervals in order the first lies before it or the second after. -/
theorem side_of_lt (hab : a.hi < b.lo) (v : Int) : a.side v = .lt ∨ b.side v = .gt := by
  have hb := b.lo_le_hi
  rcases Int.lt_or_le a.hi v with hv | hv
  · exact Or.inl (if_pos hv)
  · refine Or.inr ?_
    rw [side, if_neg (by omega), if_pos (by omega)]

/-- Intervals that overlap or touch leave nothing out between them. -/
theorem mem_hull (hab : b.lo ≤ a.hi + 1) (hba : a.lo ≤ b.hi + 1) :
    v ∈ a.hull b ↔ v ∈ a ∨ v ∈ b := by
  simp only [mem_def, hull]
  omega

end Interval

namespace Domain

variable {d e : Domain} {a b : Interval} {as bs : List Interval} {S T : Set Int} {v : Int}
  {width : Nat}

/-! ## Unions of intervals -/

theorem mem_insertInto (a : Interval) (bs : List Interval) :
    v ∈ (⟨insertInto a bs⟩ : Domain) ↔ v ∈ a ∨ v ∈ (⟨bs⟩ : Domain) := by
  induction bs generalizing a with
  | nil => exact mem_cons
  | cons b bs ih =>
      rw [insertInto]
      split
      · exact mem_cons
      · next habove =>
          split
          · rw [mem_cons, mem_cons, ih, or_left_comm]
          · next hbelow =>
              rw [ih, Interval.mem_hull (by omega) (by omega), mem_cons, or_assoc]

/-- What lies below an interval and a list lies below the list with the interval inserted. -/
theorem lt_lo_of_mem_insertInto {c : Interval} {k : Int} (ha : k < a.lo)
    (hbs : ∀ b ∈ bs, k < b.lo) (hc : c ∈ insertInto a bs) : k < c.lo := by
  induction bs generalizing a with
  | nil =>
      rw [List.mem_singleton.1 hc]
      exact ha
  | cons b bs ih =>
      have hb : k < b.lo := hbs b List.mem_cons_self
      have hbs' : ∀ b' ∈ bs, k < b'.lo := fun b' hb' => hbs b' (List.mem_cons_of_mem _ hb')
      rw [insertInto] at hc
      split at hc
      · rcases List.mem_cons.1 hc with rfl | hc
        · exact ha
        · exact hbs c hc
      · split at hc
        · rcases List.mem_cons.1 hc with rfl | hc
          · exact hb
          · exact ih ha hbs' hc
        · exact ih (show k < min a.lo b.lo by omega) hbs' hc

theorem normal_insertInto (a : Interval) (h : Normal ⟨bs⟩) : Normal ⟨insertInto a bs⟩ := by
  induction bs generalizing a with
  | nil => exact normal_ofInterval a
  | cons b bs ih =>
      obtain ⟨hgap, hbs⟩ := normal_cons.1 h
      rw [insertInto]
      split
      · next hlt =>
          refine normal_cons.2 ⟨fun c hc => ?_, h⟩
          rcases List.mem_cons.1 hc with rfl | hc
          · exact hlt
          · have hbc := hgap c hc
            have hb := b.lo_le_hi
            omega
      · split
        · next hlt =>
            exact normal_cons.2 ⟨fun c hc => lt_lo_of_mem_insertInto hlt hgap hc, ih a hbs⟩
        · exact ih (a.hull b) hbs

/-- Inserts intervals into a list that is normal already. -/
theorem foldl_insertInto (as : List Interval) (h : Normal ⟨bs⟩) :
    Normal ⟨as.foldl (fun done a => insertInto a done) bs⟩ ∧
      ∀ v, v ∈ (⟨as.foldl (fun done a => insertInto a done) bs⟩ : Domain) ↔
        (∃ a ∈ as, v ∈ a) ∨ v ∈ (⟨bs⟩ : Domain) := by
  induction as generalizing bs with
  | nil => exact ⟨h, fun v => by simp⟩
  | cons a as ih =>
      obtain ⟨hnormal, hmem⟩ := ih (normal_insertInto a h)
      refine ⟨hnormal, fun v => ?_⟩
      rw [List.foldl_cons, hmem, mem_insertInto, List.exists_mem_cons_iff, or_left_comm, or_assoc]

theorem normal_ofIntervals (as : List Interval) : (ofIntervals as).Normal :=
  (foldl_insertInto as normal_nil).1

theorem mem_ofIntervals : v ∈ ofIntervals as ↔ ∃ a ∈ as, v ∈ a := by
  rw [ofIntervals, (foldl_insertInto as normal_nil).2]
  exact or_iff_left not_mem_nil

/-! ## Domains and sets side by side -/

theorem full_eq_ok_iff : full width = .ok d ↔ 0 < width ∧ d = ofWidth width := by
  unfold full
  split
  · next hzero => simp [hzero]
  · next hpos => simp [Nat.pos_of_ne_zero hpos, eq_comm]

/-- Is `d` made in the same steps as the set `S`? -/
inductive Built : Domain → Set Int → Prop where
  | empty : Built .empty ∅
  | full {width : Nat} {d : Domain} (h : full width = .ok d) :
      Built d (Set.Icc 0 (2 ^ width - 1))
  | singleton (v : Int) : Built (.singleton v) {v}
  | ofInterval (a : Interval) : Built (.ofInterval a) a.values
  | ofIntervals (as : List Interval) : Built (.ofIntervals as) (⋃ a ∈ as, a.values)
  /-- A domain is replaced by another one. -/
  | set {d e : Domain} {S T : Set Int} (h : Built d S) (h' : Built e T) : Built e T
  /-- A domain is replaced by a single value. -/
  | setValue {d : Domain} {S : Set Int} (h : Built d S) (v : Int) : Built (.singleton v) {v}
  | intersectInterval {d : Domain} {S : Set Int} (h : Built d S) (a : Interval) :
      Built (d.intersectInterval a) (S ∩ a.values)
  | intersect {d e : Domain} {S T : Set Int} (h : Built d S) (h' : Built e T) :
      Built (d.intersect e) (S ∩ T)
  | excludeInterval {d : Domain} {S : Set Int} (h : Built d S) (a : Interval) :
      Built (d.excludeInterval a) (S \ a.values)
  | excludeValue {d : Domain} {S : Set Int} (h : Built d S) (v : Int) :
      Built (d.excludeValue v) (S \ {v})
  | exclude {d e : Domain} {S T : Set Int} (h : Built d S) (h' : Built e T) :
      Built (d.exclude e) (S \ T)

theorem Built.normal (h : Built d S) : d.Normal := by
  induction h with
  | empty => exact normal_empty
  | full h =>
      rw [(full_eq_ok_iff.1 h).2]
      exact normal_ofInterval _
  | singleton v => exact normal_singleton v
  | ofInterval a => exact normal_ofInterval a
  | ofIntervals as => exact normal_ofIntervals as
  | set _ _ _ ih => exact ih
  | setValue _ v => exact normal_singleton v
  | intersectInterval _ a ih => exact ih.intersectInterval a
  | intersect _ _ ih ih' => exact ih.intersect ih'
  | excludeInterval _ a ih => exact ih.excludeInterval a
  | excludeValue _ v ih => exact ih.excludeInterval _
  | exclude _ _ ih => exact ih.exclude _

/-- A domain holds the values of the set that was made in the same steps. -/
theorem Built.mem_iff (h : Built d S) (v : Int) : v ∈ d ↔ v ∈ S := by
  induction h with
  | empty => simp [mem_def, Domain.empty]
  | @full width d h =>
      have hmax : maxOfWidth width = 2 ^ width - 1 := by
        rw [maxOfWidth, valueCount, Nat.pow_eq, Nat.cast_pow, Nat.cast_ofNat]
      rw [(full_eq_ok_iff.1 h).2, mem_ofWidth, hmax]
      exact Set.mem_Icc.symm
  | singleton v => exact mem_singleton
  | ofInterval a => exact mem_ofInterval
  | ofIntervals as =>
      rw [mem_ofIntervals, Set.mem_iUnion₂]
      exact exists_congr fun a => exists_prop.symm
  | set _ _ _ ih => exact ih
  | setValue _ v => exact mem_singleton
  | intersectInterval _ a ih =>
      rw [mem_intersectInterval, ih]
      rfl
  | intersect hd he ih ih' =>
      rw [mem_intersect hd.normal he.normal, ih, ih']
      rfl
  | excludeInterval _ a ih =>
      rw [mem_excludeInterval, ih]
      rfl
  | excludeValue _ w ih =>
      rw [mem_excludeValue, ih]
      rfl
  | exclude _ _ ih ih' =>
      rw [mem_exclude, ih, ih']
      rfl

/-! ## The result -/

/-- Is `d` the set `S`, as a list of intervals that is in order and can be searched? -/
structure Refines (d : Domain) (S : Set Int) : Prop where
  ordered : ∀ a ∈ d.intervals, a.lo ≤ a.hi
  /-- The intervals ascend, and at least one integer lies between two of them. -/
  apart : d.intervals.Pairwise fun a b => a.hi + 1 < b.lo
  contains_iff : ∀ v, d.contains v = true ↔ v ∈ S
  /-- Of two intervals the first lies before a value or the second after it. -/
  divided : ∀ v, d.intervals.Pairwise fun a b => a.side v = .lt ∨ b.side v = .gt
  found_iff : ∀ v, (∃ a ∈ d.intervals, a.side v = .eq) ↔ v ∈ S

/--
A domain that was built by any operations in any order is in normal form and holds
exactly what the same operations on sets give, whether its intervals are asked one by
one or the list is halved around a value until one is left.
-/
theorem Built.refines_set (h : Built d S) : d.Refines S where
  ordered a _ := a.lo_le_hi
  apart := h.normal
  contains_iff v := (contains_iff d v).trans (h.mem_iff v)
  divided v := h.normal.imp fun hab => Interval.side_of_lt (by omega) v
  found_iff v := by
    simp only [Interval.side_eq_iff]
    exact h.mem_iff v

/-- Intervals that come out of order, touch and overlap. -/
def scattered : List Interval :=
  [⟨5, 9, by decide⟩, ⟨-2, 1, by decide⟩, ⟨2, 3, by decide⟩, ⟨6, 7, by decide⟩]

/-- The intervals cut down to three bits and then cut apart. -/
def splinters : Domain :=
  (((ofIntervals scattered).intersect (ofWidth 3)).excludeValue 6).exclude
    (.ofInterval ⟨2, 5, by decide⟩)

theorem refines_splinters : ∃ S, Built splinters S ∧ splinters.Refines S ∧
    splinters.intervals = [⟨0, 1, by decide⟩, ⟨7, 7, by decide⟩] ∧ S = {0, 1, 7} := by
  have hcut := (Built.ofIntervals scattered).intersect (@Built.full 3 _ rfl)
  have hbuilt : Built splinters _ := (hcut.excludeValue 6).exclude (.ofInterval _)
  have hform : splinters.intervals = [⟨0, 1, by decide⟩, ⟨7, 7, by decide⟩] := by decide +kernel
  refine ⟨_, hbuilt, hbuilt.refines_set, hform, Set.ext fun v => ?_⟩
  rw [← hbuilt.mem_iff, mem_def, hform]
  simp only [List.exists_mem_cons_iff, List.not_mem_nil, false_and, exists_false, or_false,
    Interval.mem_def, Set.mem_insert_iff, Set.mem_singleton_iff]
  omega

end Domain

end FiniteDomain
