import FiniteDomain.Domain.Basic
import Mathlib

/-!
# Domains are sets in normal form

Every operation on domains is pinned down twice: by the set of values it leaves,
read through membership, and by the form of the list, which stays normal. The two
are kept apart because most set equations hold of any list, while the walks along
two lists at once are right only on normal ones: a walk drops the interval that
ends first, and only the gaps say that nothing later can reach back to it.

Normal form is what makes a set have one list. `eq_of_mem_iff` says so, and it is
the reason why tests that look at the shape of a list, such as `isSingleton`, are
tests of the set.
-/

namespace FiniteDomain

namespace Interval

variable {a b c : Interval} {v : Int}

@[simp]
theorem mem_point {v w : Int} : w ∈ point v ↔ w = v := by
  simp only [mem_def, point]
  omega

theorem between?_eq_none {lo hi : Int} : between? lo hi = none ↔ hi < lo := by
  unfold between?
  split
  · next h => simpa using h
  · next h => simpa using h

theorem exists_mem_between? {lo hi : Int} :
    (∃ a ∈ (between? lo hi).toList, v ∈ a) ↔ lo ≤ v ∧ v ≤ hi := by
  cases h : between? lo hi with
  | none =>
      have := between?_eq_none.1 h
      simp
      omega
  | some a => simpa using mem_of_between? h

theorem bounds_of_mem_between? {lo hi : Int} (h : a ∈ (between? lo hi).toList) :
    a.lo = lo ∧ a.hi = hi := by
  unfold between? at h
  split at h
  · simp only [Option.toList_some, List.mem_singleton] at h
    rw [h]
    exact ⟨rfl, rfl⟩
  · cases h

theorem exists_mem_intersect? : (∃ c ∈ (a.intersect? b).toList, v ∈ c) ↔ v ∈ a ∧ v ∈ b := by
  rw [intersect?, exists_mem_between?, mem_def, mem_def]
  omega

theorem mem_of_intersect? (h : a.intersect? b = some c) : v ∈ c ↔ v ∈ a ∧ v ∈ b := by
  rw [intersect?] at h
  rw [mem_of_between? h, mem_def, mem_def]
  omega

theorem bounds_of_intersect? (h : a.intersect? b = some c) :
    c.lo = max a.lo b.lo ∧ c.hi = min a.hi b.hi := by
  apply bounds_of_mem_between?
  rw [intersect?] at h
  rw [h]
  simp

theorem overlaps_eq (a b : Interval) : a.overlaps b = (a.intersect? b).isSome := by
  have ha := a.lo_le_hi
  have hb := b.lo_le_hi
  rw [Bool.eq_iff_iff, overlaps, intersect?, between?, Bool.and_eq_true, decide_eq_true_eq,
    decide_eq_true_eq]
  split
  · next h =>
      simp only [Option.isSome_some, iff_true]
      omega
  · next h =>
      simp only [Option.isSome_none, Bool.false_eq_true, iff_false]
      omega

theorem exists_mem_minus : (∃ c ∈ a.minus b, v ∈ c) ↔ v ∈ a ∧ v ∉ b := by
  simp only [minus, List.mem_append, or_and_right, exists_or]
  rw [exists_mem_between?, exists_mem_between?, mem_def, mem_def]
  have hb := b.lo_le_hi
  omega

theorem bounds_of_mem_minus (h : c ∈ a.minus b) : a.lo ≤ c.lo ∧ c.hi ≤ a.hi := by
  rcases List.mem_append.1 h with h | h
  · have := bounds_of_mem_between? h
    omega
  · have := bounds_of_mem_between? h
    omega

theorem pairwise_minus (a b : Interval) :
    (a.minus b).Pairwise fun c d => c.hi + 1 < d.lo := by
  refine List.pairwise_append.2 ⟨?_, ?_, ?_⟩
  · cases between? a.lo (min a.hi (b.lo - 1)) <;> simp
  · cases between? (max a.lo (b.hi + 1)) a.hi <;> simp
  · intro c hc d hd
    have hc := bounds_of_mem_between? hc
    have hd := bounds_of_mem_between? hd
    have hb := b.lo_le_hi
    omega

end Interval

namespace Domain

variable {d e : Domain} {a b : Interval} {as bs : List Interval} {v : Int}

/-! ## Lists of intervals -/

theorem mem_cons : v ∈ (⟨a :: as⟩ : Domain) ↔ v ∈ a ∨ v ∈ (⟨as⟩ : Domain) := by
  simp [mem_def]

theorem not_mem_nil : v ∉ (⟨[]⟩ : Domain) := by
  simp [mem_def]

theorem mem_append : v ∈ (⟨as ++ bs⟩ : Domain) ↔ v ∈ (⟨as⟩ : Domain) ∨ v ∈ (⟨bs⟩ : Domain) := by
  simp only [mem_def, List.mem_append, or_and_right, exists_or]

theorem normal_cons :
    Normal ⟨a :: as⟩ ↔ (∀ b ∈ as, a.hi + 1 < b.lo) ∧ Normal ⟨as⟩ :=
  List.pairwise_cons

theorem normal_nil : Normal ⟨[]⟩ := List.Pairwise.nil

/-- Past its first interval a normal list has only larger values. -/
theorem Normal.lt_of_mem_tail (h : Normal ⟨a :: as⟩) (hv : v ∈ (⟨as⟩ : Domain)) :
    a.hi + 1 < v := by
  obtain ⟨b, hb, hvb⟩ := hv
  have hab := (normal_cons.1 h).1 b hb
  have hlo := hvb.1
  omega

theorem Normal.le_of_mem (h : Normal ⟨a :: as⟩) (hv : v ∈ (⟨a :: as⟩ : Domain)) : a.lo ≤ v := by
  rcases mem_cons.1 hv with hva | hvs
  · exact hva.1
  · have hgap := h.lt_of_mem_tail hvs
    have ha := a.lo_le_hi
    omega

/-! ## Domains as they are built -/

theorem normal_ofInterval (a : Interval) : (ofInterval a).Normal :=
  List.pairwise_singleton _ a

theorem mem_ofInterval : v ∈ ofInterval a ↔ v ∈ a := by
  simp [mem_def, ofInterval]

theorem normal_empty : empty.Normal := normal_nil

theorem normal_singleton (v : Int) : (singleton v).Normal := normal_ofInterval _

@[simp]
theorem mem_singleton {v w : Int} : w ∈ singleton v ↔ w = v := by
  rw [singleton, mem_ofInterval, Interval.mem_point]

theorem mem_ofWidth {width : Nat} : v ∈ ofWidth width ↔ 0 ≤ v ∧ v ≤ maxOfWidth width :=
  mem_ofInterval

theorem normal_ofVariable (x : Variable) : (ofVariable x).Normal := by
  unfold ofVariable
  split
  · exact normal_singleton _
  · exact normal_ofInterval _

/-- A variable starts with its known value, or with all values of its width. -/
theorem mem_ofVariable {x : Variable} :
    v ∈ ofVariable x ↔ x.admits v = true ∧ ∀ w ∈ x.value?, v = w := by
  have hadmits : x.admits v = true ↔ 0 ≤ v ∧ v ≤ maxOfWidth x.width := by
    rw [Variable.admits, Bool.and_eq_true, decide_eq_true_eq, decide_eq_true_eq]
    rfl
  rw [hadmits]
  unfold ofVariable
  split
  · next w hw =>
      have hfits := x.value_fits w hw
      rw [mem_singleton, hw]
      simp only [Option.mem_def, Option.some.injEq, forall_eq']
      refine ⟨?_, ?_⟩
      · intro h
        subst h
        exact ⟨hfits, rfl⟩
      · exact And.right
  · next hnone =>
      rw [mem_ofWidth, hnone]
      simp

/-! ## One list for one set -/

/-- Two normal domains with the same values are the same list of intervals. -/
theorem eq_of_mem_iff (hd : d.Normal) (he : e.Normal) (h : ∀ v, v ∈ d ↔ v ∈ e) : d = e := by
  obtain ⟨as⟩ := d
  obtain ⟨bs⟩ := e
  congr 1
  induction as generalizing bs with
  | nil =>
      cases bs with
      | nil => rfl
      | cons b bs =>
          exact absurd ((h b.lo).2 (mem_cons.2 (Or.inl ⟨le_rfl, b.lo_le_hi⟩))) not_mem_nil
  | cons a as ih =>
      cases bs with
      | nil => exact absurd ((h a.lo).1 (mem_cons.2 (Or.inl ⟨le_rfl, a.lo_le_hi⟩))) not_mem_nil
      | cons b bs =>
          -- The first intervals start at the least value and end at the first gap.
          have hlo : a.lo = b.lo := by
            have hab := hd.le_of_mem ((h b.lo).2 (mem_cons.2 (Or.inl ⟨le_rfl, b.lo_le_hi⟩)))
            have hba := he.le_of_mem ((h a.lo).1 (mem_cons.2 (Or.inl ⟨le_rfl, a.lo_le_hi⟩)))
            omega
          have hhi : a.hi = b.hi := by
            have ha := a.lo_le_hi
            have hb := b.lo_le_hi
            rcases Int.lt_trichotomy a.hi b.hi with hlt | heq | hgt
            · have hmem := (h (a.hi + 1)).2 (mem_cons.2 (Or.inl ⟨by omega, by omega⟩))
              rcases mem_cons.1 hmem with hin | hin
              · have := hin.2
                omega
              · have := hd.lt_of_mem_tail hin
                omega
            · exact heq
            · have hmem := (h (b.hi + 1)).1 (mem_cons.2 (Or.inl ⟨by omega, by omega⟩))
              rcases mem_cons.1 hmem with hin | hin
              · have := hin.2
                omega
              · have := he.lt_of_mem_tail hin
                omega
          have hab : a = b := by
            cases a
            cases b
            congr
          subst hab
          congr 1
          refine ih (normal_cons.1 hd).2 bs (normal_cons.1 he).2 fun v => ?_
          refine ⟨?_, ?_⟩
          · intro hv
            rcases mem_cons.1 ((h v).1 (mem_cons.2 (Or.inr hv))) with hin | hin
            · have := hin.2
              have := hd.lt_of_mem_tail hv
              omega
            · exact hin
          · intro hv
            rcases mem_cons.1 ((h v).2 (mem_cons.2 (Or.inr hv))) with hin | hin
            · have := hin.2
              have := he.lt_of_mem_tail hv
              omega
            · exact hin

theorem isEmpty_iff : d.isEmpty = true ↔ ∀ v, v ∉ d := by
  rw [isEmpty, List.isEmpty_iff]
  refine ⟨?_, ?_⟩
  · intro h v h
    obtain ⟨a, ha, -⟩ := h
    rw [h] at ha
    cases ha
  · intro h
    rw [List.eq_nil_iff_forall_not_mem]
    intro a ha
    exact h a.lo ⟨a, ha, le_rfl, a.lo_le_hi⟩

theorem isEmpty_eq_false_iff : d.isEmpty = false ↔ ∃ v, v ∈ d := by
  rw [← Bool.not_eq_true, isEmpty_iff]
  simp

theorem isSingleton_singleton (v : Int) : (singleton v).isSingleton = true := by
  simp [isSingleton, singleton, ofInterval, Interval.isPoint, Interval.point]

theorem eq_singleton_of_isSingleton (h : d.isSingleton = true) : ∃ v, d = singleton v := by
  obtain ⟨as⟩ := d
  unfold isSingleton at h
  split at h
  · next a heq =>
      obtain ⟨lo, hi, hle⟩ := a
      have hpoint : lo = hi := by simpa [Interval.isPoint] using h
      subst hpoint
      exact ⟨lo, congrArg Domain.mk heq⟩
  · cases h

/-- On a normal list the test for a single value is one of the set. -/
theorem isSingleton_iff (hd : d.Normal) :
    d.isSingleton = true ↔ ∃ v, ∀ w, w ∈ d ↔ w = v := by
  refine ⟨?_, ?_⟩
  · intro h
    obtain ⟨v, rfl⟩ := eq_singleton_of_isSingleton h
    exact ⟨v, fun w => mem_singleton⟩
  · intro h
    obtain ⟨v, hv⟩ := h
    have heq : d = singleton v :=
      eq_of_mem_iff hd (normal_singleton v) fun w => (hv w).trans mem_singleton.symm
    rw [heq]
    exact isSingleton_singleton v

/-! ## Keeping values -/

theorem mem_intersectInterval : v ∈ d.intersectInterval a ↔ v ∈ d ∧ v ∈ a := by
  simp only [intersectInterval, mem_def, List.mem_filterMap]
  refine ⟨?_, ?_⟩
  · intro h
    obtain ⟨c, ⟨b, hb, hc⟩, hv⟩ := h
    obtain ⟨hvb, hva⟩ := (Interval.mem_of_intersect? hc).1 hv
    exact ⟨⟨b, hb, hvb⟩, hva⟩
  · intro h
    obtain ⟨⟨b, hb, hvb⟩, hva⟩ := h
    obtain ⟨c, hc, hvc⟩ := Interval.exists_mem_intersect?.2 ⟨hvb, hva⟩
    exact ⟨c, ⟨b, hb, by simpa using hc⟩, hvc⟩

theorem Normal.intersectInterval (hd : d.Normal) (a : Interval) :
    (d.intersectInterval a).Normal := by
  refine List.Pairwise.filterMap _ ?_ hd
  intro b c hbc b' hb c' hc
  have hb := Interval.bounds_of_intersect? hb
  have hc := Interval.bounds_of_intersect? hc
  omega

/-- Each piece of a walk along two lists lies in an interval of either list. -/
theorem exists_of_mem_meet {c : Interval} (h : c ∈ meet as bs) :
    ∃ a ∈ as, ∃ b ∈ bs, a.intersect? b = some c := by
  induction as generalizing bs with
  | nil => simp [meet] at h
  | cons a as ih =>
      rw [meet] at h
      induction bs with
      | nil => simp [meetWith] at h
      | cons b bs ihb =>
          rw [meetWith, List.mem_append] at h
          rcases h with h | h
          · exact ⟨a, List.mem_cons_self, b, List.mem_cons_self, by simpa using h⟩
          · split at h
            · obtain ⟨a', ha', b', hb', hc⟩ := ih h
              exact ⟨a', List.mem_cons_of_mem _ ha', b', hb', hc⟩
            · obtain ⟨a', ha', b', hb', hc⟩ := ihb h
              exact ⟨a', ha', b', List.mem_cons_of_mem _ hb', hc⟩

theorem mem_meet (ha : Normal ⟨as⟩) (hb : Normal ⟨bs⟩) :
    v ∈ (⟨meet as bs⟩ : Domain) ↔ v ∈ (⟨as⟩ : Domain) ∧ v ∈ (⟨bs⟩ : Domain) := by
  refine ⟨?_, ?_⟩
  · intro h
    obtain ⟨c, hc, hv⟩ := h
    obtain ⟨a, ha, b, hb, habc⟩ := exists_of_mem_meet hc
    obtain ⟨hva, hvb⟩ := (Interval.mem_of_intersect? habc).1 hv
    exact ⟨⟨a, ha, hva⟩, ⟨b, hb, hvb⟩⟩
  · induction as generalizing bs with
    | nil => exact fun h => absurd h.1 not_mem_nil
    | cons a as ih =>
        rw [meet]
        induction bs with
        | nil => exact fun h => absurd h.2 not_mem_nil
        | cons b bs ihb =>
            intro h
            obtain ⟨hva, hvb⟩ := h
            rw [meetWith]
            rcases mem_cons.1 hva with hva' | hvas
            · rcases mem_cons.1 hvb with hvb' | hvbs
              · obtain ⟨c, hc, hvc⟩ := Interval.exists_mem_intersect?.2 ⟨hva', hvb'⟩
                exact mem_append.2 (Or.inl ⟨c, hc, hvc⟩)
              · -- The value lies beyond `b`, so it is `b` that ends first.
                have hgap := hb.lt_of_mem_tail hvbs
                have hle := hva'.2
                rw [if_neg (by omega)]
                exact mem_append.2 (Or.inr (ihb (normal_cons.1 hb).2 ⟨hva, hvbs⟩))
            · have hgap := ha.lt_of_mem_tail hvas
              split
              · exact mem_append.2 (Or.inr (ih (normal_cons.1 ha).2 hb ⟨hvas, hvb⟩))
              · next hend =>
                  rcases mem_cons.1 hvb with hvb' | hvbs
                  · have hle := hvb'.2
                    omega
                  · exact mem_append.2 (Or.inr (ihb (normal_cons.1 hb).2 ⟨hva, hvbs⟩))

theorem normal_meet (ha : Normal ⟨as⟩) (hb : Normal ⟨bs⟩) : Normal ⟨meet as bs⟩ := by
  induction as generalizing bs with
  | nil => simpa [meet] using normal_nil
  | cons a as ih =>
      rw [meet]
      induction bs with
      | nil => exact normal_nil
      | cons b bs ihb =>
          rw [meetWith]
          refine List.pairwise_append.2 ⟨?_, ?_, ?_⟩
          · cases a.intersect? b <;> simp
          · split
            · exact ih (normal_cons.1 ha).2 hb
            · exact ihb (normal_cons.1 hb).2
          · intro c hc c' hc'
            have hc := Interval.bounds_of_intersect? (by simpa using hc)
            split at hc'
            · obtain ⟨a', ha', b', -, h⟩ := exists_of_mem_meet hc'
              have hgap := (normal_cons.1 ha).1 a' ha'
              have hc' := Interval.bounds_of_intersect? h
              omega
            · next hend =>
                rw [← meet] at hc'
                obtain ⟨a', -, b', hb', h⟩ := exists_of_mem_meet hc'
                have hgap := (normal_cons.1 hb).1 b' hb'
                have hc' := Interval.bounds_of_intersect? h
                omega

theorem mem_intersect (hd : d.Normal) (he : e.Normal) : v ∈ d.intersect e ↔ v ∈ d ∧ v ∈ e :=
  mem_meet hd he

theorem Normal.intersect (hd : d.Normal) (he : e.Normal) : (d.intersect e).Normal :=
  normal_meet hd he

/-- The walk that only looks for a shared value finds one exactly when the walk that
collects them collects something. -/
theorem touch_eq (as bs : List Interval) : touch as bs = !(meet as bs).isEmpty := by
  induction as generalizing bs with
  | nil => simp [touch, meet]
  | cons a as ih =>
      rw [touch, meet]
      induction bs with
      | nil => rfl
      | cons b bs ihb =>
          rw [touchWith, meetWith, Interval.overlaps_eq]
          cases a.intersect? b with
          | some c => simp
          | none =>
              simp only [Option.isSome_none, Bool.false_or, Option.toList_none, List.nil_append]
              split
              · exact ih _
              · exact ihb

theorem overlaps_eq (d e : Domain) : d.overlaps e = !(d.intersect e).isEmpty := touch_eq _ _

theorem overlaps_iff (hd : d.Normal) (he : e.Normal) :
    d.overlaps e = true ↔ ∃ v, v ∈ d ∧ v ∈ e := by
  rw [overlaps_eq, Bool.not_eq_true', isEmpty_eq_false_iff]
  simp only [mem_intersect hd he]

/-! ## Dropping values -/

theorem mem_excludeInterval : v ∈ d.excludeInterval a ↔ v ∈ d ∧ v ∉ a := by
  simp only [excludeInterval, mem_def, List.mem_flatMap]
  refine ⟨?_, ?_⟩
  · intro h
    obtain ⟨c, ⟨b, hb, hc⟩, hv⟩ := h
    obtain ⟨hvb, hva⟩ := Interval.exists_mem_minus.1 ⟨c, hc, hv⟩
    exact ⟨⟨b, hb, hvb⟩, hva⟩
  · intro h
    obtain ⟨⟨b, hb, hvb⟩, hva⟩ := h
    obtain ⟨c, hc, hvc⟩ := Interval.exists_mem_minus.2 ⟨hvb, hva⟩
    exact ⟨c, ⟨b, hb, hc⟩, hvc⟩

theorem Normal.excludeInterval (hd : d.Normal) (a : Interval) : (d.excludeInterval a).Normal := by
  refine List.pairwise_flatMap.2 ⟨fun b _ => Interval.pairwise_minus b a, ?_⟩
  refine List.Pairwise.imp ?_ hd
  intro b c hbc b' hb c' hc
  have hb := Interval.bounds_of_mem_minus hb
  have hc := Interval.bounds_of_mem_minus hc
  omega

theorem mem_excludeValue {w : Int} : v ∈ d.excludeValue w ↔ v ∈ d ∧ v ≠ w := by
  rw [excludeValue, mem_excludeInterval, Interval.mem_point]

theorem mem_exclude : v ∈ d.exclude e ↔ v ∈ d ∧ v ∉ e := by
  obtain ⟨bs⟩ := e
  unfold exclude
  induction bs generalizing d with
  | nil => simp [not_mem_nil]
  | cons b bs ih =>
      rw [List.foldl_cons, ih, mem_excludeInterval, mem_cons, not_or, and_assoc]

theorem Normal.exclude (hd : d.Normal) (e : Domain) : (d.exclude e).Normal := by
  unfold Domain.exclude
  induction e.intervals generalizing d with
  | nil => exact hd
  | cons b bs ih => exact ih (hd.excludeInterval b)

end Domain

end FiniteDomain
