import FiniteDomain.Proofs.DomainForm
import Mathlib

/-!
# The values of a domain, one by one

Enumerating a domain lists its values, each once, in the order asked for, and its
size is the length of that list. Everything the solvers do with single values rests
on these facts: the search tries the listed values, a witness takes the first of
them, and comparing a size with a number of neighbours is counting.
-/

namespace FiniteDomain

/-- Does `v` come before `w` in the given order? -/
def ValueOrder.Before : ValueOrder → Int → Int → Prop
  | .ascending, v, w => v < w
  | .descending, v, w => w < v

/-- Among the values with property `p`, is `v` one that no other comes before? -/
def ValueOrder.IsFirst (order : ValueOrder) (p : Int → Prop) (v : Int) : Prop :=
  p v ∧ ∀ w, p w → ¬ order.Before w v

namespace Interval

variable {a : Interval} {v : Int}

theorem size_pos (a : Interval) : 0 < a.size := by
  have ha := a.lo_le_hi
  unfold size
  omega

theorem length_ascending (a : Interval) : a.ascending.length = a.size := by
  simp [ascending]

theorem length_descending (a : Interval) : a.descending.length = a.size := by
  simp [descending]

theorem mem_ascending : v ∈ a.ascending ↔ v ∈ a := by
  simp only [ascending, List.mem_map, List.mem_range, mem_def, size]
  refine ⟨?_, ?_⟩
  · intro h
    obtain ⟨k, hk, rfl⟩ := h
    omega
  · intro h
    exact ⟨(v - a.lo).toNat, by omega, by omega⟩

theorem mem_descending : v ∈ a.descending ↔ v ∈ a := by
  simp only [descending, List.mem_map, List.mem_range, mem_def, size]
  refine ⟨?_, ?_⟩
  · intro h
    obtain ⟨k, hk, rfl⟩ := h
    omega
  · intro h
    exact ⟨(a.hi - v).toNat, by omega, by omega⟩

theorem pairwise_ascending (a : Interval) : a.ascending.Pairwise (· < ·) := by
  refine List.Pairwise.map _ ?_ List.pairwise_lt_range
  intro k l hkl
  omega

theorem pairwise_descending (a : Interval) : a.descending.Pairwise (· > ·) := by
  refine List.Pairwise.map _ ?_ List.pairwise_lt_range
  intro k l hkl
  omega

theorem head?_ascending (a : Interval) : a.ascending.head? = some a.lo := by
  have ha := size_pos a
  rw [ascending, List.head?_map, List.head?_range, if_neg (by omega)]
  simp

theorem head?_descending (a : Interval) : a.descending.head? = some a.hi := by
  have ha := size_pos a
  rw [descending, List.head?_map, List.head?_range, if_neg (by omega)]
  simp

end Interval

namespace Domain

variable {d : Domain} {order : ValueOrder} {v : Int}

@[simp]
theorem mem_values : v ∈ d.values order ↔ v ∈ d := by
  cases order with
  | ascending => simp only [values, List.mem_flatMap, Interval.mem_ascending, mem_def]
  | descending =>
      simp only [values, List.mem_flatMap, List.mem_reverse, Interval.mem_descending, mem_def]

theorem length_flatMap_ascending (as : List Interval) :
    (as.flatMap Interval.ascending).length = (⟨as⟩ : Domain).size := by
  induction as with
  | nil => rfl
  | cons a as ih =>
      rw [List.flatMap_cons, List.length_append, ih, Interval.length_ascending]
      rfl

theorem length_values (d : Domain) (order : ValueOrder) : (d.values order).length = d.size := by
  have hasc := length_flatMap_ascending d.intervals
  cases order with
  | ascending => exact hasc
  | descending =>
      have hperm := (List.reverse_perm d.intervals).flatMap_right Interval.descending
      rw [values, hperm.length_eq, ← hasc, List.length_flatMap, List.length_flatMap]
      simp only [Interval.length_ascending, Interval.length_descending]

/-- The gaps of a normal list keep the values of its intervals in order. -/
theorem Normal.pairwise_values (hd : d.Normal) (order : ValueOrder) :
    (d.values order).Pairwise order.Before := by
  cases order with
  | ascending =>
      refine List.pairwise_flatMap.2 ⟨fun a _ => Interval.pairwise_ascending a, ?_⟩
      refine List.Pairwise.imp ?_ hd
      intro a b hab v hv w hw
      have hv := (Interval.mem_ascending.1 hv).2
      have hw := (Interval.mem_ascending.1 hw).1
      exact show v < w by omega
  | descending =>
      refine List.pairwise_flatMap.2 ⟨fun a _ => Interval.pairwise_descending a, ?_⟩
      refine List.pairwise_reverse.2 (List.Pairwise.imp ?_ hd)
      intro a b hab v hv w hw
      have hv := (Interval.mem_descending.1 hv).1
      have hw := (Interval.mem_descending.1 hw).2
      exact show w < v by omega

theorem Normal.nodup_values (hd : d.Normal) (order : ValueOrder) : (d.values order).Nodup := by
  refine (hd.pairwise_values order).imp ?_
  intro v w hvw
  cases order with
  | ascending => exact ne_of_lt hvw
  | descending => exact ne_of_gt hvw

/-- The size of a domain is the number of values in it. -/
theorem Normal.card_values (hd : d.Normal) (order : ValueOrder) :
    (d.values order).toFinset.card = d.size := by
  rw [List.toFinset_card_of_nodup (hd.nodup_values order), length_values]

theorem size_eq_zero_iff : d.size = 0 ↔ d.isEmpty = true := by
  rw [← length_values d .ascending, List.length_eq_zero_iff, isEmpty_iff,
    List.eq_nil_iff_forall_not_mem]
  simp only [mem_values]

/-- On a normal list a size of one shows in the shape of the list. -/
theorem Normal.size_eq_one_iff (hd : d.Normal) : d.size = 1 ↔ d.isSingleton = true := by
  refine ⟨fun h => ?_, fun h => ?_⟩
  · rw [← length_values d .ascending, List.length_eq_one_iff] at h
    obtain ⟨v, hv⟩ := h
    refine (isSingleton_iff hd).2 ⟨v, fun w => ?_⟩
    have hlisted : w ∈ d.values .ascending ↔ w ∈ d := mem_values
    rw [← hlisted, hv, List.mem_singleton]
  · obtain ⟨v, rfl⟩ := eq_singleton_of_isSingleton h
    simp [size, singleton, ofInterval, Interval.size, Interval.point]

/-- A domain with more values than a set has a value outside it. -/
theorem Normal.exists_mem_not_mem (hd : d.Normal) {s : Finset Int} (h : s.card < d.size) :
    ∃ v, v ∈ d ∧ v ∉ s := by
  rw [← hd.card_values .ascending] at h
  obtain ⟨v, hv, hvs⟩ := Finset.exists_mem_notMem_of_card_lt_card h
  exact ⟨v, by simpa using hv, hvs⟩

theorem first?_eq_head? (d : Domain) (order : ValueOrder) :
    d.first? order = (d.values order).head? := by
  obtain ⟨as⟩ := d
  cases order with
  | ascending =>
      cases as with
      | nil => rfl
      | cons a as =>
          rw [values, List.flatMap_cons, List.head?_append, Interval.head?_ascending]
          rfl
  | descending =>
      rw [first?, max?, values, ← List.head?_reverse]
      cases as.reverse with
      | nil => rfl
      | cons a bs =>
          rw [List.flatMap_cons, List.head?_append, Interval.head?_descending]
          rfl

/-- There is a first value unless there is none at all, and nothing comes before it. -/
theorem Normal.first?_eq_some_iff (hd : d.Normal) :
    d.first? order = some v ↔ order.IsFirst (· ∈ d) v := by
  have hpair := hd.pairwise_values order
  have hlisted : ∀ w, w ∈ d ↔ w ∈ d.values order := fun w => mem_values.symm
  rw [first?_eq_head?]
  simp only [ValueOrder.IsFirst, hlisted]
  cases hvs : d.values order with
  | nil => simp
  | cons u us =>
      rw [hvs] at hpair
      obtain ⟨hu, -⟩ := List.pairwise_cons.1 hpair
      rw [List.head?_cons, Option.some.injEq]
      refine ⟨?_, ?_⟩
      · intro h
        subst h
        refine ⟨List.mem_cons_self, ?_⟩
        intro w hw hbefore
        rcases List.mem_cons.1 hw with rfl | hw
        · cases order <;> exact lt_irrefl _ hbefore
        · have := hu w hw
          cases order <;> exact lt_asymm this hbefore
      · intro h
        obtain ⟨hv, hfirst⟩ := h
        rcases List.mem_cons.1 hv with rfl | hv
        · rfl
        · exact absurd (hu v hv) (hfirst u List.mem_cons_self)

theorem first?_eq_none_iff : d.first? order = none ↔ ∀ v, v ∉ d := by
  rw [first?_eq_head?, List.head?_eq_none_iff, List.eq_nil_iff_forall_not_mem]
  simp only [mem_values]

end Domain

end FiniteDomain
