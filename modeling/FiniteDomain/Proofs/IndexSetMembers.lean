import FiniteDomain.IndexSet
import Mathlib

/-!
# Bitmaps are finite sets of indices

An index set is understood through `contains`. Every operation is pinned down by
what it does to that view, and the enumeration is shown to list the view: each
member once, in ascending order.

The cached number of members is not part of the view. `Sound` says that it is
right, and every operation keeps it so. The single-index operations count by one;
the argument for them is that the enumeration of the new set is, up to order, the
enumeration of the old one with the index put in or taken out.
-/

namespace FiniteDomain

namespace IndexSet

/-! ## One word

A word is read through the binary digits of its value; the mask of an index has a
single digit set. -/

theorem toNat_bit (i : Nat) : (bit i).toNat = 2 ^ (i % 64) := by
  have hlt : i % 64 < 64 := Nat.mod_lt _ (by decide)
  have hpow : 2 ^ (i % 64) < 2 ^ 64 := Nat.pow_lt_pow_right (by decide) hlt
  simp only [bit, UInt64.toNat_shiftLeft, Nat.shiftLeft_eq]
  simp
  omega

theorem and_bit_ne_zero (w : UInt64) (i : Nat) :
    (w &&& bit i != 0) = w.toNat.testBit (i % 64) := by
  rw [Bool.eq_iff_iff, bne_iff_ne, ne_eq, ← UInt64.toNat_inj, UInt64.toNat_and,
    toNat_bit, Nat.and_two_pow]
  cases h : w.toNat.testBit (i % 64) <;> simp

theorem testBit_or_bit (w : UInt64) (i k : Nat) :
    (w ||| bit i).toNat.testBit k = (w.toNat.testBit k || decide (i % 64 = k)) := by
  rw [UInt64.toNat_or, Nat.testBit_or, toNat_bit, Nat.testBit_two_pow]

theorem testBit_and_not_bit (w : UInt64) (i : Nat) {k : Nat} (hk : k < 64) :
    (w &&& ~~~ bit i).toNat.testBit k = (w.toNat.testBit k && decide (i % 64 ≠ k)) := by
  have hnot : (~~~ bit i).toNat.testBit k = !(bit i).toNat.testBit k := by
    rw [← UInt64.toNat_toBitVec, ← UInt64.toNat_toBitVec, ← BitVec.getLsbD, ← BitVec.getLsbD,
      UInt64.toBitVec_not, BitVec.getLsbD_not]
    simp [hk]
  rw [UInt64.toNat_and, Nat.testBit_and, hnot, toNat_bit, Nat.testBit_two_pow]
  simp

theorem contains_eq (s : IndexSet) (i : Nat) :
    s.contains i = (s.words.getD (i / 64) 0).toNat.testBit (i % 64) :=
  and_bit_ne_zero _ _

/-- Two indices agree when they lie at one place in one word. -/
theorem eq_of_div_of_mod {i j : Nat} (hd : i / 64 = j / 64) (hm : i % 64 = j % 64) : i = j := by
  omega

/-! ## Members -/

@[simp]
theorem contains_empty (i : Nat) : empty.contains i = false := by
  rw [contains_eq]
  simp [empty]

@[simp]
theorem contains_withCapacity (capacity i : Nat) :
    (withCapacity capacity).contains i = false := by
  rw [contains_eq, withCapacity, Array.getD_eq_getD_getElem?, Array.getElem?_replicate]
  split <;> simp

theorem getD_grow (words : Array UInt64) (n k : Nat) :
    (grow words n).getD k 0 = words.getD k 0 := by
  simp only [grow, Array.getD_eq_getD_getElem?, Array.getElem?_append, Array.getElem?_replicate]
  split
  · rfl
  · next hk =>
      rw [Array.getElem?_eq_none (by omega)]
      split <;> rfl

theorem size_grow (words : Array UInt64) (n : Nat) :
    (grow words n).size = max words.size n := by
  simp only [grow, Array.size_append, Array.size_replicate]
  omega

theorem getD_modify {α : Type} (xs : Array α) (f : α → α) (x : α) {i : Nat}
    (hi : i < xs.size) (k : Nat) :
    (xs.modify i f).getD k x = if i = k then f (xs.getD k x) else xs.getD k x := by
  simp only [Array.getD_eq_getD_getElem?, Array.getElem?_modify]
  split
  · next h =>
      subst h
      simp [hi]
  · rfl

@[simp]
theorem contains_insert (s : IndexSet) (i j : Nat) :
    (s.insert i).contains j = (decide (j = i) || s.contains j) := by
  unfold insert
  split
  · next h =>
      by_cases hj : j = i
      · subst hj
        simp [h]
      · simp [hj]
  · rw [contains_eq, contains_eq, getD_modify _ _ _ (by rw [size_grow]; omega), getD_grow]
    split
    · next hd =>
        rw [testBit_or_bit, Bool.or_comm]
        congr 1
        rw [decide_eq_decide]
        exact ⟨fun hm => (eq_of_div_of_mod hd hm).symm, fun h => by rw [h]⟩
    · next hd =>
        have hj : j ≠ i := fun h => hd (by rw [h])
        simp [hj]

theorem div_lt_size_of_contains {s : IndexSet} {i : Nat} (h : s.contains i = true) :
    i / 64 < s.words.size := by
  by_contra hge
  rw [contains_eq, Array.getD_eq_getD_getElem?, Array.getElem?_eq_none (by omega)] at h
  simp at h

@[simp]
theorem contains_erase (s : IndexSet) (i j : Nat) :
    (s.erase i).contains j = (s.contains j && decide (j ≠ i)) := by
  unfold erase
  split
  · next h =>
      rw [contains_eq, contains_eq, getD_modify _ _ _ (div_lt_size_of_contains h)]
      split
      · next hd =>
          rw [testBit_and_not_bit _ _ (Nat.mod_lt _ (by decide))]
          congr 1
          rw [decide_eq_decide]
          exact ⟨fun hm h => hm (by rw [h]), fun h hm => h (eq_of_div_of_mod hd hm).symm⟩
      · next hd =>
          have hj : j ≠ i := fun h => hd (by rw [h])
          simp [hj]
  · next h =>
      by_cases hj : j = i
      · subst hj
        simp [h]
      · simp [hj]

@[simp]
theorem contains_recount (s : IndexSet) (i : Nat) : s.recount.contains i = s.contains i := rfl

@[simp]
theorem contains_union (s t : IndexSet) (i : Nat) :
    (s.union t).contains i = (s.contains i || t.contains i) := by
  rw [union, contains_recount, contains_eq, contains_eq, contains_eq]
  rw [← getD_grow s.words t.words.size (i / 64), ← Nat.testBit_or, ← UInt64.toNat_or]
  congr 2
  simp only [Array.getD_eq_getD_getElem?, Array.getElem?_mapIdx]
  cases h : (grow s.words t.words.size)[i / 64]? with
  | some w => rfl
  | none =>
      have hsize := Array.getElem?_eq_none_iff.1 h
      rw [size_grow] at hsize
      rw [Array.getElem?_eq_none (show t.words.size ≤ i / 64 by omega)]
      rfl

@[simp]
theorem contains_insertAll (s : IndexSet) (is : List Nat) (j : Nat) :
    (s.insertAll is).contains j = (decide (j ∈ is) || s.contains j) := by
  unfold insertAll
  induction is generalizing s with
  | nil => simp
  | cons i is ih =>
      rw [List.foldl_cons, ih, contains_insert]
      simp only [List.mem_cons, Bool.decide_or]
      rw [Bool.or_left_comm, Bool.or_assoc]

@[simp]
theorem contains_ofList (is : List Nat) (j : Nat) :
    (ofList is).contains j = decide (j ∈ is) := by
  rw [ofList, contains_insertAll, contains_empty, Bool.or_false]

/-! ## Enumeration

The words are read from the first to the last and every word from its lowest bit,
so the list comes out sorted. A bit past the last word reads as unset, which is why
no member is missed. -/

theorem mem_inWord {s : IndexSet} {k i : Nat} :
    i ∈ s.inWord k ↔ s.contains i = true ∧ i / 64 = k := by
  have hrange : (∃ b < 64, 64 * k + b = i) ↔ i / 64 = k := by
    refine ⟨?_, ?_⟩
    · intro h
      obtain ⟨b, hb, rfl⟩ := h
      omega
    · intro h
      exact ⟨i % 64, Nat.mod_lt _ (by decide), by omega⟩
  unfold inWord
  split
  · next hzero =>
      refine ⟨?_, ?_⟩
      · intro h
        cases h
      · intro h
        obtain ⟨hc, rfl⟩ := h
        rw [beq_iff_eq] at hzero
        rw [contains_eq, hzero] at hc
        simp at hc
  · simp only [List.mem_filter, List.mem_map, List.mem_range, hrange]
    exact and_comm

theorem pairwise_inWord (s : IndexSet) (k : Nat) : (s.inWord k).Pairwise (· < ·) := by
  unfold inWord
  split
  · exact List.Pairwise.nil
  · refine List.Pairwise.filter _ (List.Pairwise.map _ ?_ List.pairwise_lt_range)
    intro a b hab
    omega

theorem mem_collect {s : IndexSet} {n i : Nat} {later : List Nat} :
    i ∈ s.collect n later ↔ (s.contains i = true ∧ i / 64 < n) ∨ i ∈ later := by
  induction n generalizing later with
  | zero => simp [collect]
  | succ k ih =>
      rw [collect, ih, List.mem_append, mem_inWord]
      have hstep : i / 64 < k + 1 ↔ i / 64 < k ∨ i / 64 = k := by omega
      rw [hstep]
      tauto

theorem pairwise_collect {s : IndexSet} {n : Nat} {later : List Nat}
    (hlater : later.Pairwise (· < ·)) (hfar : ∀ i ∈ later, n ≤ i / 64) :
    (s.collect n later).Pairwise (· < ·) := by
  induction n generalizing later with
  | zero => exact hlater
  | succ k ih =>
      rw [collect]
      apply ih
      · refine List.pairwise_append.2 ⟨pairwise_inWord s k, hlater, ?_⟩
        intro a ha b hb
        have hak := (mem_inWord.1 ha).2
        have hbk := hfar b hb
        omega
      · intro i hi
        rcases List.mem_append.1 hi with hi | hi
        · exact Nat.le_of_eq (mem_inWord.1 hi).2.symm
        · exact Nat.le_of_succ_le (hfar i hi)

@[simp]
theorem mem_toList {s : IndexSet} {i : Nat} : i ∈ s.toList ↔ s.contains i = true := by
  rw [toList, mem_collect]
  refine ⟨?_, ?_⟩
  · intro h
    rcases h with ⟨h, -⟩ | h
    · exact h
    · cases h
  · intro h
    exact Or.inl ⟨h, div_lt_size_of_contains h⟩

theorem pairwise_toList (s : IndexSet) : s.toList.Pairwise (· < ·) :=
  pairwise_collect List.Pairwise.nil (fun _ h => absurd h List.not_mem_nil)

theorem nodup_toList (s : IndexSet) : s.toList.Nodup :=
  (pairwise_toList s).imp Nat.ne_of_lt

/-- Members alone decide the enumeration, whatever the words look like. -/
theorem toList_eq_of_contains {s t : IndexSet} (h : ∀ i, s.contains i = t.contains i) :
    s.toList = t.toList := by
  refine (List.perm_of_nodup_nodup_toFinset_eq (nodup_toList s) (nodup_toList t) ?_).eq_of_pairwise
    (fun a b _ _ hab hba => absurd hab (Nat.lt_asymm hba)) (pairwise_toList s) (pairwise_toList t)
  ext i
  rw [List.mem_toFinset, List.mem_toFinset, mem_toList, mem_toList, h]

theorem toList_insert_perm {s : IndexSet} {i : Nat} (h : s.contains i = false) :
    (s.insert i).toList.Perm (i :: s.toList) := by
  refine (List.perm_ext_iff_of_nodup (nodup_toList _) ?_).2 ?_
  · refine List.nodup_cons.2 ⟨?_, nodup_toList s⟩
    rw [mem_toList, h]
    exact Bool.false_ne_true
  · intro j
    simp

theorem length_toList_le {s : IndexSet} {l : List Nat} (h : ∀ i, s.contains i = true → i ∈ l) :
    s.toList.length ≤ l.length :=
  ((nodup_toList s).subperm fun i hi => h i (mem_toList.1 hi)).length_le

theorem length_toList_lt {s t : IndexSet} {j : Nat}
    (h : ∀ i, s.contains i = true → t.contains i = true)
    (hs : s.contains j = false) (ht : t.contains j = true) :
    s.toList.length < t.toList.length := by
  have hle : (s.insert j).toList.length ≤ t.toList.length := by
    refine length_toList_le fun i hi => ?_
    rw [contains_insert, Bool.or_eq_true, decide_eq_true_eq] at hi
    rcases hi with rfl | hi
    · exact mem_toList.2 ht
    · exact mem_toList.2 (h i hi)
  rw [(toList_insert_perm hs).length_eq, List.length_cons] at hle
  exact hle

/-! ## The cached count -/

/-- The cached number is the number of members. -/
def Sound (s : IndexSet) : Prop := s.count = s.toList.length

theorem sound_recount (s : IndexSet) : s.recount.Sound := by
  rw [Sound, toList_eq_of_contains (contains_recount s)]
  rfl

theorem sound_empty : empty.Sound := rfl

theorem sound_withCapacity (capacity : Nat) : (withCapacity capacity).Sound := by
  have hnil : (withCapacity capacity).toList = [] := by
    rw [List.eq_nil_iff_forall_not_mem]
    intro i hi
    rw [mem_toList, contains_withCapacity] at hi
    cases hi
  rw [Sound, hnil]
  rfl

theorem sound_union (s t : IndexSet) : (s.union t).Sound := sound_recount _

theorem Sound.insert {s : IndexSet} (hs : s.Sound) (i : Nat) : (s.insert i).Sound := by
  cases h : s.contains i with
  | true => rwa [IndexSet.insert, if_pos h]
  | false =>
      have hlen := (toList_insert_perm h).length_eq
      rw [Sound, hlen, List.length_cons, ← hs, IndexSet.insert, if_neg (by simp [h])]

theorem toList_perm_erase {s : IndexSet} {i : Nat} (h : s.contains i = true) :
    s.toList.Perm (i :: (s.erase i).toList) := by
  refine (List.perm_ext_iff_of_nodup (nodup_toList s) ?_).2 ?_
  · refine List.nodup_cons.2 ⟨?_, nodup_toList _⟩
    rw [mem_toList, contains_erase]
    simp
  · intro j
    by_cases hj : j = i
    · subst hj
      simp [h]
    · simp [hj]

theorem Sound.erase {s : IndexSet} (hs : s.Sound) (i : Nat) : (s.erase i).Sound := by
  cases h : s.contains i with
  | false => rwa [IndexSet.erase, if_neg (by simp [h])]
  | true =>
      have hlen := (toList_perm_erase h).length_eq
      have hcount : (s.erase i).count = s.count - 1 := by rw [IndexSet.erase, if_pos h]
      rw [List.length_cons] at hlen
      unfold Sound at hs ⊢
      omega

theorem Sound.insertAll {s : IndexSet} (hs : s.Sound) (is : List Nat) :
    (s.insertAll is).Sound := by
  unfold IndexSet.insertAll
  induction is generalizing s with
  | nil => exact hs
  | cons i is ih => exact ih (hs.insert i)

theorem sound_ofList (is : List Nat) : (ofList is).Sound := sound_empty.insertAll is

theorem isEmpty_iff {s : IndexSet} (hs : s.Sound) :
    s.isEmpty = true ↔ ∀ i, s.contains i = false := by
  rw [isEmpty, beq_iff_eq, hs, List.length_eq_zero_iff, List.eq_nil_iff_forall_not_mem]
  simp only [mem_toList, Bool.not_eq_true]

theorem isEmpty_eq_false_iff {s : IndexSet} (hs : s.Sound) :
    s.isEmpty = false ↔ ∃ i, s.contains i = true := by
  rw [← Bool.not_eq_true, isEmpty_iff hs]
  simp

end IndexSet

end FiniteDomain
