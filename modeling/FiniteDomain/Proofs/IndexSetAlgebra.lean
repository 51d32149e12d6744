import FiniteDomain.Proofs.Checked
import FiniteDomain.Proofs.IndexSetWords
import Mathlib

/-!
# Index sets compute with finite sets

Whatever was inserted into an index set, erased from it or joined to it, and however
many words it has grown to, it stands for the finite set that the same steps give. Its
count is the number of members, so taking an index out never takes more off the count
than it holds, and its enumeration is the sorted list of the members.

Two index sets of the same members may differ in their words. They are equal all the
same, since equality asks for the counts and the enumerations, and both are decided by
the members.
-/

namespace FiniteDomain

namespace IndexSet

variable {s t : IndexSet} {S T : Finset Nat} {i : Nat}

/-- Is `s` made in the same steps as the set `S`? -/
inductive Built : IndexSet → Finset Nat → Prop where
  | empty : Built .empty ∅
  | withCapacity (capacity : Nat) : Built (.withCapacity capacity) ∅
  | ofList (is : List Nat) : Built (.ofList is) is.toFinset
  | insert {s : IndexSet} {S : Finset Nat} (h : Built s S) (i : Nat) :
      Built (s.insertNew i).2 (S ∪ {i})
  | erase {s : IndexSet} {S : Finset Nat} (h : Built s S) (i : Nat) :
      Built (s.eraseOld i).2 (S \ {i})
  | union {s t : IndexSet} {S T : Finset Nat} (h : Built s S) (h' : Built t T) :
      Built (s.union t) (S ∪ T)
  | insertAll {s : IndexSet} {S : Finset Nat} (h : Built s S) (is : List Nat) :
      Built (s.insertAll is) (S ∪ is.toFinset)

theorem Built.sound (h : Built s S) : s.Sound := by
  induction h with
  | empty => exact sound_empty
  | withCapacity capacity => exact sound_withCapacity capacity
  | ofList is => exact sound_ofList is
  | insert _ i ih => exact ih.insert i
  | erase _ i ih => exact ih.erase i
  | union _ _ _ _ => exact sound_union _ _
  | insertAll _ is ih => exact ih.insertAll is

theorem Built.contains_iff (h : Built s S) (i : Nat) : s.contains i = true ↔ i ∈ S := by
  induction h with
  | empty => simp
  | withCapacity capacity => simp
  | ofList is => simp
  | insert _ j ih => simp [insertNew, ih]
  | erase _ j ih => simp [eraseOld, ih]
  | union _ _ ih ih' => simp [ih, ih']
  | insertAll _ is ih => simp [ih, or_comm]

theorem Built.toList_toFinset (h : Built s S) : s.toList.toFinset = S := by
  ext i
  rw [List.mem_toFinset, mem_toList, h.contains_iff]

theorem Built.count_eq (h : Built s S) : s.count = S.card := by
  rw [h.sound, ← List.toFinset_card_of_nodup (nodup_toList s), h.toList_toFinset]

theorem beq_iff : (s == t) = true ↔ s.count = t.count ∧ s.toList = t.toList := by
  show (s.count == t.count && s.toList == t.toList) = true ↔ _
  rw [Bool.and_eq_true, beq_iff_eq, beq_iff_eq]

/-- Equality looks at the members alone. -/
theorem Built.beq_iff_eq (h : Built s S) (h' : Built t T) : (s == t) = true ↔ S = T := by
  rw [beq_iff]
  refine ⟨?_, ?_⟩
  · intro heq
    rw [← h.toList_toFinset, heq.2, h'.toList_toFinset]
  · intro heq
    subst heq
    refine ⟨h.count_eq.trans h'.count_eq.symm, toList_eq_of_contains fun i => ?_⟩
    rw [Bool.eq_iff_iff, h.contains_iff, h'.contains_iff]

/-! ## The result -/

/-- Is `s` the set `S`, with its count and its enumeration right? -/
structure Refines (s : IndexSet) (S : Finset Nat) : Prop where
  contains_iff : ∀ i, s.contains i = true ↔ i ∈ S
  count_eq : s.count = S.card
  /-- Counting the bits that are set comes to the same number. -/
  sum_places : (s.words.toList.map fun w => (places w).length).sum = S.card
  ascending : s.toList.Pairwise (· < ·)
  mem_toList : ∀ i, i ∈ s.toList ↔ i ∈ S
  /-- Walking along the words reports the same members. -/
  yields : (Scan.start s).Yields s s.toList
  /-- Inserting and erasing tell whether the set has changed. -/
  insertNew_iff : ∀ i, (s.insertNew i).1 = true ↔ S ∪ {i} ≠ S
  eraseOld_iff : ∀ i, (s.eraseOld i).1 = true ↔ S \ {i} ≠ S
  /-- Neither looks for a word that is not there, and no count falls below zero. -/
  insertChecked_eq : ∀ i, s.insertChecked i = .ok (s.insertNew i).2
  eraseChecked_eq : ∀ i, s.eraseChecked i = .ok (s.eraseOld i).2

/--
An index set that was built by any operations in any order stands for the set that was
made in the same steps, and is equal to another one exactly if that one stands for the
same set.
-/
theorem Built.refines_finset (h : Built s S) :
    s.Refines S ∧ ∀ t T, Built t T → ((s == t) = true ↔ S = T) := by
  refine ⟨?_, fun t T h' => h.beq_iff_eq h'⟩
  exact
    { contains_iff := h.contains_iff
      count_eq := h.count_eq
      sum_places := by rw [← length_toList_eq, ← h.sound, h.count_eq]
      ascending := pairwise_toList s
      mem_toList := fun i => mem_toList.trans (h.contains_iff i)
      yields := Scan.yields_toList s
      insertNew_iff := fun i => by
        rw [insertNew, Bool.not_eq_true', Bool.eq_false_iff, ne_eq, h.contains_iff, ne_eq,
          Finset.union_eq_left, Finset.singleton_subset_iff]
      eraseOld_iff := fun i => by
        rw [eraseOld, h.contains_iff, ne_eq, Finset.sdiff_eq_self_iff_disjoint,
          Finset.disjoint_singleton_right, not_not]
      insertChecked_eq := s.insertChecked_eq
      eraseChecked_eq := h.sound.eraseChecked_eq }

/-- A set that has grown far beyond its capacity and lost the last index of a word. -/
def grown : IndexSet :=
  ((((withCapacity 1).insertNew 4294967295).2.union (ofList [64, 63, 64])).eraseOld 63).2

/-- It has the members, the count and the equality of a set that was made at once. -/
theorem refines_grown : ∃ S, Built grown S ∧ grown.Refines S ∧ grown.count = 2 ∧
    (grown == ofList [4294967295, 64]) = true := by
  have hbuilt : Built grown _ :=
    (((Built.withCapacity 1).insert 4294967295).union (.ofList [64, 63, 64])).erase 63
  obtain ⟨hrefines, hequal⟩ := hbuilt.refines_finset
  refine ⟨_, hbuilt, hrefines, ?_, ?_⟩
  · rw [hrefines.count_eq]
    decide
  · rw [hequal _ _ (.ofList _)]
    decide

end IndexSet

end FiniteDomain
