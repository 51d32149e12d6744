import FiniteDomain.Proofs.Declared
import Mathlib

/-!
# Declaring different names

Variables that all have different names are declared as they come, up to as many as there
are indices. The first one too many is refused.
-/

namespace FiniteDomain

variable {scope : Scope} {x : Variable} {xs : List Variable}

/-- Numbered names are told apart by their numbers. -/
theorem append_toString_inj (s : String) {i j : Nat} :
    s ++ toString i = s ++ toString j ↔ i = j := by
  rw [String.append_right_inj]
  exact ⟨fun h => Nat.repr_injective h, fun h => h ▸ rfl⟩

namespace Scope

theorem declare_of_not_mem (hx : x.name ∉ scope.vars.toList.map Variable.name) :
    scope.declare x = if scope.size < Index.limit then .ok ⟨scope.vars.push x⟩
      else .error (.indexTooLarge scope.size) := by
  have hnone : scope.vars.find? (·.same x) = none := by
    refine Array.find?_eq_none.2 fun y hy => ?_
    rw [Variable.same, beq_iff_eq]
    exact fun heq => hx (heq ▸ List.mem_map_of_mem (Array.mem_toList_iff.2 hy))
  rw [declare, hnone]
  by_cases hlt : scope.size < Index.limit <;> simp [Index.ofNat, hlt, bind, Except.bind]

theorem foldlM_declare (hnodup : ((scope.vars.toList ++ xs).map Variable.name).Nodup)
    (hsize : scope.size ≤ Index.limit) : xs.foldlM declare scope =
      if scope.size + xs.length ≤ Index.limit then .ok ⟨(scope.vars.toList ++ xs).toArray⟩
      else .error (.indexTooLarge Index.limit) := by
  induction xs generalizing scope with
  | nil =>
      rw [List.length_nil, Nat.add_zero, if_pos hsize, List.append_nil]
      rfl
  | cons x xs ih =>
      have hx : x.name ∉ scope.vars.toList.map Variable.name := by
        rw [List.map_append, List.map_cons, List.nodup_append] at hnodup
        exact fun hmem => hnodup.2.2 _ hmem _ List.mem_cons_self rfl
      rw [List.foldlM_cons, declare_of_not_mem hx]
      by_cases hlt : scope.size < Index.limit
      · have hstep : (scope.vars.push x).toList ++ xs = scope.vars.toList ++ x :: xs := by simp
        have hgrown : (⟨scope.vars.push x⟩ : Scope).size = scope.size + 1 := Array.size_push x
        rw [if_pos hlt]
        refine (@ih ⟨scope.vars.push x⟩ (hstep ▸ hnodup) (hgrown ▸ hlt)).trans ?_
        rw [hstep, hgrown, List.length_cons, Nat.add_assoc, Nat.add_comm 1]
      · have heq : scope.size = Index.limit := by omega
        rw [if_neg hlt, heq, List.length_cons, if_neg (by omega)]
        rfl

/-- However many they are, variables with different names are what their own scope declares. -/
theorem declares_of_nodup (hnodup : (xs.map Variable.name).Nodup) :
    (⟨xs.toArray⟩ : Scope).Declares xs := by
  induction xs using List.reverseRecOn with
  | nil => exact declares_empty
  | append_singleton xs x ih =>
      rw [List.map_append, List.nodup_append] at hnodup
      obtain ⟨hxs, -, hdiffers⟩ := hnodup
      have hnew : x.name ∉ (⟨xs.toArray⟩ : Scope).vars.toList.map Variable.name :=
        fun hmem => hdiffers _ hmem _ List.mem_cons_self rfl
      rw [← List.push_toArray]
      exact (ih hxs).push hnew

/-- Different names are declared in their order, unless there are more of them than indices. -/
theorem ofGroups_of_nodup {groups : List (List Variable)}
    (hnodup : (groups.flatten.map Variable.name).Nodup) : ofGroups groups =
      if groups.flatten.length ≤ Index.limit then .ok ⟨groups.flatten.toArray⟩
      else .error (.indexTooLarge Index.limit) := by
  have hnodup' : ((empty.vars.toList ++ groups.flatten).map Variable.name).Nodup := hnodup
  have hfold := foldlM_declare hnodup' (Nat.zero_le _)
  rw [ofGroups, hfold]
  simp [empty, size]

end Scope

end FiniteDomain
