import FiniteDomain.Proofs.AssignmentValues
import FiniteDomain.Scope
import Mathlib

/-!
# Declared variables

Callers declare variables and get assignments back, and both are lists in an order of
their own. This file says what the declarations ask of an assignment, and connects it
with the scope made of them, where a variable is a number and its name occurs once.

A name may be declared several times. All declarations of it say the same, so it does
not matter which of them a value is compared with; the order is that of the first.
-/

namespace FiniteDomain

variable {xs ys : List Variable} {x y : Variable} {v : Int} {s : Assignment}
  {scope scope' : Scope} {σ : Nat → Int} {i : Nat} {name : String}

/-- A value of the variable's width, and the fixed one if there is one. -/
def Variable.Takes (x : Variable) (v : Int) : Prop :=
  x.admits v = true ∧ ∀ w ∈ x.value?, v = w

theorem Variable.takes_congr (hwidth : x.width = y.width) (hvalue : x.value? = y.value?) :
    x.Takes v ↔ y.Takes v := by
  rw [Takes, Takes, admits, admits, maxValue, maxValue, hwidth, hvalue]

theorem Variable.takes_of_free (h : x.value? = none) : x.Takes v ↔ 0 ≤ v ∧ v ≤ x.maxValue := by
  have hfree : ∀ w ∈ x.value?, v = w := by simp [h]
  rw [Takes, and_iff_left hfree, admits, Bool.and_eq_true, decide_eq_true_eq, decide_eq_true_eq]

theorem Variable.takes_of_fixed {w : Int} (h : x.value? = some w) : x.Takes v ↔ v = w := by
  have hfits : x.admits w = true := by
    rw [admits, Bool.and_eq_true, decide_eq_true_eq, decide_eq_true_eq]
    exact x.value_fits w h
  refine ⟨fun htakes => htakes.2 w h, ?_⟩
  rintro rfl
  exact ⟨hfits, fun w hw => Option.some.inj (h.symm.trans hw)⟩

/-- The declared names, each once, in the order of their first declarations. -/
def declaredNames (xs : List Variable) : List String := (xs.map Variable.name).eraseDups

theorem declaredNames_concat (xs : List Variable) (x : Variable) :
    declaredNames (xs ++ [x]) =
      if x.name ∈ xs.map Variable.name then declaredNames xs else declaredNames xs ++ [x.name] := by
  rw [declaredNames, List.map_append, List.eraseDups_append, declaredNames, List.map_singleton,
    List.removeAll]
  split
  · next hmem =>
      rw [List.filter_cons_of_neg (by simpa using hmem)]
      simp
  · next hmem =>
      rw [List.filter_cons_of_pos (by simpa using hmem)]
      simp [List.eraseDups_cons]

namespace Assignment

/-- Every declared variable has a value that it may take. -/
def Respects (s : Assignment) (xs : List Variable) : Prop :=
  ∀ x ∈ xs, ∃ v, s.get? x.name = some v ∧ x.Takes v

/-- The declared variables have values that they may take, and nothing else has a value. -/
structure Covers (s : Assignment) (xs : List Variable) : Prop where
  names_eq : s.entries.map (fun e => e.1.name) = declaredNames xs
  respects : s.Respects xs

end Assignment

namespace Scope

/-- Is this the scope that the declarations make? -/
structure Declares (scope : Scope) (xs : List Variable) : Prop where
  names_eq : scope.vars.toList.map Variable.name = declaredNames xs
  distinctNames : DistinctNames scope.vars
  declared : ∀ x ∈ xs, ∃ (i : Nat) (y : Variable), scope.vars[i]? = some y ∧
    y.name = x.name ∧ y.width = x.width ∧ y.value? = x.value?
  mem : ∀ (i : Nat) (y : Variable), scope.vars[i]? = some y → y ∈ xs

theorem declares_empty : empty.Declares [] where
  names_eq := rfl
  distinctNames := List.nodup_nil
  declared x hx := by cases hx
  mem i y hy := by simp [empty] at hy

theorem Declares.mem_names (h : scope.Declares xs) :
    name ∈ scope.vars.toList.map Variable.name ↔ name ∈ xs.map Variable.name := by
  rw [h.names_eq, declaredNames, List.mem_eraseDups]

/-- Declares a variable once more. -/
theorem Declares.again (h : scope.Declares xs) (hi : scope.vars[i]? = some y)
    (hname : y.name = x.name) (hagree : y.width = x.width ∧ y.value? = x.value?) :
    scope.Declares (xs ++ [x]) where
  names_eq := by
    have hin : y ∈ scope.vars.toList := Array.mem_toList_iff.2 (Array.mem_of_getElem? hi)
    have hold : x.name ∈ xs.map Variable.name :=
      h.mem_names.1 (hname ▸ List.mem_map_of_mem hin)
    rw [declaredNames_concat, if_pos hold, h.names_eq]
  distinctNames := h.distinctNames
  declared z hz := by
    rcases List.mem_append.1 hz with hz | hz
    · exact h.declared z hz
    · rw [List.mem_singleton] at hz
      subst hz
      exact ⟨i, y, hi, hname, hagree⟩
  mem i z hz := List.mem_append_left _ (h.mem i z hz)

/-- Declares a variable for the first time. -/
theorem Declares.push (h : scope.Declares xs)
    (hnew : x.name ∉ scope.vars.toList.map Variable.name) :
    (⟨scope.vars.push x⟩ : Scope).Declares (xs ++ [x]) where
  names_eq := by
    rw [declaredNames_concat, if_neg (mt h.mem_names.2 hnew), ← h.names_eq]
    simp
  distinctNames := by
    have hnodup : (scope.vars.toList.map Variable.name ++ [x.name]).Nodup := by
      refine List.nodup_append.2 ⟨h.distinctNames, List.nodup_singleton _, ?_⟩
      intro a ha b hb hab
      rw [List.mem_singleton] at hb
      exact hnew (hb ▸ hab ▸ ha)
    simpa [DistinctNames] using hnodup
  declared z hz := by
    rcases List.mem_append.1 hz with hz | hz
    · obtain ⟨i, y, hi, hy⟩ := h.declared z hz
      refine ⟨i, y, ?_, hy⟩
      obtain ⟨hlt, -⟩ := Array.getElem?_eq_some_iff.1 hi
      rw [Array.getElem?_push_lt hlt, ← Array.getElem?_eq_getElem hlt]
      exact hi
    · rw [List.mem_singleton] at hz
      subst hz
      exact ⟨scope.vars.size, z, Array.getElem?_push_size, rfl, rfl, rfl⟩
  mem i z hz := by
    rw [Array.getElem?_push] at hz
    split at hz
    · cases hz
      exact List.mem_append_right _ (List.mem_singleton.2 rfl)
    · exact List.mem_append_left _ (h.mem i z hz)

theorem Declares.declare (h : scope.Declares xs) (hx : scope.declare x = .ok scope') :
    scope'.Declares (xs ++ [x]) := by
  unfold Scope.declare at hx
  split at hx
  · next first hfirst =>
      split at hx
      · next hagree =>
          injection hx with hx
          subst hx
          have hname : first.name = x.name := by
            have := Array.find?_some hfirst
            simpa [Variable.same] using this
          obtain ⟨i, hi⟩ := Array.mem_iff_getElem?.1 (Array.mem_of_find?_eq_some hfirst)
          exact h.again hi hname hagree
      · cases hx
  · next hnone =>
      have hnew : x.name ∉ scope.vars.toList.map Variable.name := by
        intro hin
        obtain ⟨y, hy, hname⟩ := List.mem_map.1 hin
        have hdiffers := Array.find?_eq_none.1 hnone y (Array.mem_toList_iff.1 hy)
        simp [Variable.same, hname] at hdiffers
      cases hindex : Index.ofNat scope.size with
      | error fault =>
          rw [hindex] at hx
          cases hx
      | ok index =>
          rw [hindex] at hx
          injection hx with hx
          subst hx
          exact h.push hnew

theorem declares_ofGroups {groups : List (List Variable)} (h : ofGroups groups = .ok scope) :
    scope.Declares groups.flatten := by
  have hrun : ∀ {xs : List Variable} {done : List Variable} {start : Scope},
      start.Declares done → xs.foldlM Scope.declare start = .ok scope →
        scope.Declares (done ++ xs) := by
    intro xs
    induction xs with
    | nil =>
        intro done start hstart hfold
        rw [List.foldlM_nil] at hfold
        cases hfold
        rwa [List.append_nil]
    | cons x xs ih =>
        intro done start hstart hfold
        rw [List.foldlM_cons] at hfold
        cases hx : start.declare x with
        | error fault =>
            rw [hx] at hfold
            cases hfold
        | ok next =>
            rw [hx] at hfold
            rw [← List.singleton_append, ← List.append_assoc]
            exact ih (hstart.declare hx) hfold
  exact hrun declares_empty h

/-- Does `σ` give every variable of the scope a value that it may take? -/
def Takes (scope : Scope) (σ : Nat → Int) : Prop :=
  ∀ (i : Nat) (x : Variable), scope.vars[i]? = some x → x.Takes (σ i)

namespace Declares

theorem lookup_eq (h : scope.Declares xs) (hname : name ∈ xs.map Variable.name) :
    ∃ i x, scope.lookup name = .ok i ∧ scope.vars[i]? = some x ∧ x.name = name := by
  obtain ⟨x, hx, rfl⟩ := List.mem_map.1 hname
  obtain ⟨j, y, hj, hyx, -⟩ := h.declared x hx
  cases hfind : scope.find? x.name with
  | none =>
      have hnone := Array.findIdx?_eq_none_iff.1 hfind y (Array.mem_of_getElem? hj)
      simp [hyx] at hnone
  | some i =>
      obtain ⟨hi, hname, -⟩ := Array.findIdx?_eq_some_iff_getElem.1 hfind
      refine ⟨i, scope.vars[i], ?_, Array.getElem?_eq_getElem hi, beq_iff_eq.1 hname⟩
      rw [lookup, hfind]

theorem lookup_eq_error (h : scope.Declares xs) (hname : name ∉ xs.map Variable.name) :
    scope.lookup name = .error (.undeclared name) := by
  cases hfind : scope.find? name with
  | none => rw [lookup, hfind]
  | some i =>
      obtain ⟨hi, hx, -⟩ := Array.findIdx?_eq_some_iff_getElem.1 hfind
      have hmem := h.mem i _ (Array.getElem?_eq_getElem hi)
      exact absurd (List.mem_map.2 ⟨_, hmem, beq_iff_eq.1 hx⟩) hname

/-- A variable of the scope is found by its name, and nothing else is found by it. -/
theorem lookup_eq_ok_iff (h : scope.Declares xs) (hi : scope.vars[i]? = some x) :
    scope.lookup name = .ok i ↔ name = x.name := by
  refine ⟨fun hlookup => ?_, ?_⟩
  · rw [lookup] at hlookup
    split at hlookup
    · next hfind =>
        cases hlookup
        obtain ⟨hlt, hname, -⟩ := Array.findIdx?_eq_some_iff_getElem.1 hfind
        rw [Array.getElem?_eq_getElem hlt] at hi
        cases hi
        exact (beq_iff_eq.1 hname).symm
    · cases hlookup
  · rintro rfl
    obtain ⟨k, y, hlookup, hk, hname⟩ := h.lookup_eq (List.mem_map_of_mem (h.mem i x hi))
    have hget : ∀ {j : Nat} {z : Variable}, scope.vars[j]? = some z →
        (scope.vars.toList.map Variable.name)[j]? = some z.name := by
      intro j z hj
      simp [hj]
    have hlt : k < (scope.vars.toList.map Variable.name).length :=
      (List.getElem?_eq_some_iff.1 (hget hk)).1
    have hki : k = i := by
      rw [← List.getElem?_inj hlt h.distinctNames, hget hk, hget hi, hname]
    rw [hlookup, hki]

/-- Values that the variables may take make an assignment that covers the declarations. -/
theorem covers_ofValues (h : scope.Declares xs) (hσ : scope.Takes σ) :
    (Assignment.ofValues scope.vars σ).Covers xs := by
  refine ⟨?_, fun x hx => ?_⟩
  · rw [← h.names_eq, ← Assignment.map_fst_ofValues scope.vars σ, List.map_map]
    rfl
  · obtain ⟨i, y, hi, hname, hwidth, hvalue⟩ := h.declared x hx
    refine ⟨σ i, ?_, (Variable.takes_congr hwidth hvalue).1 (hσ i y hi)⟩
    rw [← hname]
    exact Assignment.get?_ofValues h.distinctNames hi σ

/-- An assignment that respects the declarations gives them the values of some `σ`. -/
theorem exists_ofValues (h : scope.Declares xs) (hs : s.Respects xs) :
    ∃ σ, scope.Takes σ ∧ ∀ name ∈ xs.map Variable.name,
      s.get? name = (Assignment.ofValues scope.vars σ).get? name := by
  let σ : Nat → Int := fun i => (scope.vars[i]?.bind fun x => s.get? x.name).getD 0
  have hσ : ∀ i x, scope.vars[i]? = some x → s.get? x.name = some (σ i) ∧ x.Takes (σ i) := by
    intro i x hi
    obtain ⟨v, hv, htakes⟩ := hs x (h.mem i x hi)
    have hvalue : σ i = v := by simp only [σ, hi, Option.bind_some, hv, Option.getD_some]
    rw [hvalue]
    exact ⟨hv, htakes⟩
  refine ⟨σ, fun i x hi => (hσ i x hi).2, fun name hname => ?_⟩
  obtain ⟨i, x, -, hi, rfl⟩ := h.lookup_eq hname
  rw [(hσ i x hi).1, Assignment.get?_ofValues h.distinctNames hi]

end Declares

end Scope

end FiniteDomain
