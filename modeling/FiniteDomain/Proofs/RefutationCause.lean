import FiniteDomain.Proofs.FirstFault
import FiniteDomain.Proofs.OrderVerdict
import Mathlib

/-!
# What a refutation cites is part of the problem

When a conflict comes to light, the network is not the one that was posed any more. Rows have been
moved to leaders, inequalities have been dropped, and a conflict is put into words with what is
left. Still it speaks of the equations as they were written: an inequality between two members of a
class was imposed between these two, and an inequality between leaders was imposed between some
members of their classes. The exactness of the phases says as much about indices, and here it is
read back as a statement about names.

`Linked`, `First` and `Apart` mention the declarations and the equations and nothing else. A name
has one place, so paths of indices and paths of names are the same. The words of `Cites` are
spelled out and do not rest on the functions that print them.
-/

namespace FiniteDomain

variable {settings : Settings} {mode : Mode} {scope : Scope} {xs : List Variable}
  {es : List Equation} {cause : Conflict}

namespace Equation

/-- Does an equation compare two variables in this way, whichever of them is on the left? -/
def Relates (es : List Equation) (equal : Bool) (a b : String) : Prop :=
  pair a b equal ∈ es ∨ pair b a equal ∈ es

/-- Do the equalities between variables join two names, possibly over others? -/
def Linked (es : List Equation) : String → String → Prop :=
  Relation.ReflTransGen (Relates es true)

/-- Do the declaration of a variable and the equations between it and values allow this value? -/
def Allowed (es : List Equation) (x : Variable) (v : Int) : Prop :=
  x.Takes v ∧ ∀ w equal, value x.name w equal ∈ es → (v = w ↔ equal = true)

/-- Is the name declared before all others that are linked to it? -/
def First (xs : List Variable) (es : List Equation) (a : String) : Prop :=
  ∃ before after, declaredNames xs = before ++ a :: after ∧ ∀ b ∈ before, ¬Linked es a b

/-- Are these the first variables of two components that an inequality joins? -/
structure Apart (xs : List Variable) (es : List Equation) (a b : String) : Prop where
  first_left : First xs es a
  first_right : First xs es b
  not_linked : ¬Linked es a b
  related : ∃ c d, Linked es a c ∧ Linked es b d ∧ Relates es false c d

/-- What a conjunction may be refuted for that leaves every variable a value, and the words that
are found for it. -/
inductive Cites (xs : List Variable) (es : List Equation) : Conflict → String → Prop where
  /-- The variables of a component have no value in common. -/
  | equality {a b : String} (hlinked : Linked es a b) (hne : a ≠ b) (hfirst : First xs es a)
      (hnone : ¬∃ v, ∀ x ∈ xs, Linked es a x.name → Allowed es x v) :
      Cites xs es (.equality a b) ("UNSAT: Equality " ++ a ++ " == " ++ b)
  /-- Two variables of a component are asked to differ. -/
  | contradiction {a b : String} (hlinked : Linked es a b) (hne : a ≠ b)
      (hrelated : Relates es false a b) :
      Cites xs es (.contradiction a b)
        ("UNSAT: " ++ a ++ " == " ++ b ++ " && " ++ a ++ " != " ++ b)
  | inequality {a b : String} (hapart : Apart xs es a b) :
      Cites xs es (.inequality a b) ("UNSAT: Inequality " ++ a ++ " != " ++ b)
  | inequalities {pairs : List (String × String)} (hne : pairs ≠ []) (hnodup : pairs.Nodup)
      (hapart : ∀ p ∈ pairs, Apart xs es p.1 p.2) :
      Cites xs es (.inequalities pairs)
        ("UNSAT: \x7b" ++ ", ".intercalate (pairs.map fun p => p.1 ++ " != " ++ p.2) ++ "\x7d")

/-- An equation between variables takes no values away. -/
theorem exists_eq_value {before : List Equation} {e : Equation} (hbefore : LeaveValues xs before)
    (hafter : ¬LeaveValues xs (before ++ [e])) : ∃ name v equal, e = value name v equal := by
  cases e with
  | value name v equal => exact ⟨name, v, equal, rfl⟩
  | pair left right equal =>
      refine absurd (fun x hx => ?_) hafter
      obtain ⟨v, hv, hvalues⟩ := hbefore x hx
      refine ⟨v, hv, fun w equal he => ?_⟩
      rcases List.mem_append.1 he with he | he
      · exact hvalues w equal he
      · cases List.mem_singleton.1 he

end Equation

namespace Conflict

theorem message_value (name : String) (v : Int) (equal : Bool) :
    (equation (.value name v equal)).message =
      "UNSAT: " ++ name ++ (if equal then " == " else " != ") ++ toString v := by
  show "UNSAT: " ++ (name ++ " " ++ Equation.sign equal ++ " " ++ toString v) = _
  cases equal <;> simp only [String.append_assoc] <;> rfl

theorem message_inequalities (pairs : List (String × String)) :
    (inequalities pairs).message = "UNSAT: \x7b" ++
      ", ".intercalate (pairs.map fun p => p.1 ++ " != " ++ p.2) ++ "\x7d" := by
  show "UNSAT: " ++ ("\x7b" ++ ", ".intercalate (pairs.map fun p => p.1 ++ " != " ++ p.2) ++
    "\x7d") = _
  rw [← String.append_assoc, ← String.append_assoc]
  rfl

end Conflict

open Equation

namespace Network.Imposed

variable {net mid low : Network} {i j : Nat} {a b name : String} {v : Int}

section

variable (h : Imposed scope es net) (hd : scope.Declares xs)

include h

/-! ## Places and names -/

theorem vars_eq_some (hi : i < net.size) :
    ∃ x, scope.vars[i]? = some x ∧ net.name i = x.name := by
  have hx : scope.vars[i]? = some _ := Array.getElem?_eq_getElem (h.size_eq ▸ hi)
  exact ⟨_, hx, by rw [Network.name, h.posed.vars_eq, hx]⟩

include hd

/-- A name has one place, and a place has one name. -/
theorem lookup_eq_ok_iff (hi : i < net.size) : scope.lookup name = .ok i ↔ name = net.name i := by
  obtain ⟨x, hx, hname⟩ := h.vars_eq_some hi
  rw [hname]
  exact hd.lookup_eq_ok_iff hx

theorem name_inj (hi : i < net.size) (hj : j < net.size) (hij : net.name i = net.name j) :
    i = j := by
  have hlookup := ((h.lookup_eq_ok_iff hd hi).2 rfl).symm.trans ((h.lookup_eq_ok_iff hd hj).2 hij)
  exact Except.ok.inj hlookup

theorem relates_of_adjacent (equal : Bool) (hij : (net.graph equal).adjacent i j = true) :
    Relates es equal (net.name i) (net.name j) := by
  have hg := h.posed.sound.graph equal
  obtain ⟨-, e, he, hjoins⟩ := (h.adjacent equal i j).1 hij
  cases e with
  | value name v equal' => cases hjoins
  | pair left right equal' =>
      obtain ⟨rfl, ⟨hleft, hright⟩ | ⟨hleft, hright⟩⟩ := hjoins
      · rw [h.lookup_eq_ok_iff hd (hg.lt_left hij)] at hleft
        rw [h.lookup_eq_ok_iff hd (hg.lt_right hij)] at hright
        exact Or.inl (hleft ▸ hright ▸ he)
      · rw [h.lookup_eq_ok_iff hd (hg.lt_right hij)] at hleft
        rw [h.lookup_eq_ok_iff hd (hg.lt_left hij)] at hright
        exact Or.inr (hleft ▸ hright ▸ he)

theorem linked_of_connected (hc : net.equal.Connected i j) :
    Linked es (net.name i) (net.name j) :=
  hc.lift net.name fun _ _ hab => h.relates_of_adjacent hd true hab

theorem connected_of_linked (hes : ∀ e ∈ es, e.Proper xs) (hi : i < net.size)
    (hlinked : Linked es (net.name i) b) :
    ∃ j < net.size, b = net.name j ∧ net.equal.Connected i j := by
  induction hlinked with
  | refl => exact ⟨i, hi, rfl, Graph.Connected.refl _ i⟩
  | @tail c b _ hrelated ih =>
      obtain ⟨j, hj, rfl, hconnected⟩ := ih
      have hdeclared : b ∈ xs.map Variable.name := by
        rcases hrelated with he | he
        · exact (hes _ he).declared b (by simp [names])
        · exact (hes _ he).declared b (by simp [names])
      obtain ⟨k, y, hlookup, hk, -⟩ := hd.lookup_eq hdeclared
      have hlt : k < net.size := h.size_eq ▸ (Array.getElem?_eq_some_iff.1 hk).1
      obtain rfl := (h.lookup_eq_ok_iff hd hlt).1 hlookup
      refine ⟨k, hlt, rfl, ?_⟩
      by_cases hjk : j = k
      · exact hjk ▸ hconnected
      · have hplace := (h.lookup_eq_ok_iff hd hj).2 rfl
        have hadjacent : (net.graph true).adjacent j k = true := by
          refine (h.adjacent true j k).2 ⟨hjk, ?_⟩
          rcases hrelated with he | he
          · exact ⟨_, he, rfl, Or.inl ⟨hplace, hlookup⟩⟩
          · exact ⟨_, he, rfl, Or.inr ⟨hlookup, hplace⟩⟩
        exact hconnected.trans (Graph.Connected.of_adjacent hadjacent)

theorem linked_iff (hes : ∀ e ∈ es, e.Proper xs) (hi : i < net.size) (hj : j < net.size) :
    Linked es (net.name i) (net.name j) ↔ net.equal.Connected i j := by
  refine ⟨fun hlinked => ?_, h.linked_of_connected hd⟩
  obtain ⟨k, hk, hname, hconnected⟩ := h.connected_of_linked hd hes hi hlinked
  rwa [h.name_inj hd hj hk hname]

/-- The first variable of a component is the one at the least place. -/
theorem first_of_least (hi : i < net.size) (hes : ∀ e ∈ es, e.Proper xs)
    (hleast : ∀ j, net.equal.Connected i j → i ≤ j) : First xs es (net.name i) := by
  have hplace : ∀ j < net.size, (declaredNames xs)[j]? = some (net.name j) := by
    intro j hj
    obtain ⟨x, hx, hname⟩ := h.vars_eq_some hj
    rw [← hd.names_eq, List.getElem?_map, Array.getElem?_toList, hx, hname]
    rfl
  obtain ⟨hlt, hname⟩ := List.getElem?_eq_some_iff.1 (hplace i hi)
  refine ⟨(declaredNames xs).take i, (declaredNames xs).drop (i + 1), ?_, fun b hb hlinked => ?_⟩
  · rw [← hname, List.getElem_cons_drop, List.take_append_drop]
  · obtain ⟨j, hj, rfl⟩ := List.mem_take_iff_getElem.1 hb
    have hji : j < i := (Nat.lt_min.1 hj).1
    have hjname := (List.getElem?_eq_some_iff.1 (hplace j (hji.trans hi))).2
    rw [hjname, h.linked_iff hd hes hi (hji.trans hi)] at hlinked
    exact absurd (hleast j hlinked) (Nat.not_le.2 hji)

theorem mem_domain_iff {x : Variable} (hi : scope.vars[i]? = some x) :
    v ∈ net.domain i ↔ Allowed es x v := by
  rw [h.mem_domain i (h.size_eq ▸ (Array.getElem?_eq_some_iff.1 hi).1),
    mem_domain_ofVariables hi, forall_allows_iff hd hi, Allowed]

/-- A value that is allowed throughout a component is left to all of it. -/
theorem mem_domain_of_allowed (hi : i < net.size)
    (hv : ∀ x ∈ xs, Linked es (net.name i) x.name → Allowed es x v)
    (hc : net.equal.Connected i j) : v ∈ net.domain j := by
  have hj : j < net.size := by
    by_cases hji : j = i
    · exact hji ▸ hi
    · exact hc.lt h.posed.sound.sound_equal hji
  obtain ⟨x, hx, hname⟩ := h.vars_eq_some hj
  rw [h.mem_domain_iff hd hx]
  exact hv x (hd.mem j x hx) (hname ▸ h.linked_of_connected hd hc)

/-! ## Conflicts -/

section

variable (hes : ∀ e ∈ es, e.Proper xs)

include hes

theorem cites_of_unmergeable (hcause : Unmergeable net cause) :
    Cites xs es cause cause.message := by
  have hs := h.posed.sound
  rcases hcause with ⟨head, m, hc, hne, hleast, hnone, rfl⟩ | ⟨i, j, hc, hij, rfl⟩
  · obtain ⟨k, hk⟩ := hc.exists_adjacent (Ne.symm hne)
    have hhead := hs.sound_equal.lt_left hk
    have hm := hc.lt hs.sound_equal hne
    refine .equality (h.linked_of_connected hd hc)
      (fun hname => hne (h.name_inj hd hhead hm hname).symm)
      (h.first_of_least hd hhead hes hleast) ?_
    rintro ⟨v, hv⟩
    exact hnone ⟨v, fun i hi => h.mem_domain_of_allowed hd hhead hv hi⟩
  · have hi := hs.sound_distinct.lt_left hij
    have hj := hs.sound_distinct.lt_right hij
    exact .contradiction (h.linked_of_connected hd hc)
      (fun hname => hs.sound_distinct.ne hij (h.name_inj hd hi hj hname))
      (h.relates_of_adjacent hd false hij)

/-- An inequality between leaders stands for one between members of their classes. -/
theorem apart_of_adjacent (hmid : Collapsed net mid) (hij : mid.distinct.adjacent i j = true) :
    Apart xs es (mid.name i) (mid.name j) := by
  have hsize : mid.size = net.size := size_congr hmid.vars_eq
  have hi : i < net.size := hsize ▸ hmid.sound.sound_distinct.lt_left hij
  have hj : j < net.size := hsize ▸ hmid.sound.sound_distinct.lt_right hij
  rw [name_congr hmid.vars_eq, name_congr hmid.vars_eq]
  obtain ⟨a, b, hab, rfl, rfl⟩ := (hmid.contracts i j).1 hij
  have hleast : ∀ a k, net.equal.Connected (mid.leader a) k → mid.leader a ≤ k :=
    fun a k hc => (hmid.leader_leader a).symm.le.trans (hmid.leader_le _ k hc)
  refine ⟨h.first_of_least hd hi hes (hleast a), h.first_of_least hd hj hes (hleast b), ?_, _, _,
    h.linked_of_connected hd (hmid.connected_leader a),
    h.linked_of_connected hd (hmid.connected_leader b),
    h.relates_of_adjacent hd false hab⟩
  rw [h.linked_iff hd hes hi hj, ← hmid.leader_eq_iff, hmid.leader_leader, hmid.leader_leader]
  exact hmid.sound.sound_distinct.ne hij

/-- What a search cites is left of the inequalities between leaders, and something is left where it
branches. -/
theorem cites_differences (hmid : Collapsed net mid) (hlow : Pruned mid low) {x : Nat}
    (hcritical : low.critical? = some x) :
    Cites xs es (.inequalities low.differences)
      (Conflict.inequalities low.differences).message := by
  have hg := hlow.sound.sound_distinct
  have hsize : low.size = net.size := hlow.size_eq.trans (size_congr hmid.vars_eq)
  have hname : ∀ i, low.name i = net.name i := name_congr (hlow.vars_eq.trans hmid.vars_eq)
  rw [Conflict.message_inequalities]
  refine .inequalities ?_ ?_ fun p hp => ?_
  · obtain ⟨y, hxy⟩ := hg.mem_vertices.1 (mem_of_critical? hcritical).1
    intro hnil
    have hnone : low.distinct.edges = [] := List.map_eq_nil_iff.1 hnil
    rcases Nat.lt_or_gt_of_ne (hg.ne hxy) with hlt | hgt
    · exact List.not_mem_nil (hnone ▸ hg.mem_edges.2 ⟨hxy, hlt⟩)
    · exact List.not_mem_nil (hnone ▸ hg.mem_edges.2 ⟨hg.symm _ _ hxy, hgt⟩)
  · refine (Graph.nodup_edges low.distinct).map_on fun e he e' he' heq => ?_
    obtain ⟨hadj, -⟩ := hg.mem_edges.1 he
    obtain ⟨hadj', -⟩ := hg.mem_edges.1 he'
    obtain ⟨hleft, hright⟩ := Prod.mk.inj heq
    rw [hname, hname] at hleft hright
    exact Prod.ext
      (h.name_inj hd (hsize ▸ hg.lt_left hadj) (hsize ▸ hg.lt_left hadj') hleft)
      (h.name_inj hd (hsize ▸ hg.lt_right hadj) (hsize ▸ hg.lt_right hadj') hright)
  · obtain ⟨e, he, rfl⟩ := List.mem_map.1 hp
    have hadj := (hg.mem_edges.1 he).1
    rw [hlow.name_eq, hlow.name_eq]
    exact h.apart_of_adjacent hd hes hmid (hlow.adjacent_of_adjacent _ _ hadj)

theorem cites_of_refutedFor (hcause : net.RefutedFor cause) : Cites xs es cause cause.message := by
  have hcollapsed := collapse_returns h.posed.sound h.posed.leader_eq
  cases hcause with
  | merging hcollapse =>
      exact h.cites_of_unmergeable hd hes (hcollapsed.of_eq_ok hcollapse)
  | pruning hcollapse hprune =>
      have hmid : Collapsed net _ := hcollapsed.of_eq_ok hcollapse
      obtain ⟨a, b, hab, -, rfl⟩ := ((prune_returns hmid.sound).of_eq_ok hprune).cause_eq
      exact .inequality (h.apart_of_adjacent hd hes hmid hab)
  | searching hcollapse hprune hcritical =>
      have hmid : Collapsed net _ := hcollapsed.of_eq_ok hcollapse
      have hlow : Pruned _ _ := ((prune_returns hmid.sound).of_eq_ok hprune).1
      exact h.cites_differences hd hes hmid hlow hcritical

end

end

end Network.Imposed

namespace Clause

/-! ## The result -/

/-- A refutation that is not for the want of values cites what the equations say. -/
theorem cites_of_solve (hd : scope.Declares xs) (hes : ∀ e ∈ es, e.Proper xs)
    (hleave : LeaveValues xs es)
    (h : ((allOf es).solve scope settings mode).outcome = .ok (.unsat cause)) :
    Cites xs es cause cause.message := by
  obtain ⟨net, himposed, hnet⟩ :=
    solveEquations_of_viableUnder hd hes ((Network.viableUnder_iff hd).2 hleave)
  have hsolve : (solveEquations scope settings mode es).outcome = .ok (.unsat cause) :=
    outcome_of_framed h
  rw [hnet] at hsolve
  exact himposed.cites_of_refutedFor hd hes (Network.refutedFor_of_solve hsolve)

/-- The want of values is cited by the first equation that brings it about. -/
theorem solve_of_not_leaveValues (hd : scope.Declares xs) (hes : ∀ e ∈ es, e.Proper xs)
    (hempty : ¬LeaveValues xs es) : ∃ before name v equal after,
      es = before ++ .value name v equal :: after ∧ LeaveValues xs before ∧
      ¬LeaveValues xs (before ++ [.value name v equal]) ∧
      ((allOf es).solve scope settings mode).outcome =
        .ok (.unsat (.equation (.value name v equal))) := by
  obtain ⟨before, e, after, hsplit, hbefore, hafter, houtcome⟩ := solveAll_eq_unsat hd hes hempty
  obtain ⟨name, v, equal, rfl⟩ := exists_eq_value hbefore hafter
  have hunsat := houtcome [] settings mode
  rw [List.append_nil] at hunsat
  exact ⟨before, name, v, equal, after, hsplit, hbefore, hafter, hunsat⟩

theorem ne_emptyDomain_of_solve (hd : scope.Declares xs) (hes : ∀ e ∈ es, e.Proper xs)
    (h : ((allOf es).solve scope settings mode).outcome = .ok (.unsat cause)) (name : String) :
    cause ≠ .emptyDomain name := by
  rintro rfl
  by_cases hleave : LeaveValues xs es
  · cases cites_of_solve hd hes hleave h
  · obtain ⟨_, _, _, _, _, -, -, -, hunsat⟩ := solve_of_not_leaveValues hd hes hleave
    cases h.symm.trans hunsat

/--
A conjunction whose equations between variables and values leave some variable no value is refuted
for the first equation at which that is so. Every other refutation cites what the equations say: a
component without a common value, or two of its variables that are asked to differ, or the first
variables of components that are asked to differ. That a variable had no value to begin with is
never the reason.
-/
theorem solve_unsat_cites {groups : List (List Variable)}
    (hscope : Scope.ofGroups groups = .ok scope) (hes : (allOf es).Proper groups.flatten)
    (settings : Settings) (mode : Mode) :
    (¬LeaveValues groups.flatten es → ∃ before name v equal after,
      es = before ++ .value name v equal :: after ∧ LeaveValues groups.flatten before ∧
      ¬LeaveValues groups.flatten (before ++ [.value name v equal]) ∧
      ((allOf es).solve scope settings mode).outcome =
        .ok (.unsat (.equation (.value name v equal))) ∧
      (Conflict.equation (.value name v equal)).message =
        "UNSAT: " ++ name ++ (if equal then " == " else " != ") ++ toString v) ∧
    ∀ cause, ((allOf es).solve scope settings mode).outcome = .ok (.unsat cause) →
      (LeaveValues groups.flatten es → Cites groups.flatten es cause cause.message) ∧
      ∀ name, cause ≠ .emptyDomain name := by
  have hd := Scope.declares_ofGroups hscope
  refine ⟨fun hempty => ?_, fun cause h =>
    ⟨fun hleave => cites_of_solve hd hes hleave h, ne_emptyDomain_of_solve hd hes h⟩⟩
  obtain ⟨before, name, v, equal, after, hsplit, hbefore, hafter, hunsat⟩ :=
    solve_of_not_leaveValues hd hes hempty
  exact ⟨before, name, v, equal, after, hsplit, hbefore, hafter, hunsat,
    Conflict.message_value name v equal⟩

/-- A chain of equal bits, the ends of which are asked to differ. -/
def bitRing : List Equation := [.pair "c" "b" true, .pair "b" "a" true, .pair "c" "a" false]

theorem proper_bitRing : (allOf bitRing).Proper bits.flatten := by
  refine List.forall_mem_cons.2 ⟨?_, List.forall_mem_cons.2 ⟨?_, List.forall_mem_singleton.2 ?_⟩⟩
  · exact Equation.proper_pair (by decide) (by decide) (by decide)
  · exact Equation.proper_pair (by decide) (by decide) (by decide)
  · exact Equation.proper_pair (by decide) (by decide) (by decide)

/-- A bit that is to be one, and then is not to be one. -/
def bitClash : List Equation :=
  [.pair "a" "b" true, .value "b" 1 true, .pair "b" "c" false, .value "b" 1 false]

theorem proper_bitClash : (allOf bitClash).Proper bits.flatten := by
  refine List.forall_mem_cons.2 ⟨?_, List.forall_mem_cons.2 ⟨?_, List.forall_mem_cons.2
    ⟨?_, List.forall_mem_singleton.2 ?_⟩⟩⟩
  · exact Equation.proper_pair (by decide) (by decide) (by decide)
  · exact Equation.proper_value (by decide) 1 true
  · exact Equation.proper_pair (by decide) (by decide) (by decide)
  · exact Equation.proper_value (by decide) 1 false

theorem not_leaveValues_bitClash : ¬LeaveValues bits.flatten bitClash := by
  intro h
  obtain ⟨v, -, hvalues⟩ := h (.ofWidth "b" 1 (by decide)) (by decide)
  have hone : v = 1 := (hvalues 1 true (by decide)).2 rfl
  exact Bool.false_ne_true ((hvalues 1 false (by decide)).1 hone)

/--
The last of four equations takes the only value left. The contradiction in a chain is cited the
other way round, by its first variable. And three bits that are all to differ are refuted by a
search, which cites every pair.
-/
theorem solve_unsat_cites_bits :
    (∃ cause, ((allOf bitClash).solve bitScope {} .decide).outcome = .ok (.unsat cause) ∧
      cause.message = "UNSAT: b != 1") ∧
    (∃ cause, ((allOf bitRing).solve bitScope {} .witness).outcome = .ok (.unsat cause) ∧
      cause.message = "UNSAT: a == c && a != c" ∧
      Linked bitRing "a" "c" ∧ Relates bitRing false "a" "c") ∧
    ∃ cause, (bitTriangle.solve bitScope {} .witness).outcome = .ok (.unsat cause) ∧
      cause.message = "UNSAT: \x7ba != b, a != c, b != c\x7d" ∧
      Apart bits.flatten bitTriangle.equations "a" "c" := by
  have hclash : ((allOf bitClash).solve bitScope {} .decide).outcome =
      .ok (.unsat (.equation (.value "b" 1 false))) := by decide +kernel
  have hring : ((allOf bitRing).solve bitScope {} .witness).outcome =
      .ok (.unsat (.contradiction "a" "c")) := by decide +kernel
  have htriangle : ((allOf bitTriangle.equations).solve bitScope {} .witness).outcome =
      .ok (.unsat (.inequalities [("a", "b"), ("a", "c"), ("b", "c")])) := by decide +kernel
  refine ⟨⟨_, hclash, ?_⟩, ⟨_, hring, ?_⟩, ⟨_, htriangle, ?_⟩⟩
  · obtain ⟨hempty, -⟩ := solve_unsat_cites rfl proper_bitClash {} .decide
    obtain ⟨_, name, v, equal, _, -, -, -, hunsat, hmessage⟩ := hempty not_leaveValues_bitClash
    cases hclash.symm.trans hunsat
    exact hmessage
  · obtain ⟨-, hcites⟩ := solve_unsat_cites rfl proper_bitRing {} .witness
    have hleave : LeaveValues bits.flatten bitRing := leaveValues_of_not_isValue (by decide)
    obtain ⟨hcites, -⟩ := hcites _ hring
    generalize (Conflict.contradiction "a" "c").message = message at hcites ⊢
    cases hcites hleave with
    | contradiction hlinked _ hrelated => exact ⟨rfl, hlinked, hrelated⟩
  · obtain ⟨-, hcites⟩ := solve_unsat_cites rfl proper_bitTriangle {} .witness
    have hleave : LeaveValues bits.flatten bitTriangle.equations :=
      leaveValues_of_not_isValue (by decide)
    obtain ⟨hcites, -⟩ := hcites _ htriangle
    generalize (Conflict.inequalities [("a", "b"), ("a", "c"), ("b", "c")]).message = message
      at hcites ⊢
    cases hcites hleave with
    | inequalities _ _ hapart => exact ⟨rfl, hapart ("a", "c") (by decide)⟩

end Clause

end FiniteDomain
