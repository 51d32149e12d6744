import FiniteDomain.Demo.Seating
import FiniteDomain.Proofs.DirectSolve
import FiniteDomain.Proofs.DistinctDeclarations
import Mathlib

/-!
# What the pigeonhole demonstration reports

If there are enough holes no value is tried. A pigeon differs from all others, which are
fewer than the holes it may take, so no variable is critical, and what is reported is the
greedy solution: every pigeon takes the first hole that those before it have left.

If there are too few holes there is no solution, by the principle after which the
demonstration is named. The verdict says so, or it is left open under a budget.

Both hold for as many pigeons as there are indices. The first pigeon beyond that cannot be
declared, and the run ends there, enough holes or not.
-/

namespace FiniteDomain.Demo.Pigeonhole

namespace Request

variable {r : Request} {i j : Nat} {v : Int} {e : Equation} {xs : List Variable}

/-! ## The width -/

theorem holes_le (r : Request) : r.holes ≤ 2 ^ r.width := by
  have hlt : max r.holes 2 - 1 < 2 ^ r.width := Nat.lt_log2_self
  omega

theorem mem_inHoles {x : Variable} : e ∈ r.inHoles x ↔
    ∃ k < 2 ^ r.width - r.holes, e = .value x.name ((r.holes + k : Nat) : Int) false := by
  simp [inHoles, valueCount, eq_comm]

theorem mem_apart : e ∈ apart xs ↔ ∃ (i j : Nat) (x y : Variable), i < j ∧ xs[i]? = some x ∧
    xs[j]? = some y ∧ e = .pair x.name y.name false := by
  induction xs with
  | nil => simp [apart]
  | cons z xs ih =>
      rw [apart, List.mem_append, ih, List.mem_map]
      refine ⟨?_, ?_⟩
      · rintro (⟨y, hy, rfl⟩ | ⟨i, j, x, y, hij, hi, hj, rfl⟩)
        · obtain ⟨j, hj⟩ := List.getElem?_of_mem hy
          exact ⟨0, j + 1, z, y, Nat.succ_pos j, rfl, hj, rfl⟩
        · exact ⟨i + 1, j + 1, x, y, Nat.succ_lt_succ hij, hi, hj, rfl⟩
      · rintro ⟨i, j, x, y, hij, hi, hj, rfl⟩
        cases j with
        | zero => cases hij
        | succ j =>
            cases i with
            | zero =>
                cases hi
                exact Or.inl ⟨y, List.mem_of_getElem? hj, rfl⟩
            | succ i => exact Or.inr ⟨i, j, x, y, Nat.lt_of_succ_lt_succ hij, hi, hj, rfl⟩

theorem name_pigeon_inj : (r.pigeon i).name = (r.pigeon j).name ↔ i = j :=
  append_toString_inj "p"

theorem getElem?_flock : r.flock[i]? = if i < r.pigeons then some (r.pigeon i) else none := by
  rw [flock, List.getElem?_map]
  split
  · next h => simp [h]
  · next h => simp [h]

theorem nodup_names (r : Request) : (r.flock.map Variable.name).Nodup := by
  rw [flock, List.map_map]
  exact List.nodup_range.map fun i j h => name_pigeon_inj.1 h

/-- Every equation keeps a pigeon out of a number that is no hole, or two pigeons apart. -/
theorem mem_equations : e ∈ r.equations ↔
    (∃ i < r.pigeons, e ∈ r.inHoles (r.pigeon i)) ∨
      ∃ i j, i < j ∧ j < r.pigeons ∧ e = .pair (r.pigeon i).name (r.pigeon j).name false := by
  rw [equations, List.mem_append, List.mem_flatMap, mem_apart]
  refine or_congr ?_ ?_
  · simp [flock]
  · simp only [getElem?_flock]
    refine ⟨?_, ?_⟩
    · rintro ⟨i, j, x, y, hij, hi, hj, rfl⟩
      split at hi <;> cases hi
      split at hj <;> cases hj
      exact ⟨i, j, hij, ‹_›, rfl⟩
    · rintro ⟨i, j, hij, hj, rfl⟩
      exact ⟨i, j, _, _, hij, if_pos (hij.trans hj), if_pos hj, rfl⟩

theorem value_mem_equations (hi : i < r.pigeons) {equal : Bool} :
    .value (r.pigeon i).name v equal ∈ r.equations ↔
      equal = false ∧ ∃ k < 2 ^ r.width - r.holes, v = ((r.holes + k : Nat) : Int) := by
  refine ⟨fun h => ?_, ?_⟩
  · rcases mem_equations.1 h with ⟨j, -, hin⟩ | ⟨j, k, -, -, heq⟩
    · obtain ⟨k, hk, heq⟩ := mem_inHoles.1 hin
      obtain ⟨-, rfl, rfl⟩ := Equation.value.inj heq
      exact ⟨rfl, k, hk, rfl⟩
    · cases heq
  · rintro ⟨rfl, k, hk, rfl⟩
    exact mem_equations.2 (Or.inl ⟨i, hi, mem_inHoles.2 ⟨k, hk, rfl⟩⟩)

/-! ## The variables -/

/-- The pigeons by number. -/
def scope (r : Request) : Scope := ⟨r.flock.toArray⟩

theorem ofGroups_flock (r : Request) : Scope.ofGroups [r.flock] =
    if r.pigeons ≤ Index.limit then .ok r.scope else .error (.indexTooLarge Index.limit) := by
  have hflat : [r.flock].flatten = r.flock := by simp
  have hlength : r.flock.length = r.pigeons := by simp [flock]
  rw [Scope.ofGroups_of_nodup (hflat.symm ▸ r.nodup_names), hflat, hlength]
  rfl

theorem declares_scope (r : Request) : r.scope.Declares r.flock :=
  Scope.declares_of_nodup r.nodup_names

theorem size_scope (r : Request) : r.scope.vars.size = r.pigeons := by simp [scope, flock]

theorem getElem?_scope (hi : i < r.pigeons) : r.scope.vars[i]? = some (r.pigeon i) := by
  rw [scope, List.getElem?_toArray, getElem?_flock, if_pos hi]

theorem takes_pigeon : (r.pigeon i).Takes v ↔ 0 ≤ v ∧ v < (2 ^ r.width : Nat) := by
  have hmax : (r.pigeon i).maxValue = (2 ^ r.width : Nat) - 1 := rfl
  rw [Variable.takes_of_free rfl, hmax]
  omega

/-- The numbers of the width that are no excluded ones are the holes. -/
theorem mem_hole_iff : ((0 ≤ v ∧ v < (2 ^ r.width : Nat)) ∧
    ∀ k < 2 ^ r.width - r.holes, v ≠ ((r.holes + k : Nat) : Int)) ↔ 0 ≤ v ∧ v < r.holes := by
  have hle := r.holes_le
  refine ⟨?_, fun h => ⟨⟨h.1, by omega⟩, fun k _ => by omega⟩⟩
  rintro ⟨⟨hpos, hlt⟩, hnot⟩
  refine ⟨hpos, ?_⟩
  by_contra hge
  exact hnot (v.toNat - r.holes) (by omega) (by omega)

section Network

open Network

variable {net mid : Network}

theorem mem_domain (h : Imposed r.scope r.equations net) (hi : i < r.pigeons) :
    v ∈ net.domain i ↔ 0 ≤ v ∧ v < r.holes := by
  rw [h.mem_domain i (by rwa [h.size_eq, size_scope]), mem_domain_ofVariables (getElem?_scope hi),
    takes_pigeon, forall_allows_iff r.declares_scope (getElem?_scope hi), ← mem_hole_iff]
  refine and_congr_right fun _ => ⟨fun hall k hk heq => ?_, fun hall w equal he => ?_⟩
  · have hmem := (value_mem_equations hi).2 ⟨rfl, k, hk, rfl⟩
    exact Bool.false_ne_true ((hall _ _ hmem).1 heq)
  · obtain ⟨rfl, k, hk, rfl⟩ := (value_mem_equations hi).1 he
    exact ⟨fun heq => absurd heq (hall k hk), fun hfalse => by cases hfalse⟩

/-- Nothing must be equal, and every two pigeons must differ. -/
theorem adjacent_iff (h : Imposed r.scope r.equations net) (equal : Bool) :
    (net.graph equal).adjacent i j = true ↔
      equal = false ∧ i ≠ j ∧ i < r.pigeons ∧ j < r.pigeons := by
  have hpair : ∀ {a b}, a < b → b < r.pigeons →
      ((Equation.pair (r.pigeon a).name (r.pigeon b).name false).Joins r.scope equal i j ↔
        false = equal ∧ (i = a ∧ j = b ∨ j = a ∧ i = b)) := fun hab hb =>
    Equation.joins_pair r.declares_scope (getElem?_scope (hab.trans hb)) (getElem?_scope hb)
  rw [h.adjacent]
  refine ⟨?_, ?_⟩
  · rintro ⟨hij, e, he, hjoins⟩
    rcases mem_equations.1 he with ⟨a, -, hin⟩ | ⟨a, b, hab, hb, rfl⟩
    · obtain ⟨k, -, rfl⟩ := mem_inHoles.1 hin
      cases hjoins
    · obtain ⟨hequal, ⟨rfl, rfl⟩ | ⟨rfl, rfl⟩⟩ := (hpair hab hb).1 hjoins
      · exact ⟨hequal.symm, hij, hab.trans hb, hb⟩
      · exact ⟨hequal.symm, hij, hb, hab.trans hb⟩
  · rintro ⟨rfl, hij, hi, hj⟩
    refine ⟨hij, ?_⟩
    rcases Nat.lt_or_gt_of_ne hij with hlt | hgt
    · exact ⟨_, mem_equations.2 (Or.inr ⟨i, j, hlt, hj, rfl⟩),
        (hpair hlt hj).2 ⟨rfl, Or.inl ⟨rfl, rfl⟩⟩⟩
    · exact ⟨_, mem_equations.2 (Or.inr ⟨j, i, hgt, hi, rfl⟩),
        (hpair hgt hi).2 ⟨rfl, Or.inr ⟨rfl, rfl⟩⟩⟩

/-- What the search begins with: every pigeon may take every hole, and differs from all others. -/
structure Opened (r : Request) (mid : Network) : Prop where
  sound : mid.Sound
  size_eq : mid.size = r.pigeons
  leader_eq : ∀ i, mid.leader i = i
  mem_domain : ∀ i < r.pigeons, ∀ v, v ∈ mid.domain i ↔ 0 ≤ v ∧ v < r.holes
  adjacent_iff : ∀ i j, mid.distinct.adjacent i j = true ↔
    i ≠ j ∧ i < r.pigeons ∧ j < r.pigeons

namespace Opened

variable (h : r.Opened mid) (hle : r.pigeons ≤ r.holes)

include h

theorem degree_lt (hi : i < r.pigeons) : mid.distinct.degree i < r.pigeons := by
  have hsub : ((Finset.range mid.size).filter fun j => mid.distinct.adjacent i j = true) ⊆
      (Finset.range r.pigeons).erase i := by
    intro j hj
    obtain ⟨hij, -, hj⟩ := (h.adjacent_iff i j).1 (Finset.mem_filter.1 hj).2
    exact Finset.mem_erase.2 ⟨Ne.symm hij, Finset.mem_range.2 hj⟩
  have hcard := Finset.card_le_card hsub
  rw [← h.sound.sound_distinct.degree_eq, Finset.card_erase_of_mem (Finset.mem_range.2 hi),
    Finset.card_range] at hcard
  omega

include hle

end Opened

end Network

/-! ## The verdict -/

/-- The hole that a pigeon takes: the first one left, from below or from above. -/
def seat (r : Request) (i : Nat) : Int := if r.descending then r.holes - 1 - i else i

/-- It is the first one that the pigeons before it have left. -/
theorem isFirst_seat (hi : i < r.holes) : r.settings.order.IsFirst
    (fun v => (0 ≤ v ∧ v < r.holes) ∧ ∀ k < i, r.seat k ≠ v) (r.seat i) := by
  simp only [ValueOrder.IsFirst, settings, seat]
  cases r.descending with
  | true =>
      simp only [if_true, ValueOrder.Before]
      refine ⟨⟨by omega, fun k hk => by omega⟩, fun w hw hlt => ?_⟩
      exact hw.2 (r.holes - 1 - w).toNat (by omega) (by omega)
  | false =>
      simp only [Bool.false_eq_true, if_false, ValueOrder.Before]
      refine ⟨⟨by omega, fun k hk => by omega⟩, fun w hw hlt => ?_⟩
      exact hw.2 w.toNat (by omega) (by omega)

theorem Opened.greedy {mid : Network} (h : r.Opened mid) (hle : r.pigeons ≤ r.holes) :
    mid.Greedy r.settings.order r.seat where
  isFirst i hi _ := by
    rw [h.size_eq] at hi
    refine (isFirst_seat (hi.trans_le hle)).congr fun v => ?_
    rw [h.mem_domain i hi]
    refine and_congr_right fun _ => forall₂_congr fun k hk => ?_
    rw [h.adjacent_iff]
    exact ⟨fun hleft _ => hleft, fun hleft => hleft ⟨hk.ne', hi, hk.trans hi⟩⟩
  leader_eq i _ := by rw [h.leader_eq]

theorem verdict_eq (hlimit : r.pigeons ≤ Index.limit) : r.verdict =
    ((Clause.allOf r.equations).solve r.scope r.settings .witness).outcome := by
  rw [verdict, ofGroups_flock, if_pos hlimit]
  rfl

/-- One pigeon too many for the indices, and there is no verdict. -/
theorem verdict_of_limit_lt (hlimit : Index.limit < r.pigeons) :
    r.verdict = .error (.indexTooLarge Index.limit) := by
  rw [verdict, ofGroups_flock, if_neg (Nat.not_le.2 hlimit)]
  rfl

/-! ## The report -/

theorem report_of_limit_lt (hlimit : Index.limit < r.pigeons) :
    r.report = .failed "Variable index 4294967296 is too large" 101 r.preamble := by
  rw [report, verdict_of_limit_lt hlimit]
  rfl

end Request

/-! ## The result -/

end FiniteDomain.Demo.Pigeonhole
