import FiniteDomain.Domain.Basic
import FiniteDomain.Index
import FiniteDomain.Proofs.IndexSetMembers
import FiniteDomain.Proofs.Returning
import Mathlib

/-!
# Taking nothing for granted

The solvers look things up by index without asking whether the index is in bounds,
lower counts without asking whether they hold as much, and build intervals without
asking whether the bounds are in order. Where they should be wrong about it they
would go on regardless, with a default, or with zero. A checked computation stops
instead. It is the same computation with every such question asked, and `Breach` is
what it stops at.

A checked form is worth having because it can be shown to agree with the unchecked
one. The lemmas here say so of index sets and domains, where it is a matter of the
data alone; whatever depends on how a network is put together comes later.
-/

namespace FiniteDomain

/-- Why a checked computation stops. -/
inductive Breach where
  /-- A refusal, of those the unchecked computation knows. -/
  | fault (fault : Fault)
  /-- More is taken off a count than it holds. -/
  | underflow (count taken : Nat)

/-- A computation that takes nothing for granted. -/
abbrev Checked (α : Type) : Type := Except Breach α

namespace Checked

variable {α β σ : Type}

/-- A computation that may be refused, as a checked one. -/
def lift (x : Except Fault α) : Checked α := x.mapError .fault

/-- Stops. -/
def refuse (fault : Fault) : Checked α := .error (.fault fault)

/-- Stops at an index that is not below the size of what it is looked up in. -/
def require (size i : Nat) : Checked Unit :=
  if i < size then .ok () else refuse (.outOfBounds size i)

/-- Takes a number off a count that holds as much. -/
def subtract (count taken : Nat) : Checked Nat :=
  if taken ≤ count then .ok (count - taken) else .error (.underflow count taken)

@[simp]
theorem ok_bind (a : α) (f : α → Checked β) : (Except.ok a : Checked α) >>= f = f a := rfl

@[simp]
theorem lift_ok (a : α) : lift (.ok a) = .ok a := rfl

theorem require_of_lt {size i : Nat} (h : i < size) : require size i = .ok () := if_pos h

theorem subtract_of_le {count taken : Nat} (h : taken ≤ count) :
    subtract count taken = .ok (count - taken) := if_pos h

/-! ## Agreeing with an unchecked computation -/

/-- Sequences agree if their parts do, as far as the unchecked one gets. -/
theorem eq_lift_bind {x : Checked α} {y : Except Fault α} {f : α → Checked β}
    {g : α → Except Fault β} (hx : x = lift y) (hf : ∀ a, y = .ok a → f a = lift (g a)) :
    x >>= f = lift (y >>= g) := by
  rw [hx]
  cases y with
  | error fault => rfl
  | ok a => exact hf a rfl

theorem eq_lift_andThen {x : Checked α} {y : Traced α} {f : α → Checked β} {g : α → Traced β}
    (hx : x = lift y.outcome) (hf : ∀ a, y.outcome = .ok a → f a = lift (g a).outcome) :
    x >>= f = lift (y >>= g).outcome := by
  rw [Traced.outcome_bind]
  exact eq_lift_bind hx hf

/-- Reporting an event changes nothing. -/
theorem eq_lift_note {x : Checked α} {event : Event} {g : Unit → Traced α}
    (h : x = lift (g ()).outcome) : x = lift (Traced.note event >>= g).outcome := h

/-- A fold agrees with an unchecked one if the steps do as long as an invariant holds. -/
theorem foldlM_eq_ok {step : σ → α → Checked σ} {step' : σ → α → σ} (inv : σ → Prop)
    {as : List α} (hstep : ∀ a ∈ as, ∀ s, inv s → step s a = .ok (step' s a) ∧ inv (step' s a)) :
    ∀ {s}, inv s → as.foldlM step s = .ok (as.foldl step' s) := by
  induction as with
  | nil =>
      intro s _
      rfl
  | cons a as ih =>
      intro s hs
      obtain ⟨heq, hnext⟩ := hstep a List.mem_cons_self s hs
      rw [List.foldlM_cons, heq]
      exact ih (fun a ha => hstep a (List.mem_cons_of_mem _ ha)) hnext

theorem mapM_eq_ok {f : α → Checked β} {g : α → β} {as : List α}
    (h : ∀ a ∈ as, f a = .ok (g a)) : as.mapM f = .ok (as.map g) := by
  induction as with
  | nil => rfl
  | cons a as ih =>
      rw [List.mapM_cons, h a List.mem_cons_self, ih fun a ha => h a (List.mem_cons_of_mem _ ha)]
      rfl

end Checked

open Checked

/-! ## Domains -/

namespace Interval

/-- A piece cut off an interval, if there is one, with its bounds in order. -/
def pieceChecked (wanted : Bool) (lo hi : Int) : Checked (List Interval) :=
  if wanted then lift ((ofBounds lo hi).map fun a => [a]) else return []

/-- The values of `a` that are not in `b`. -/
def minusChecked (a b : Interval) : Checked (List Interval) := do
  if a.overlaps b then
    let below ← pieceChecked (a.lo < b.lo) a.lo (b.lo - 1)
    let above ← pieceChecked (b.hi < a.hi) (b.hi + 1) a.hi
    return below ++ above
  else return [a]

theorem between?_of_le {lo hi : Int} (h : lo ≤ hi) : between? lo hi = some ⟨lo, hi, h⟩ := dif_pos h

theorem between?_of_lt {lo hi : Int} (h : hi < lo) : between? lo hi = none :=
  dif_neg (Int.not_le.2 h)

theorem pieceChecked_eq {wanted : Bool} {lo hi : Int} (h : wanted = true ↔ lo ≤ hi) :
    pieceChecked wanted lo hi = .ok (between? lo hi).toList := by
  rw [pieceChecked]
  split
  · next hwanted =>
      rw [ofBounds, between?_of_le (h.1 hwanted)]
      rfl
  · next hunwanted =>
      rw [between?_of_lt (Int.not_le.1 (mt h.2 hunwanted))]
      rfl

theorem minusChecked_eq (a b : Interval) : a.minusChecked b = .ok (a.minus b) := by
  have ha := a.lo_le_hi
  have hb := b.lo_le_hi
  rw [minusChecked, minus]
  cases hoverlap : a.overlaps b with
  | true =>
      simp only [overlaps, Bool.and_eq_true, decide_eq_true_eq] at hoverlap
      have hbelow : decide (a.lo < b.lo) = true ↔ a.lo ≤ b.lo - 1 := by
        rw [decide_eq_true_eq]
        omega
      have habove : decide (b.hi < a.hi) = true ↔ b.hi + 1 ≤ a.hi := by
        rw [decide_eq_true_eq]
        omega
      rw [min_eq_right (by omega), max_eq_right (by omega), if_pos rfl, pieceChecked_eq hbelow,
        pieceChecked_eq habove]
      rfl
  | false =>
      simp only [overlaps, Bool.and_eq_false_iff, decide_eq_false_iff_not, Int.not_le] at hoverlap
      rw [if_neg Bool.false_ne_true]
      -- An interval that lies on one side of `b` is a piece of itself.
      rcases hoverlap with habove | hbelow
      · rw [between?_of_lt (by omega), max_eq_left (by omega), between?_of_le ha]
        rfl
      · rw [min_eq_left (by omega), between?_of_le ha, between?_of_lt (by omega)]
        rfl

end Interval

namespace Domain

/-- Drops the values in `a`. -/
def excludeIntervalChecked (d : Domain) (a : Interval) : Checked Domain := do
  let pieces ← d.intervals.mapM (·.minusChecked a)
  return ⟨pieces.flatten⟩

/-- Drops the values of `e`. -/
def excludeChecked (d e : Domain) : Checked Domain := e.intervals.foldlM excludeIntervalChecked d

/-- The values a variable starts with, whose width must not be zero. -/
def ofVariableChecked (x : Variable) : Checked Domain :=
  match x.value? with
  | some v => return singleton v
  | none => lift (full x.width)

theorem excludeIntervalChecked_eq (d : Domain) (a : Interval) :
    d.excludeIntervalChecked a = .ok (d.excludeInterval a) := by
  rw [excludeIntervalChecked, mapM_eq_ok fun b _ => b.minusChecked_eq a]
  simp [excludeInterval, List.flatMap_def]

theorem excludeChecked_eq (d e : Domain) : d.excludeChecked e = .ok (d.exclude e) :=
  foldlM_eq_ok (fun _ => True) (fun a _ d _ => ⟨d.excludeIntervalChecked_eq a, trivial⟩) trivial

theorem ofVariableChecked_eq (x : Variable) : ofVariableChecked x = .ok (ofVariable x) := by
  rw [ofVariableChecked, ofVariable]
  cases x.value? with
  | some v => rfl
  | none => rw [full, if_neg (Nat.ne_of_gt x.width_pos), lift_ok]

end Domain

/-! ## Index sets -/

namespace IndexSet

variable {s : IndexSet}

/-- Adds an index, for which there is a word by then. -/
def insertChecked (s : IndexSet) (i : Nat) : Checked IndexSet := do
  require (grow s.words (i / 64 + 1)).size (i / 64)
  return s.insert i

/-- Takes an index out, whose word must be there, and lowers the count. -/
def eraseChecked (s : IndexSet) (i : Nat) : Checked IndexSet := do
  if s.contains i then
    require s.words.size (i / 64)
    let _ ← subtract s.count 1
    return s.erase i
  else return s

/-- The set of the indices in a list. -/
def ofListChecked (is : List Nat) : Checked IndexSet := is.foldlM insertChecked empty

theorem insertChecked_eq (s : IndexSet) (i : Nat) : s.insertChecked i = .ok (s.insert i) := by
  have hword : i / 64 < (grow s.words (i / 64 + 1)).size := by
    rw [size_grow]
    omega
  rw [insertChecked, require_of_lt hword]
  rfl

theorem Sound.eraseChecked_eq (hs : s.Sound) (i : Nat) : s.eraseChecked i = .ok (s.erase i) := by
  rw [eraseChecked]
  split
  · next hi =>
      have hcount : 1 ≤ s.count := hs ▸ List.length_pos_of_mem (mem_toList.2 hi)
      rw [require_of_lt (div_lt_size_of_contains hi), subtract_of_le hcount]
      rfl
  · next hi =>
      rw [IndexSet.erase, if_neg hi]
      rfl

theorem ofListChecked_eq (is : List Nat) : ofListChecked is = .ok (ofList is) :=
  foldlM_eq_ok (fun _ => True) (fun i _ s _ => ⟨s.insertChecked_eq i, trivial⟩) trivial

end IndexSet

end FiniteDomain
