import FiniteDomain.Proofs.Returning
import FiniteDomain.Solve.Clause
import Mathlib

/-!
# Who reports how many values were tried

The number of values that a search tried is no part of a verdict. It is reported, once
for every search that was finished, and a caller can read it nowhere else. The phases
of a solve report many things but never such a number, not even the search itself while
it goes on; so the report is the one that comes after the search.
-/

namespace FiniteDomain

/-- The number of values that an event says were tried by a finished search. -/
def Event.tried? : Event → Option Nat
  | .tried values => some values
  | _ => none

namespace Traced

variable {α β : Type} {x : Traced α} {f : α → Traced β} {a : α}

/-- The numbers of values that finished searches are reported to have tried. -/
def triedCounts (x : Traced α) : List Nat := x.events.filterMap Event.tried?

/-- Is no search reported to be finished? -/
def Quiet (x : Traced α) : Prop := x.triedCounts = []

theorem triedCounts_bind (hx : x.outcome = .ok a) :
    (x >>= f).triedCounts = x.triedCounts ++ (f a).triedCounts := by
  show (andThen x f).triedCounts = _
  simp only [andThen, hx, triedCounts, List.filterMap_append]

theorem Quiet.triedCounts_bind (hquiet : x.Quiet) (hx : x.outcome = .ok a) :
    (x >>= f).triedCounts = (f a).triedCounts := by
  rw [Traced.triedCounts_bind hx, hquiet, List.nil_append]

theorem quiet_pure (a : α) : (pure a : Traced α).Quiet := rfl

theorem quiet_fail (fault : Fault) : (fail fault : Traced α).Quiet := rfl

theorem quiet_ofExcept (x : Except Fault α) : (ofExcept x).Quiet := rfl

theorem quiet_note {event : Event} (h : event.tried? = none) : (note event).Quiet := by
  simp [Quiet, triedCounts, note, h]

theorem Quiet.bind (hx : x.Quiet) (hf : ∀ a, (f a).Quiet) : (x >>= f).Quiet := by
  cases hout : x.outcome with
  | error fault =>
      show (andThen x f).Quiet
      simpa only [andThen, hout, Quiet, triedCounts] using hx
  | ok a => exact (hx.triedCounts_bind hout).trans (hf a)

end Traced

open Traced

theorem quiet_refute (cause : Conflict) : (refute cause).Quiet :=
  (quiet_note rfl).bind fun _ => quiet_pure _

namespace Network

variable {settings : Settings} {mode : Mode} {order : ValueOrder}

/-! ## Merging -/

theorem quiet_mergeClasses (heads : List Nat) (swallowed : IndexSet) (net : Network) :
    (mergeClasses heads swallowed net).Quiet := by
  induction heads generalizing swallowed net with
  | nil => exact quiet_pure _
  | cons head heads ih =>
      rw [mergeClasses]
      split
      · exact ih _ _
      · refine (quiet_ofExcept _).bind fun members => (quiet_note rfl).bind fun _ => ?_
        split
        · exact ih _ _
        · exact quiet_pure _

theorem quiet_collapse (net : Network) : net.collapse.Quiet := by
  refine (quiet_mergeClasses _ _ _).bind fun phase => ?_
  cases phase with
  | stuck net cause => exact quiet_pure _
  | passed net =>
      simp only []
      split
      · exact quiet_pure _
      · exact quiet_fail _

/-! ## Pruning -/

theorem quiet_concede (net : Network) (a b loser : Nat) (common : Domain) :
    (net.concede a b loser common).Quiet :=
  (quiet_note rfl).bind fun _ => quiet_pure _

theorem quiet_decideInequality (net : Network) (a b : Nat) : (net.decideInequality a b).Quiet := by
  unfold decideInequality
  simp only []
  split
  · split
    · split
      · exact quiet_pure _
      · exact quiet_concede _ _ _ _ _
      · exact quiet_concede _ _ _ _ _
      · exact quiet_pure _
    · exact quiet_pure _
  · exact (quiet_note rfl).bind fun _ => quiet_pure _

theorem quiet_decideInequalities (es : List (Nat × Nat)) (net : Network) :
    (decideInequalities es net).Quiet := by
  induction es generalizing net with
  | nil => exact quiet_pure _
  | cons e es ih =>
      rw [decideInequalities]
      refine (quiet_decideInequality _ _ _).bind fun phase => ?_
      cases phase with
      | passed net => exact ih net
      | stuck net cause => exact quiet_pure _

theorem quiet_prune (net : Network) : net.prune.Quiet := quiet_decideInequalities _ net

/-! ## Searching -/

theorem quiet_pick (is : List Nat) (net : Network) (values : Array (Option Int)) :
    (pick order is net values).Quiet := by
  induction is generalizing net values with
  | nil => exact quiet_pure _
  | cons i is ih =>
      rw [pick]
      split
      · split
        · exact quiet_fail _
        · exact (quiet_note rfl).bind fun _ => ih _ _
      · exact ih _ _

theorem quiet_witness (net : Network) : (net.witness order).Quiet := by
  refine (quiet_pick _ _ _).bind fun r => (quiet_ofExcept _).bind fun s => ?_
  split
  · exact quiet_pure _
  · exact quiet_fail _

theorem quiet_accept (net : Network) : (net.accept settings mode).Quiet := by
  cases mode with
  | decide => exact quiet_pure _
  | witness => exact (quiet_witness net).bind fun _ => quiet_pure _

theorem quiet_tryValues {deeper : Network → Nat → Traced (Verdict × Nat)}
    (hdeeper : ∀ net tried, (deeper net tried).Quiet) (net : Network) (x : Nat) (vs : List Int)
    (tried : Nat) : (tryValues settings deeper net x vs tried).Quiet := by
  induction vs generalizing tried with
  | nil => exact (quiet_refute _).bind fun _ => quiet_pure _
  | cons v vs ih =>
      rw [tryValues]
      split
      · refine (quiet_note rfl).bind fun _ => (hdeeper _ _).bind fun found => ?_
        obtain ⟨verdict, tried'⟩ := found
        cases verdict with
        | unsat cause => exact ih tried'
        | sat s => exact quiet_pure _
        | unknown pairs => exact quiet_pure _
      · exact (quiet_note rfl).bind fun _ => quiet_pure _

/-- The number is not reported before the whole search is over. -/
theorem quiet_search (depth : Nat) (net : Network) (tried : Nat) :
    (search settings mode depth net tried).Quiet := by
  induction depth generalizing net tried with
  | zero => exact quiet_fail _
  | succ depth ih =>
      rw [search]
      split
      · exact (quiet_accept net).bind fun _ => quiet_pure _
      · refine (quiet_prune net).bind fun phase => ?_
        cases phase with
        | stuck net cause => exact (quiet_refute cause).bind fun _ => quiet_pure _
        | passed net =>
            simp only []
            split
            · exact (quiet_note rfl).bind fun _ => (quiet_accept net).bind fun _ => quiet_pure _
            · exact (quiet_note rfl).bind fun _ => quiet_tryValues ih _ _ _ _

end Network

end FiniteDomain
