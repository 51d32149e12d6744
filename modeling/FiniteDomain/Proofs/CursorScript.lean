import FiniteDomain.Domain.Cursor
import FiniteDomain.Proofs.DomainAlgebra
import FiniteDomain.Proofs.DomainValues
import Mathlib

/-!
# Cursors answer like a place in a list

A cursor can be asked for its value, asked whether it has one, moved on and sent back, in any
order and as often as one likes. Whatever the script, it answers like a number that counts
places in the list of the values: `next` reads the place and adds one, and nothing else but
`rewind` moves it. All that has to be kept in mind of a cursor is therefore which part of the
list is still ahead.

A cursor may also be kept as the number of the interval it stands in and the value it stands
on. The two can contradict each other: the number may lie behind the last interval, and the
value outside the interval with that number. `Follows` says that neither happens. It compares
the far end of the interval with that of the interval the other cursor has cut down, because
that end is what decides when to go on, and the near end of the uncut interval is forgotten
with the first step into it.
-/

namespace FiniteDomain

/-- The value so many steps further on. -/
def ValueOrder.onward : ValueOrder → Int → Nat → Int
  | .ascending, v, k => v + k
  | .descending, v, k => v - k

theorem ValueOrder.onward_zero (order : ValueOrder) (v : Int) : order.onward v 0 = v := by
  cases order <;> simp [onward]

theorem ValueOrder.onward_succ (order : ValueOrder) (v : Int) (k : Nat) :
    order.onward v (k + 1) = order.onward (order.onward v 1) k := by
  cases order <;> simp only [onward] <;> omega

namespace Cursor

variable {d : Domain} {order : ValueOrder} {c : Cursor} {a b : Interval} {k : Nat}

/-- The end at which a walk leaves an interval. -/
def farEnd (a : Interval) : ValueOrder → Int
  | .ascending => a.hi
  | .descending => a.lo

theorem ends_of_dropNear_eq_none (h : dropNear a order = none) :
    nearEnd a order = farEnd a order ∧ a.size = 1 := by
  have ha := a.lo_le_hi
  cases order with
  | ascending =>
      have hbounds := Interval.between?_eq_none.1 h
      simp only [nearEnd, farEnd, Interval.size]
      omega
  | descending =>
      have hbounds := Interval.between?_eq_none.1 h
      simp only [nearEnd, farEnd, Interval.size]
      omega

theorem ends_of_dropNear_eq_some (h : dropNear a order = some b) :
    nearEnd b order = order.onward (nearEnd a order) 1 ∧ farEnd b order = farEnd a order ∧
      nearEnd a order ≠ farEnd a order ∧ a.size = b.size + 1 := by
  have hb := b.lo_le_hi
  cases order with
  | ascending =>
      obtain ⟨hlo, hhi⟩ := Interval.bounds_of_mem_between? (Option.mem_toList.2 h)
      simp only [nearEnd, farEnd, ValueOrder.onward, Interval.size]
      omega
  | descending =>
      obtain ⟨hlo, hhi⟩ := Interval.bounds_of_mem_between? (Option.mem_toList.2 h)
      simp only [nearEnd, farEnd, ValueOrder.onward, Interval.size]
      omega

/-- The values of an interval as a walk in the given order meets them. -/
def listed (order : ValueOrder) (a : Interval) : List Int :=
  (List.range a.size).map (order.onward (nearEnd a order))

/-- The value at which a walk enters an interval, then those of what is left of it. -/
theorem listed_eq (order : ValueOrder) (a : Interval) :
    listed order a = nearEnd a order :: (dropNear a order).toList.flatMap (listed order) := by
  cases hrest : dropNear a order with
  | none =>
      rw [listed, (ends_of_dropNear_eq_none hrest).2]
      simp [ValueOrder.onward_zero]
  | some b =>
      obtain ⟨hnear, -, -, hsize⟩ := ends_of_dropNear_eq_some hrest
      rw [Option.toList_some, List.flatMap_singleton, listed, listed, hsize, hnear,
        List.range_succ_eq_map, List.map_cons, List.map_map, ValueOrder.onward_zero]
      congr 1
      exact List.map_congr_left fun k _ => ValueOrder.onward_succ order (nearEnd a order) k

/-! ## What is still ahead -/

theorem remaining_eq (c : Cursor) : c.remaining = c.ahead.flatMap (listed c.order) := by
  unfold remaining
  cases c.order <;> rfl

theorem remaining_start (d : Domain) (order : ValueOrder) :
    (start d order).remaining = d.values order := by
  cases order <;> rfl

theorem value?_eq_head? (c : Cursor) : c.value? = c.remaining.head? := by
  rw [remaining_eq, value?]
  cases c.ahead with
  | nil => rfl
  | cons a rest =>
      rw [List.flatMap_cons, listed_eq]
      rfl

theorem advance_of_value?_eq_none (h : c.value? = none) : c.advance = c := by
  have hahead : c.ahead = [] := by simpa [value?] using h
  rw [advance, hahead]

theorem remaining_advance (c : Cursor) : c.advance.remaining = c.remaining.tail := by
  rw [remaining_eq, remaining_eq, advance]
  cases hahead : c.ahead with
  | nil => simp [hahead]
  | cons a rest =>
      rw [List.flatMap_cons, listed_eq, List.cons_append, List.tail_cons]
      exact List.flatMap_append

@[simp]
theorem domain_advance (c : Cursor) : c.advance.domain = c.domain := by
  unfold advance
  split <;> rfl

@[simp]
theorem order_advance (c : Cursor) : c.advance.order = c.order := by
  unfold advance
  split <;> rfl

/-- There are values ahead as long as there are intervals. -/
theorem ahead_eq_nil_of_remaining (h : c.remaining = []) : c.ahead = [] := by
  rw [remaining_eq, List.flatMap_eq_nil_iff] at h
  refine List.eq_nil_iff_forall_not_mem.2 fun a ha => ?_
  exact List.cons_ne_nil _ _ ((listed_eq c.order a).symm.trans (h a ha))

/-- The walk is over after as many steps as there are values ahead. -/
theorem iterate_advance (c : Cursor) : advance^[c.remaining.length] c = c.finish := by
  induction hvalues : c.remaining generalizing c with
  | nil =>
      rw [List.length_nil, Function.iterate_zero_apply, finish,
        ← ahead_eq_nil_of_remaining hvalues]
  | cons v vs ih =>
      have hnext : c.advance.remaining = vs := by rw [remaining_advance, hvalues, List.tail_cons]
      rw [List.length_cons, Function.iterate_succ_apply, ih _ hnext, finish, finish,
        domain_advance, order_advance]

/-! ## Scripts -/

/-- What may be asked of a cursor. -/
inductive Call where
  | next
  | value
  | hasValue
  | rewind
  deriving DecidableEq

/-- What a cursor answers. -/
inductive Answer where
  | value (v? : Option Int)
  | flag (b : Bool)
  | done
  deriving DecidableEq

section Machines

variable {σ τ : Type}

/-- What a machine answers to calls, one after the other. -/
def replies (step : σ → Call → Answer × σ) (s : σ) : List Call → List Answer
  | [] => []
  | call :: calls => (step s call).1 :: replies step (step s call).2 calls

/-- The state in which calls leave a machine. -/
def after (step : σ → Call → Answer × σ) (s : σ) (calls : List Call) : σ :=
  calls.foldl (fun s call => (step s call).2) s

/-- Does every call get the same answer in related states and lead to related ones? -/
def Simulates (step : σ → Call → Answer × σ) (step' : τ → Call → Answer × τ)
    (R : σ → τ → Prop) : Prop :=
  ∀ s t call, R s t → (step s call).1 = (step' t call).1 ∧ R (step s call).2 (step' t call).2

variable {step : σ → Call → Answer × σ} {step' : τ → Call → Answer × τ} {R : σ → τ → Prop}
  {s : σ} {t : τ}

theorem Simulates.replies_eq (h : Simulates step step' R) (hst : R s t) (calls : List Call) :
    replies step s calls = replies step' t calls := by
  induction calls generalizing s t with
  | nil => rfl
  | cons call calls ih =>
      obtain ⟨hanswer, hstate⟩ := h s t call hst
      rw [replies, replies, hanswer, ih hstate]

theorem Simulates.after (h : Simulates step step' R) (hst : R s t) (calls : List Call) :
    R (after step s calls) (after step' t calls) := by
  induction calls generalizing s t with
  | nil => exact hst
  | cons call calls ih => exact ih (h s t call hst).2

end Machines

/-- A call on a place in a list of values. -/
def listStep (vs : List Int) (k : Nat) : Call → Answer × Nat
  | .next => (.value vs[k]?, k + 1)
  | .value => (.value vs[k]?, k)
  | .hasValue => (.flag (decide (k < vs.length)), k)
  | .rewind => (.done, 0)

/-- Does a machine answer like a place in the list `vs`, from the first value on? -/
structure AnswersAs {σ : Type} (step : σ → Call → Answer × σ) (start : σ) (vs : List Int) :
    Prop where
  replies_eq : ∀ calls, replies step start calls = replies (listStep vs) 0 calls
  /-- Behind the last value `next` has nothing to give and changes nothing. -/
  exhausted : ∀ calls, (step (after step start calls) .next).1 = .value none →
    (step (after step start calls) .next).2 = after step start calls
  /-- From everywhere the way back leads to the first value. -/
  rewound : ∀ calls, (step (after step start calls) .rewind).2 = start

/-- A call on a cursor. -/
def step (c : Cursor) : Call → Answer × Cursor
  | .next => (.value c.next.1, c.next.2)
  | .value => (.value c.value?, c)
  | .hasValue => (.flag c.hasValue, c)
  | .rewind => (.done, c.rewind)

/-- Has the cursor on this domain the values from place `k` on still ahead? -/
structure At (d : Domain) (order : ValueOrder) (c : Cursor) (k : Nat) : Prop where
  domain_eq : c.domain = d
  order_eq : c.order = order
  remaining_eq : c.remaining = (d.values order).drop k

theorem at_start (d : Domain) (order : ValueOrder) : (start d order).At d order 0 where
  domain_eq := rfl
  order_eq := rfl
  remaining_eq := remaining_start d order

theorem At.value?_eq (h : c.At d order k) : c.value? = (d.values order)[k]? := by
  rw [value?_eq_head?, h.remaining_eq, List.head?_drop]

theorem At.advance (h : c.At d order k) : c.advance.At d order (k + 1) where
  domain_eq := (domain_advance c).trans h.domain_eq
  order_eq := (order_advance c).trans h.order_eq
  remaining_eq := by rw [remaining_advance, h.remaining_eq, List.tail_drop]

theorem At.rewind_eq (h : c.At d order k) : c.rewind = start d order := by
  rw [rewind, h.domain_eq, h.order_eq]

theorem simulates_list (d : Domain) (order : ValueOrder) :
    Simulates step (listStep (d.values order)) (At d order) := by
  intro c k call h
  cases call with
  | next => exact ⟨congrArg Answer.value h.value?_eq, h.advance⟩
  | value => exact ⟨congrArg Answer.value h.value?_eq, h⟩
  | hasValue =>
      refine ⟨congrArg Answer.flag ?_, h⟩
      rw [hasValue, h.value?_eq, Bool.eq_iff_iff]
      simp
  | rewind =>
      refine ⟨rfl, ?_⟩
      show c.rewind.At d order 0
      rw [h.rewind_eq]
      exact at_start d order

theorem answersAs_start (d : Domain) (order : ValueOrder) :
    AnswersAs step (start d order) (d.values order) := by
  have hrun := (simulates_list d order).after (at_start d order)
  exact
    { replies_eq := (simulates_list d order).replies_eq (at_start d order)
      exhausted := by
        intro calls hend
        exact advance_of_value?_eq_none (Answer.value.inj hend)
      rewound := fun calls => (hrun calls).rewind_eq }

end Cursor

/-! ## Cursors with a number and a value -/

/-- A cursor that keeps the number of an interval, as the walk counts, and a value. -/
structure Pointer where
  domain : Domain
  order : ValueOrder
  /-- How many intervals the walk has left behind. -/
  place : Nat
  current? : Option Int
  deriving DecidableEq

namespace Pointer

open Cursor

variable {d : Domain} {order : ValueOrder} {p : Pointer} {c : Cursor} {i : Nat}

/-- The interval with this number, counted from the end at which the walk begins. -/
def nth? (d : Domain) (order : ValueOrder) (i : Nat) : Option Interval :=
  match order with
  | .ascending => d.intervals[i]?
  | .descending =>
      if i + 1 ≤ d.intervals.length then d.intervals[d.intervals.length - (i + 1)]? else none

/-- The pointer on the first value of the interval with this number. -/
def enter (d : Domain) (order : ValueOrder) (i : Nat) : Pointer :=
  ⟨d, order, i, (nth? d order i).map fun a => nearEnd a order⟩

def start (d : Domain) (order : ValueOrder) : Pointer := enter d order 0

def rewind (p : Pointer) : Pointer := start p.domain p.order

/-- Takes the current value and moves on, to the next interval from the far end of one. -/
def next (p : Pointer) : Option Int × Pointer :=
  match p.current? with
  | none => (none, p)
  | some v =>
      match nth? p.domain p.order p.place with
      -- The value is gone all the same. `Follows` shows that no run comes here.
      | none => (none, { p with current? := none })
      | some a =>
          if v = farEnd a p.order then (some v, enter p.domain p.order (p.place + 1))
          else (some v, { p with current? := some (p.order.onward v 1) })

/-- A call on a pointer. -/
def step (p : Pointer) : Call → Answer × Pointer
  | .next => (.value p.next.1, p.next.2)
  | .value => (.value p.current?, p)
  | .hasValue => (.flag p.current?.isSome, p)
  | .rewind => (.done, p.rewind)

theorem nth?_eq (d : Domain) (order : ValueOrder) (i : Nat) :
    nth? d order i = (path d order)[i]? := by
  cases order with
  | ascending => rfl
  | descending =>
      rw [nth?, path]
      split
      · next hi =>
          rw [List.getElem?_reverse hi]
          congr 1
          omega
      · next hi =>
          rw [List.getElem?_eq_none (by simpa using hi)]

/-- Does a pointer stand where a cursor stands? -/
structure Follows (p : Pointer) (c : Cursor) : Prop where
  domain_eq : p.domain = c.domain
  order_eq : p.order = c.order
  current?_eq : p.current? = c.value?
  /-- The interval with the number of the place ends where what is left of it ends. -/
  inside : ∀ a rest, c.ahead = a :: rest → ∃ b, nth? c.domain c.order p.place = some b ∧
    farEnd a c.order = farEnd b c.order ∧ rest = (path c.domain c.order).drop (p.place + 1)

/-- A pointer that enters an interval follows a cursor that is about to cut it down. -/
theorem follows_enter (h : c.ahead = (path c.domain c.order).drop i) :
    (enter c.domain c.order i).Follows c where
  domain_eq := rfl
  order_eq := rfl
  current?_eq := by
    show (nth? c.domain c.order i).map _ = c.value?
    rw [nth?_eq, value?, h, List.head?_drop]
  inside a rest hahead := by
    have hdrop := h.symm.trans hahead
    refine ⟨a, ?_, rfl, ?_⟩
    · show nth? c.domain c.order i = some a
      rw [nth?_eq, ← List.head?_drop, hdrop, List.head?_cons]
    · show rest = (path c.domain c.order).drop (i + 1)
      rw [← List.tail_drop, hdrop, List.tail_cons]

theorem follows_start (d : Domain) (order : ValueOrder) :
    (start d order).Follows (Cursor.start d order) :=
  follows_enter (c := Cursor.start d order) rfl

theorem next_at_end {v : Int} {b : Interval} (hcurrent : p.current? = some v)
    (hplace : nth? p.domain p.order p.place = some b) (hend : v = farEnd b p.order) :
    p.next = (some v, enter p.domain p.order (p.place + 1)) := by
  unfold next
  simp [hcurrent, hplace, hend]

theorem next_inside {v : Int} {b : Interval} (hcurrent : p.current? = some v)
    (hplace : nth? p.domain p.order p.place = some b) (hend : v ≠ farEnd b p.order) :
    p.next = (some v, { p with current? := some (p.order.onward v 1) }) := by
  unfold next
  simp [hcurrent, hplace, hend]

/-- Inside an interval both take a step, and the far end stays where it is. -/
theorem Follows.onward {a a' : Interval} {rest : List Interval} (h : p.Follows c)
    (hahead : c.ahead = a :: rest) (hleft : dropNear a c.order = some a') :
    Follows { p with current? := some (p.order.onward (nearEnd a c.order) 1) }
      { c with ahead := a' :: rest } := by
  obtain ⟨b, hplace, hfar, hrest⟩ := h.inside a rest hahead
  obtain ⟨hnear, hfar', -, -⟩ := ends_of_dropNear_eq_some hleft
  exact
    { domain_eq := h.domain_eq
      order_eq := h.order_eq
      current?_eq := by
        show some (p.order.onward (nearEnd a c.order) 1) = some (nearEnd a' c.order)
        rw [hnear, h.order_eq]
      inside := by
        intro x rest' hx
        cases hx
        exact ⟨b, hplace, hfar'.trans hfar, hrest⟩ }

theorem Follows.next (h : p.Follows c) : p.next.1 = c.next.1 ∧ p.next.2.Follows c.next.2 := by
  have hcurrent := h.current?_eq
  show p.next.1 = c.value? ∧ p.next.2.Follows c.advance
  cases hahead : c.ahead with
  | nil =>
      have hnone : c.value? = none := by simp [value?, hahead]
      have hnext : p.next = (none, p) := by
        unfold Pointer.next
        rw [hcurrent, hnone]
      rw [hnext, hnone, advance_of_value?_eq_none hnone]
      exact ⟨rfl, h⟩
  | cons a rest =>
      obtain ⟨b, hplace, hfar, hrest⟩ := h.inside a rest hahead
      have hvalue : c.value? = some (nearEnd a c.order) := by simp [value?, hahead]
      have hadvance : c.advance = { c with ahead := (dropNear a c.order).toList ++ rest } := by
        simp [advance, hahead]
      rw [hvalue] at hcurrent
      rw [← h.domain_eq, ← h.order_eq] at hplace
      cases hleft : dropNear a c.order with
      | none =>
          have hend : nearEnd a c.order = farEnd b p.order := by
            rw [h.order_eq, ← hfar]
            exact (ends_of_dropNear_eq_none hleft).1
          rw [next_at_end hcurrent hplace hend, hvalue, hadvance, hleft, h.domain_eq, h.order_eq]
          exact ⟨rfl, follows_enter (c := { c with ahead := rest }) hrest⟩
      | some a' =>
          have hend : nearEnd a c.order ≠ farEnd b p.order := by
            rw [h.order_eq, ← hfar]
            exact (ends_of_dropNear_eq_some hleft).2.2.1
          rw [next_inside hcurrent hplace hend, hvalue, hadvance, hleft]
          exact ⟨rfl, h.onward hahead hleft⟩

theorem Follows.rewind (h : p.Follows c) : p.rewind.Follows c.rewind := by
  rw [Pointer.rewind, Cursor.rewind, h.domain_eq, h.order_eq]
  exact follows_start c.domain c.order

theorem simulates_cursor : Simulates step Cursor.step Follows := by
  intro p c call h
  cases call with
  | next => exact ⟨congrArg Answer.value h.next.1, h.next.2⟩
  | value => exact ⟨congrArg Answer.value h.current?_eq, h⟩
  | hasValue => exact ⟨congrArg (fun v? : Option Int => Answer.flag v?.isSome) h.current?_eq, h⟩
  | rewind => exact ⟨rfl, h.rewind⟩

theorem Follows.next_eq_self (h : p.Follows c) (hend : p.next.1 = none) : p.next.2 = p := by
  have hvalue : c.value? = none := h.next.1.symm.trans hend
  have hcurrent : p.current? = none := h.current?_eq.trans hvalue
  unfold Pointer.next
  rw [hcurrent]

theorem answersAs_start (d : Domain) (order : ValueOrder) :
    AnswersAs step (start d order) (d.values order) := by
  have hrun := simulates_cursor.after (follows_start d order)
  have hplace := (simulates_list d order).after (at_start d order)
  have hcursor := Cursor.answersAs_start d order
  exact
    { replies_eq := by
        intro calls
        rw [simulates_cursor.replies_eq (follows_start d order), hcursor.replies_eq]
      exhausted := fun calls hend => (hrun calls).next_eq_self (Answer.value.inj hend)
      rewound := by
        intro calls
        show start _ _ = start d order
        rw [(hrun calls).domain_eq, (hrun calls).order_eq, (hplace calls).domain_eq,
          (hplace calls).order_eq] }

end Pointer

namespace Domain

variable {d : Domain} {S : Set Int}

/-! ## The result -/

/-- Is `vs` the list of the values of `d` in this order, and do its cursors walk along it? -/
structure Enumerates (d : Domain) (order : ValueOrder) (vs : List Int) : Prop where
  mem_iff : ∀ v, v ∈ vs ↔ d.contains v = true
  /-- The values ascend or descend strictly, so that none is listed twice. -/
  ordered : vs.Pairwise order.Before
  length_eq : vs.length = d.size
  cursor : Cursor.AnswersAs Cursor.step (.start d order) vs
  /-- The cursor that keeps a number and a value answers in the same way. -/
  pointer : Cursor.AnswersAs Pointer.step (.start d order) vs
  first?_eq : d.first? order = vs.head?
  isEmpty_iff : d.isEmpty = true ↔ d.size = 0
  isSingleton_iff : d.isSingleton = true ↔ d.size = 1

/--
Under any script of calls the cursors of a domain that was built by any operations answer
like a place in the list of its values, each once and in order.
-/
theorem Built.enumerates (h : Built d S) (order : ValueOrder) :
    d.Enumerates order (d.values order) where
  mem_iff v := by rw [mem_values, contains_iff]
  ordered := h.normal.pairwise_values order
  length_eq := length_values d order
  cursor := Cursor.answersAs_start d order
  pointer := Pointer.answersAs_start d order
  first?_eq := first?_eq_head? d order
  isEmpty_iff := size_eq_zero_iff.symm
  isSingleton_iff := h.normal.size_eq_one_iff.symm

/-- Two intervals, of which the upper one is left in the step that enters it. -/
def gapped : Domain := ofIntervals [.point 7, ⟨0, 1, by decide⟩]

/-- Going down the walk changes intervals, is sent back inside the second one and once more
from behind the last value. -/
theorem enumerates_gapped : ∃ S, Built gapped S ∧ gapped.Enumerates .descending [7, 1, 0] ∧
    Cursor.replies Pointer.step (.start gapped .descending)
        [.next, .next, .value, .rewind, .next, .next, .next, .next, .hasValue, .rewind, .value] =
      [.value (some 7), .value (some 1), .value (some 0), .done, .value (some 7), .value (some 1),
        .value (some 0), .value none, .flag false, .done, .value (some 7)] := by
  have hbuilt : Built gapped _ := .ofIntervals _
  have henumerates := hbuilt.enumerates .descending
  have hvalues : gapped.values .descending = [7, 1, 0] := by decide
  rw [hvalues] at henumerates
  exact ⟨_, hbuilt, henumerates, (henumerates.pointer.replies_eq _).trans (by decide)⟩

end Domain

end FiniteDomain
