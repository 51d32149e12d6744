import FiniteDomain.Proofs.CheckedSearch
import FiniteDomain.Proofs.Confirmation
import Mathlib

/-!
# Solving without a breach

The checked solvers are put together from the checked phases the way the solvers are
put together from the phases. They too agree with their unchecked forms: a scope
numbers no more variables than there are indices, names are looked up within it, and
the network that is posed is sound.

The unchecked solvers are never refused, so neither are the checked ones, and what
they return is the same verdict whether witnesses are confirmed or not. That is the
result: on well-formed input nothing that a solver takes for granted is ever wrong.
-/

namespace FiniteDomain

open Checked

variable {settings : Settings} {mode : Mode} {scope : Scope} {xs : List Variable}
  {es : List Equation}

namespace Scope

theorem lt_size_of_lookup {name : String} {i : Nat} (h : scope.lookup name = .ok i) :
    i < scope.size := by
  rw [lookup] at h
  split at h
  · next hfind =>
      cases h
      exact (Array.findIdx?_eq_some_iff_getElem.1 hfind).1
  · cases h

theorem size_le_of_declare {x : Variable} {scope' : Scope} (h : scope.declare x = .ok scope')
    (hsize : scope.size ≤ Index.limit) : scope'.size ≤ Index.limit := by
  rw [declare] at h
  split at h
  · split at h
    · cases h
      exact hsize
    · cases h
  · cases hindex : Index.ofNat scope.size with
    | error fault =>
        rw [hindex] at h
        cases h
    | ok index =>
        rw [hindex] at h
        cases h
        rw [Index.ofNat] at hindex
        split at hindex
        · next hlt =>
            rw [size, Array.size_push]
            exact hlt
        · cases hindex

/-- Every declared variable has an index. -/
theorem size_le_of_ofGroups {groups : List (List Variable)} (h : ofGroups groups = .ok scope) :
    scope.size ≤ Index.limit := by
  rw [ofGroups] at h
  -- The bound is kept from any scope on, so the induction does not start from the empty one.
  generalize groups.flatten = xs at h
  have hempty : empty.size ≤ Index.limit := Nat.zero_le _
  generalize empty = start at h hempty
  induction xs generalizing start with
  | nil =>
      cases h
      exact hempty
  | cons x xs ih =>
      rw [List.foldlM_cons] at h
      cases hx : start.declare x with
      | error fault =>
          rw [hx] at h
          cases h
      | ok next =>
          rw [hx] at h
          exact ih next h (size_le_of_declare hx hempty)

end Scope

/-! ## Networks -/

namespace Network

variable {net : Network} {e : Equation}

def imposeChecked (scope : Scope) (net : Network) : Equation → Checked (Nat × Network)
  | .value name v equal => do
      let i ← lift (scope.lookup name)
      let net ← net.restrictChecked i v equal
      return (i, net)
  | .pair left right equal => do
      let i ← lift (scope.lookup left)
      let j ← lift (scope.lookup right)
      let net ← net.relateChecked i j equal
      return (i, net)

def imposeAllChecked (scope : Scope) : List Equation → Network → Checked Phase
  | [], net => return .passed net
  | e :: es, net => do
      let (i, net) ← net.imposeChecked scope e
      let d ← net.domainChecked i
      if !d.isEmpty then imposeAllChecked scope es net
      else return .stuck net (.equation e)

def solveChecked (settings : Settings) (mode : Mode) (net : Network) : Checked Verdict := do
  match ← net.collapseChecked with
  | .stuck _ cause => return .unsat cause
  | .passed net =>
      let (verdict, _) ← net.searchChecked settings mode (net.distinct.edgeCount + 1) 0
      return verdict

theorem imposeChecked_eq (h : Posed scope net) :
    net.imposeChecked scope e = lift (net.impose scope e) := by
  have hlt : ∀ {name i}, scope.lookup name = .ok i → i < net.size := by
    intro name i hlookup
    rw [size, h.vars_eq]
    exact Scope.lt_size_of_lookup hlookup
  cases e with
  | value name v equal =>
      refine eq_lift_bind rfl fun i hi => ?_
      exact eq_lift_bind (restrictChecked_eq h.sound (hlt hi) v equal) fun net _ => rfl
  | pair left right equal =>
      refine eq_lift_bind rfl fun i hi => eq_lift_bind rfl fun j hj => ?_
      exact eq_lift_bind (relateChecked_eq h.sound (hlt hi) (hlt hj) equal) fun net _ => rfl

theorem imposeAllChecked_eq (hd : scope.Declares xs) (hes : ∀ e ∈ es, e.Proper xs) :
    ∀ {net : Network}, Posed scope net →
      imposeAllChecked scope es net = lift (imposeAll scope es net) := by
  induction es with
  | nil =>
      intro net _
      rfl
  | cons e es ih =>
      intro net h
      rw [imposeAllChecked, imposeAll]
      refine eq_lift_bind (imposeChecked_eq h) fun r hr => ?_
      obtain ⟨hi, hposed, -⟩ := (impose_returns hd h (hes e List.mem_cons_self)).of_eq_ok hr
      obtain ⟨i, net'⟩ := r
      dsimp only
      rw [domainChecked_eq (hposed.sound.lt_domains hi), ok_bind, viable]
      split
      · exact ih (fun e he => hes e (List.mem_cons_of_mem _ he)) hposed
      · rfl

theorem solveChecked_eq (hs : net.Sound) (hlead : ∀ i, net.leader i = i) :
    net.solveChecked settings mode = lift (net.solve settings mode).outcome := by
  rw [solveChecked, solve]
  refine eq_lift_note (eq_lift_andThen (collapseChecked_eq hs hlead) fun phase hphase => ?_)
  have hends := (collapse_returns hs hlead).of_eq_ok hphase
  cases phase with
  | stuck mid cause => rfl
  | passed mid => exact eq_lift_note (eq_lift_andThen (searchChecked_eq hends.sound) fun r _ => rfl)

end Network

/-! ## Clauses -/

namespace Clause

variable {c : Clause}

def framedChecked (settings : Settings) (mode : Mode) (c : Clause) (body : Checked Verdict) :
    Checked Verdict := do
  let verdict ← body
  lift (c.confirm settings mode verdict)
  return verdict

def solveEquationsChecked (scope : Scope) (settings : Settings) (mode : Mode)
    (es : List Equation) : Checked Verdict := do
  let net ← Network.ofVariablesChecked scope.vars
  let imposed ← Network.imposeAllChecked scope es net
  match ← imposed.andThenChecked Network.checkChecked with
  | .stuck _ cause => return .unsat cause
  | .passed net => net.solveChecked settings mode

def solveAllChecked (scope : Scope) (settings : Settings) (mode : Mode)
    (es : List Equation) : Checked Verdict :=
  (allOf es).framedChecked settings mode (solveEquationsChecked scope settings mode es)

def solveVariantsChecked (scope : Scope) (settings : Settings) (mode : Mode) (c : Clause) :
    List Equation → Option (List (String × String)) → Checked Verdict
  | [], some pairs => return .unknown pairs
  | [], none => return .unsat (.clause c)
  | e :: es, undecided => do
      match ← solveAllChecked scope settings mode [e] with
      | .sat s => return .sat s
      | .unknown pairs =>
          solveVariantsChecked scope settings mode c es (undecided <|> some pairs)
      | .unsat _ => solveVariantsChecked scope settings mode c es undecided

/-- Solves a clause and takes nothing for granted. -/
def solveChecked (scope : Scope) (settings : Settings) (mode : Mode) (c : Clause) :
    Checked Verdict :=
  match c.connective with
  | .all => solveAllChecked scope settings mode c.equations
  | .any =>
      c.framedChecked settings mode (solveVariantsChecked scope settings mode c c.equations none)

theorem framedChecked_eq {body : Checked Verdict} {body' : Traced Verdict}
    (h : body = lift body'.outcome) :
    c.framedChecked settings mode body = lift (c.framed scope settings mode body').outcome := by
  refine eq_lift_note (eq_lift_andThen h fun verdict _ => ?_)
  exact eq_lift_andThen (y := .ofExcept _) rfl fun _ _ => rfl

section

variable (hd : scope.Declares xs) (hsize : scope.size ≤ Index.limit)

include hd hsize

theorem solveEquationsChecked_eq (hes : ∀ e ∈ es, e.Proper xs) :
    solveEquationsChecked scope settings mode es =
      lift (solveEquations scope settings mode es).outcome := by
  have hposed := Network.posed_ofVariables scope
  rw [solveEquationsChecked, Network.ofVariablesChecked_eq hsize, ok_bind, solveEquations]
  refine eq_lift_andThen (y := .ofExcept _) (Network.imposeAllChecked_eq hd hes hposed)
    fun phase hphase => ?_
  have himposed := (Network.imposeAll_returns hd hes hposed).of_eq_ok hphase
  have hchecked := (Network.pose_returns hd hes).of_eq_ok hphase
  rw [himposed.andThenChecked_eq fun net h => Network.checkChecked_eq h.1.sound, ok_bind]
  generalize phase.andThen Network.check = checked at hchecked
  cases checked with
  | stuck net cause => rfl
  | passed net => exact Network.solveChecked_eq hchecked.1.sound hchecked.1.leader_eq

theorem solveAllChecked_eq (hes : ∀ e ∈ es, e.Proper xs) :
    solveAllChecked scope settings mode es = lift (solveAll scope settings mode es).outcome :=
  framedChecked_eq (solveEquationsChecked_eq hd hsize hes)

theorem solveVariantsChecked_eq :
    ∀ {es : List Equation} {undecided : Option (List (String × String))},
      (∀ e ∈ es, e.Proper xs) →
      solveVariantsChecked scope settings mode c es undecided =
        lift (solveVariants scope settings mode c es undecided).outcome := by
  intro es
  induction es with
  | nil =>
      intro undecided _
      cases undecided with
      | none => rfl
      | some pairs => rfl
  | cons e es ih =>
      intro undecided hes
      have hes' : ∀ e ∈ es, e.Proper xs := fun e he => hes e (List.mem_cons_of_mem _ he)
      have he : ∀ e' ∈ [e], e'.Proper xs := List.forall_mem_singleton.2 (hes e List.mem_cons_self)
      rw [solveVariantsChecked, solveVariants]
      refine eq_lift_andThen (solveAllChecked_eq hd hsize he) fun verdict _ => ?_
      cases verdict with
      | sat s => rfl
      | unknown pairs => exact eq_lift_note (ih hes')
      | unsat cause => exact eq_lift_note (ih hes')

theorem solveChecked_eq (hc : c.Proper xs) :
    c.solveChecked scope settings mode = lift (c.solve scope settings mode).outcome := by
  rw [solveChecked, solve]
  cases c.connective with
  | all => exact solveAllChecked_eq hd hsize hc
  | any => exact framedChecked_eq (solveVariantsChecked_eq hd hsize hc)

end

end Clause

/-! ## Formulas -/

namespace Formula

variable {f : Formula} {c : Clause} {chosen : List Equation}

def outlookChecked (scope : Scope) (settings : Settings) (ahead : Bool) (es : List Equation) :
    Checked Verdict :=
  if ahead then Clause.solveAllChecked scope settings .decide es else return .sat .empty

def followUpChecked (first next : Checked Verdict) : Checked Verdict := do
  match ← first with
  | .sat _ => next
  | .unsat cause => return .unsat cause
  | .unknown pairs => return .unknown pairs

def tryEquationsChecked (scope : Scope) (settings : Settings) (ahead : Bool)
    (deeper : List Equation → Checked Verdict) (c : Clause) (chosen : List Equation) :
    List Equation → Option (List (String × String)) → Checked Verdict
  | [], some pairs => return .unknown pairs
  | [], none => return .unsat (.clause c)
  | e :: es, undecided => do
      let candidate := chosen ++ [e]
      match ← followUpChecked (outlookChecked scope settings ahead candidate) (deeper candidate) with
      | .sat s => return .sat s
      | .unsat _ => tryEquationsChecked scope settings ahead deeper c chosen es undecided
      | .unknown pairs =>
          tryEquationsChecked scope settings ahead deeper c chosen es (undecided <|> some pairs)

def chooseChecked (scope : Scope) (settings : Settings) (mode : Mode) :
    List Clause → List Equation → Checked Verdict
  | [], chosen => Clause.solveAllChecked scope settings mode chosen
  | c :: cs, chosen =>
      tryEquationsChecked scope settings (!cs.isEmpty) (chooseChecked scope settings mode cs) c
        chosen c.equations none

/-- Solves a formula and takes nothing for granted. -/
def solveChecked (scope : Scope) (settings : Settings) (mode : Mode) (f : Formula) :
    Checked Verdict :=
  followUpChecked (outlookChecked scope settings (!f.disjunctions.isEmpty) f.conjunction) do
    let verdict ← chooseChecked scope settings mode f.disjunctions f.conjunction
    lift (f.confirm settings mode verdict)
    return verdict

theorem followUpChecked_eq {first next : Checked Verdict} {first' : Traced Verdict}
    {next' : Unit → Traced Verdict} (hfirst : first = lift first'.outcome)
    (hnext : next = lift (next' ()).outcome) :
    followUpChecked first next = lift (followUp first' next').outcome := by
  refine eq_lift_andThen hfirst fun verdict _ => ?_
  cases verdict with
  | sat s => exact hnext
  | unsat cause => rfl
  | unknown pairs => rfl

section

variable (hd : scope.Declares xs) (hsize : scope.size ≤ Index.limit)

include hd hsize

theorem outlookChecked_eq (hes : ∀ e ∈ es, e.Proper xs) {ahead : Bool} :
    outlookChecked scope settings ahead es = lift (outlook scope settings ahead es).outcome := by
  rw [outlookChecked, outlook]
  cases ahead with
  | true => exact Clause.solveAllChecked_eq hd hsize hes
  | false => rfl

theorem tryEquationsChecked_eq {ahead : Bool} {deeper : List Equation → Checked Verdict}
    {deeper' : List Equation → Traced Verdict} (hchosen : ∀ e ∈ chosen, e.Proper xs) :
    ∀ {es : List Equation} {undecided : Option (List (String × String))},
      (∀ e ∈ es, e.Proper xs) →
      (∀ e ∈ es, deeper (chosen ++ [e]) = lift (deeper' (chosen ++ [e])).outcome) →
      tryEquationsChecked scope settings ahead deeper c chosen es undecided =
        lift (tryEquations scope settings ahead deeper' c chosen es undecided).outcome := by
  intro es
  induction es with
  | nil =>
      intro undecided _ _
      cases undecided with
      | none => rfl
      | some pairs => rfl
  | cons e es ih =>
      intro undecided hes hdeeper
      have hes' : ∀ e ∈ es, e.Proper xs := fun e he => hes e (List.mem_cons_of_mem _ he)
      have hdeeper' := fun e' he' => hdeeper e' (List.mem_cons_of_mem e he')
      have hcandidate : ∀ e' ∈ chosen ++ [e], e'.Proper xs :=
        Equation.forall_proper_concat hchosen (hes e List.mem_cons_self)
      rw [tryEquationsChecked, tryEquations]
      refine eq_lift_note (eq_lift_andThen (followUpChecked_eq
        (outlookChecked_eq hd hsize hcandidate) (hdeeper e List.mem_cons_self)) ?_)
      intro verdict _
      cases verdict with
      | sat s => rfl
      | unsat cause => exact ih hes' hdeeper'
      | unknown pairs => exact ih hes' hdeeper'

theorem chooseChecked_eq {cs : List Clause} :
    ∀ {chosen : List Equation}, (∀ c ∈ cs, c.Proper xs) → (∀ e ∈ chosen, e.Proper xs) →
      chooseChecked scope settings mode cs chosen =
        lift (choose scope settings mode cs chosen).outcome := by
  induction cs with
  | nil =>
      intro chosen _ hchosen
      exact Clause.solveAllChecked_eq hd hsize hchosen
  | cons c cs ih =>
      intro chosen hcs hchosen
      have hc : c.Proper xs := hcs c List.mem_cons_self
      have hcs' : ∀ c ∈ cs, c.Proper xs := fun c hc => hcs c (List.mem_cons_of_mem _ hc)
      rw [chooseChecked, choose]
      exact tryEquationsChecked_eq hd hsize hchosen hc fun e he =>
        ih hcs' (Equation.forall_proper_concat hchosen (hc e he))

theorem solveChecked_eq (hf : f.Proper xs) :
    f.solveChecked scope settings mode = lift (f.solve scope settings mode).outcome := by
  refine eq_lift_note (followUpChecked_eq (outlookChecked_eq hd hsize hf.of_mem_conjunction)
    (eq_lift_andThen (chooseChecked_eq hd hsize hf.of_mem_disjunctions hf.of_mem_conjunction)
      fun verdict _ => ?_))
  exact eq_lift_andThen (y := .ofExcept _) rfl fun _ _ => rfl

end

end Formula

/-! ## The result -/

/--
Solving a well-formed clause or formula commits no breach: no index is out of bounds,
no edge is a loop, no count falls below zero, and no check on the way or on the
witness fails. There always is a verdict, and it is the same whether witnesses are
confirmed or not.
-/
theorem Scope.solve_unbreached {groups : List (List Variable)}
    (hscope : Scope.ofGroups groups = .ok scope) (settings : Settings) (mode : Mode) :
    (∀ c : Clause, c.Proper groups.flatten → ∃ verdict, ∀ verify,
      c.solveChecked scope (settings.withVerify verify) mode = .ok verdict ∧
      (c.solve scope (settings.withVerify verify) mode).outcome = .ok verdict) ∧
    ∀ f : Formula, f.Proper groups.flatten → ∃ verdict, ∀ verify,
      f.solveChecked scope (settings.withVerify verify) mode = .ok verdict ∧
      (f.solve scope (settings.withVerify verify) mode).outcome = .ok verdict := by
  have hd := Scope.declares_ofGroups hscope
  have hsize := Scope.size_le_of_ofGroups hscope
  refine ⟨fun c hc => ?_, fun f hf => ?_⟩
  · have hreturns : Returns (c.solve scope settings mode).outcome _ := Clause.solve_returns hd hc
    obtain ⟨verdict, houtcome, -⟩ := hreturns
    refine ⟨verdict, fun verify => ?_⟩
    rw [Clause.solveChecked_eq hd hsize hc, Clause.solve_withVerify hd hc, houtcome]
    exact ⟨rfl, rfl⟩
  · have hreturns : Returns (f.solve scope settings mode).outcome _ := Formula.solve_returns hd hf
    obtain ⟨verdict, houtcome, -⟩ := hreturns
    refine ⟨verdict, fun verify => ?_⟩
    rw [Formula.solveChecked_eq hd hsize hf, Formula.solve_withVerify hd hf, houtcome]
    exact ⟨rfl, rfl⟩

theorem Scope.unbreached_bits :
    (∃ verdict, ∀ verify, Clause.bitTriangle.solveChecked Clause.bitScope
      (Settings.withVerify {} verify) .witness = .ok verdict ∧
      (Clause.bitTriangle.solve Clause.bitScope (Settings.withVerify {} verify) .witness).outcome =
        .ok verdict) ∧
    ∃ verdict, ∀ verify, Formula.bitChoice.solveChecked Clause.bitScope
      (Settings.withVerify {} verify) .witness = .ok verdict ∧
      (Formula.bitChoice.solve Clause.bitScope (Settings.withVerify {} verify) .witness).outcome =
        .ok verdict := by
  have hscope : Scope.ofGroups Clause.bits = .ok Clause.bitScope := rfl
  obtain ⟨hclause, hformula⟩ := Scope.solve_unbreached hscope {} .witness
  exact ⟨hclause _ Clause.proper_bitTriangle, hformula _ Formula.proper_bitChoice⟩

end FiniteDomain
