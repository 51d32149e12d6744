import FiniteDomain.Proofs.GraphForm
import FiniteDomain.Proofs.ImposeExact
import Mathlib

/-!
# A network is determined by the set of its equations

What equations leave of the network of the variables can be said without their order: a
value is left if every equation allows it, and two variables are joined if some equation
joins them. `Imposed` says so of domains and edges. Domains in normal form and fitted
graphs are told apart by nothing else, hence one set of equations has one network, down
to the words of the index sets.

The order does matter to an equation that leaves no value, since imposing stops at it.
But whether there is such an equation is a matter of the set again: `ViableUnder` asks for a
value that all equations allow, for every variable.

An equation between two variables says the same with its sides swapped, and that is part
of what is meant by one set here.
-/

namespace FiniteDomain

variable {scope : Scope} {xs : List Variable} {e : Equation} {es es' : List Equation}

namespace Equation

/-- The equation with its variables in the other order. A value has its place on the right. -/
def swap : Equation → Equation
  | value name v equal => value name v equal
  | pair left right equal => pair right left equal

theorem swap_swap (e : Equation) : e.swap.swap = e := by
  cases e <;> rfl

/-- May the variable at place `i` take the value `v`, as far as the equation is concerned? -/
def Allows (scope : Scope) (i : Nat) (v : Int) : Equation → Prop
  | value name w equal => scope.lookup name = .ok i → (v = w ↔ equal = true)
  | pair _ _ _ => True

/-- Does the equation make the variables at places `i` and `j` equal, or unequal? -/
def Joins (scope : Scope) (equal : Bool) (i j : Nat) : Equation → Prop
  | value _ _ _ => False
  | pair left right equal' => equal' = equal ∧
      (scope.lookup left = .ok i ∧ scope.lookup right = .ok j ∨
        scope.lookup left = .ok j ∧ scope.lookup right = .ok i)

theorem proper_swap : e.swap.Proper xs ↔ e.Proper xs := by
  have hinto : ∀ {e : Equation}, e.Proper xs → e.swap.Proper xs := by
    intro e he
    cases e with
    | value name v equal => exact he
    | pair left right equal =>
        refine ⟨fun name hname => he.declared name ?_, fun name heq => ?_⟩
        · simpa [swap, names, or_comm] using hname
        · cases heq
          exact he.not_reflexive _ rfl
  exact ⟨fun he => e.swap_swap ▸ hinto he, hinto⟩

theorem allows_swap {i : Nat} {v : Int} : e.swap.Allows scope i v ↔ e.Allows scope i v := by
  cases e <;> rfl

theorem joins_swap {equal : Bool} {i j : Nat} :
    e.swap.Joins scope equal i j ↔ e.Joins scope equal i j := by
  cases e with
  | value name v equal' => rfl
  | pair left right equal' =>
      simp only [swap, Joins]
      tauto

/-- Are the equations of two lists the same, up to order, repetition and swapped sides? -/
def SameSet (es es' : List Equation) : Prop :=
  ∀ e, (e ∈ es ∨ e.swap ∈ es) ↔ (e ∈ es' ∨ e.swap ∈ es')

theorem SameSet.symm (h : SameSet es es') : SameSet es' es := fun e => (h e).symm

theorem sameSet_iff : SameSet es es' ↔
    (∀ e ∈ es, e ∈ es' ∨ e.swap ∈ es') ∧ ∀ e ∈ es', e ∈ es ∨ e.swap ∈ es := by
  refine ⟨fun h => ⟨fun e he => (h e).1 (Or.inl he), fun e he => (h e).2 (Or.inl he)⟩, ?_⟩
  rintro ⟨h, h'⟩ e
  have hinto : ∀ {es es' : List Equation}, (∀ e ∈ es, e ∈ es' ∨ e.swap ∈ es') →
      e ∈ es ∨ e.swap ∈ es → e ∈ es' ∨ e.swap ∈ es' := by
    rintro es es' hes (he | he)
    · exact hes e he
    · exact (hes _ he).symm.imp_left fun he => swap_swap e ▸ he
  exact ⟨hinto h, hinto h'⟩

instance : Decidable (SameSet es es') := decidable_of_iff' _ sameSet_iff

/-- What holds of an equation however its sides are placed is found in both lists or in none. -/
theorem SameSet.exists_iff {p : Equation → Prop} (h : SameSet es es')
    (hswap : ∀ e, p e.swap ↔ p e) : (∃ e ∈ es, p e) ↔ ∃ e ∈ es', p e := by
  have hclosed : ∀ es : List Equation, (∃ e ∈ es, p e) ↔ ∃ e, (e ∈ es ∨ e.swap ∈ es) ∧ p e := by
    intro es
    refine ⟨?_, ?_⟩
    · rintro ⟨e, he, hp⟩
      exact ⟨e, Or.inl he, hp⟩
    · rintro ⟨e, he | he, hp⟩
      · exact ⟨e, he, hp⟩
      · exact ⟨e.swap, he, (hswap e).2 hp⟩
  simp only [hclosed, h _]

theorem SameSet.forall_iff {p : Equation → Prop} (h : SameSet es es')
    (hswap : ∀ e, p e.swap ↔ p e) : (∀ e ∈ es, p e) ↔ ∀ e ∈ es', p e := by
  have hnot : (∃ e ∈ es, ¬p e) ↔ ∃ e ∈ es', ¬p e := h.exists_iff fun e => not_congr (hswap e)
  rw [← not_iff_not]
  simpa using hnot

end Equation

namespace Network

variable {net net' : Network} {i j : Nat} {v : Int} {equal : Bool} {done : List Equation}

/-! ## The two graphs -/

/-- The graph of equalities or the graph of inequalities. -/
def graph (net : Network) (equal : Bool) : Graph := if equal then net.equal else net.distinct

theorem Sound.graph (h : net.Sound) (equal : Bool) : (net.graph equal).Sound net.size := by
  cases equal with
  | true => exact h.sound_equal
  | false => exact h.sound_distinct

/-- Adds an edge to one of the graphs. -/
def join (net : Network) (i j : Nat) (equal : Bool) : Network :=
  if equal then { net with equal := net.equal.link i j }
  else { net with distinct := net.distinct.link i j }

theorem graph_join (net : Network) (i j : Nat) (equal equal' : Bool) :
    (net.join i j equal).graph equal' =
      if equal = equal' then (net.graph equal').link i j else net.graph equal' := by
  cases equal <;> cases equal' <;> rfl

theorem adjacent_join (hs : net.Sound) (hi : i < net.size) (hj : j < net.size) (hij : i ≠ j)
    {equal' : Bool} {a b : Nat} : ((net.join i j equal).graph equal').adjacent a b = true ↔
      (net.graph equal').adjacent a b = true ∨
        equal = equal' ∧ (i = a ∧ j = b ∨ i = b ∧ j = a) := by
  have horder := (hs.graph equal').order_eq
  rw [graph_join]
  split
  · next heq =>
      rw [Graph.adjacent_link (horder.symm ▸ hi) (horder.symm ▸ hj) hij,
        and_iff_right heq]
      refine or_congr_right ?_
      omega
  · next hne =>
      simp [hne]

theorem domain_join (net : Network) (i j : Nat) (equal : Bool) (k : Nat) :
    (net.join i j equal).domain k = net.domain k := by
  cases equal <;> rfl

theorem leaders_join (net : Network) (i j : Nat) (equal : Bool) :
    (net.join i j equal).leaders = net.leaders := by
  cases equal <;> rfl

theorem size_join (net : Network) (i j : Nat) (equal : Bool) :
    (net.join i j equal).size = net.size := by
  cases equal <;> rfl

theorem relate_eq_join (hi : i < net.size) (hj : j < net.size) (hij : i ≠ j) :
    net.relate i j equal = .ok (net.join i j equal) := by
  rw [relate, requireVariable_of_lt hi, requireVariable_of_lt hj]
  show (if i = j then _ else _) = _
  rw [if_neg hij]
  cases equal <;> rfl

theorem relate_self (hi : i < net.size) : net.relate i i true = .ok net := by
  rw [relate, requireVariable_of_lt hi]
  show (if i = i then _ else _) = _
  rw [if_pos rfl]
  rfl

theorem restrict_eq (hi : i < net.size) (v : Int) (equal : Bool) :
    net.restrict i v equal = .ok (net.setDomain i (if equal then
      (net.domain i).intersectInterval (.point v) else (net.domain i).excludeValue v)) := by
  rw [restrict, requireVariable_of_lt hi]
  rfl

theorem mem_restricted {d : Domain} {w : Int} :
    w ∈ (if equal then d.intersectInterval (.point v) else d.excludeValue v) ↔
      w ∈ d ∧ (w = v ↔ equal = true) := by
  cases equal with
  | true => simp [Domain.mem_intersectInterval, Interval.mem_point]
  | false => simp [Domain.mem_excludeValue]

/-! ## What a set of equations leaves -/

/-- Is this what the equations leave of the network of the variables? -/
structure Imposed (scope : Scope) (es : List Equation) (net : Network) : Prop where
  posed : Posed scope net
  leaders_eq : net.leaders = Array.range scope.vars.size
  fitted : ∀ equal, (net.graph equal).Fitted net.size
  mem_domain : ∀ i < net.size, ∀ v, v ∈ net.domain i ↔
    v ∈ (ofVariables scope.vars).domain i ∧ ∀ e ∈ es, e.Allows scope i v
  adjacent : ∀ equal i j, (net.graph equal).adjacent i j = true ↔
    i ≠ j ∧ ∃ e ∈ es, e.Joins scope equal i j

theorem imposed_ofVariables (scope : Scope) : Imposed scope [] (ofVariables scope.vars) where
  posed := posed_ofVariables scope
  leaders_eq := rfl
  fitted equal := by
    cases equal <;> exact Graph.fitted_edgeless _
  mem_domain i _ v := by simp
  adjacent equal i j := by
    cases equal <;> simp [graph, ofVariables]

namespace Imposed

theorem size_eq (h : Imposed scope es net) : net.size = scope.vars.size := by
  rw [size, h.posed.vars_eq]

/-- One set of equations has one network. -/
theorem eq_of_sameSet (h : Imposed scope es net) (h' : Imposed scope es' net')
    (hsame : Equation.SameSet es es') : net = net' := by
  have hsize : net.size = net'.size := h.size_eq.trans h'.size_eq.symm
  have hgraph : ∀ equal, net.graph equal = net'.graph equal := by
    intro equal
    refine (h.fitted equal).eq_of_adjacent (hsize ▸ h'.fitted equal) (h.posed.sound.graph equal)
      (hsize ▸ h'.posed.sound.graph equal) fun i j => ?_
    rw [h.adjacent, h'.adjacent, hsame.exists_iff fun e => Equation.joins_swap]
  have hdomain : ∀ i < net.size, net.domain i = net'.domain i := by
    intro i hi
    refine Domain.eq_of_mem_iff (h.posed.sound.normal i) (h'.posed.sound.normal i) fun v => ?_
    rw [h.mem_domain i hi, h'.mem_domain i (hsize ▸ hi),
      hsame.forall_iff fun e => Equation.allows_swap]
  have hdomains : net.domains = net'.domains := by
    have hsizes : net.domains.size = net'.domains.size := by
      rw [h.posed.sound.size_domains, h'.posed.sound.size_domains, hsize]
    refine Array.ext hsizes fun i hi hi' => ?_
    have hi := hdomain i (h.posed.sound.size_domains ▸ hi)
    simpa [domain, Array.getD_eq_getD_getElem?, *] using hi
  have hvars : net.vars = net'.vars := h.posed.vars_eq.trans h'.posed.vars_eq.symm
  have hleaders : net.leaders = net'.leaders := h.leaders_eq.trans h'.leaders_eq.symm
  have hequal : net.equal = net'.equal := hgraph true
  have hdistinct : net.distinct = net'.distinct := hgraph false
  cases net
  cases net'
  congr

/-! ## One more equation -/

theorem restrict (h : Imposed scope done net) {name : String} (hname : scope.lookup name = .ok i)
    (hi : i < net.size) (v : Int) (equal : Bool) :
    ∃ net', net.restrict i v equal = .ok net' ∧
      Imposed scope (done ++ [.value name v equal]) net' := by
  refine ⟨_, restrict_eq hi v equal, ?_⟩
  have hposed := ((restrict_returns h.posed hi v equal).of_eq_ok (restrict_eq hi v equal)).1
  refine ⟨hposed, h.leaders_eq, h.fitted, fun k hk w => ?_, fun equal' a b => ?_⟩
  · rw [domain_setDomain _ (h.posed.sound.size_domains.symm ▸ hi), List.forall_mem_append,
      List.forall_mem_singleton]
    by_cases hki : k = i
    · subst hki
      rw [if_pos rfl, mem_restricted, h.mem_domain k hk]
      simp [Equation.Allows, hname, and_assoc]
    · -- The equation says nothing about the other variables.
      have hallows : (Equation.value name v equal).Allows scope k w := by
        intro hk
        rw [hname] at hk
        cases hk
        exact absurd rfl hki
      rw [if_neg hki, h.mem_domain k hk]
      simp [hallows]
  · show (net.graph equal').adjacent a b = true ↔ _
    rw [h.adjacent]
    simp [Equation.Joins, or_and_right, exists_or]

theorem allows_concat {left right : String} {k : Nat} :
    (∀ e ∈ done ++ [.pair left right equal], e.Allows scope k v) ↔
      ∀ e ∈ done, e.Allows scope k v := by
  simp [Equation.Allows, or_imp, forall_and]

theorem joins_concat {left right : String} (hleft : scope.lookup left = .ok i)
    (hright : scope.lookup right = .ok j) {equal' : Bool} {a b : Nat} :
    (∃ e ∈ done ++ [.pair left right equal], e.Joins scope equal' a b) ↔
      (∃ e ∈ done, e.Joins scope equal' a b) ∨
        equal = equal' ∧ (i = a ∧ j = b ∨ i = b ∧ j = a) := by
  simp [Equation.Joins, hleft, hright, or_and_right, exists_or]

/-- A variable is equal to itself already, and no edge says so. -/
theorem relate_self (h : Imposed scope done net) {left right : String}
    (hleft : scope.lookup left = .ok i) (hright : scope.lookup right = .ok i) (equal : Bool) :
    Imposed scope (done ++ [.pair left right equal]) net := by
  refine ⟨h.posed, h.leaders_eq, h.fitted, fun k hk w => ?_, fun equal' a b => ?_⟩
  · rw [allows_concat, h.mem_domain k hk]
  · rw [joins_concat hleft hright, h.adjacent]
    refine and_congr_right fun hab => (or_iff_left ?_).symm
    omega

theorem relate_ne (h : Imposed scope done net) {left right : String}
    (hleft : scope.lookup left = .ok i) (hright : scope.lookup right = .ok j)
    (hi : i < net.size) (hj : j < net.size) (hij : i ≠ j) (equal : Bool) :
    Imposed scope (done ++ [.pair left right equal]) (net.join i j equal) := by
  have hs := h.posed.sound
  have hposed : Posed scope (net.join i j equal) :=
    ((relate_returns h.posed hi hj fun heq => absurd heq hij).of_eq_ok
      (relate_eq_join hi hj hij)).1
  refine ⟨hposed, ?_, fun equal' => ?_, fun k hk w => ?_, fun equal' a b => ?_⟩
  · rw [leaders_join, h.leaders_eq]
  · rw [graph_join, size_join]
    split
    · exact (h.fitted equal').link (hs.graph equal') hi hj hij
    · exact h.fitted equal'
  · rw [domain_join, allows_concat, h.mem_domain k (size_join net i j equal ▸ hk)]
  · rw [adjacent_join hs hi hj hij, joins_concat hleft hright, h.adjacent]
    refine ⟨?_, ?_⟩
    · rintro (⟨hab, hjoined⟩ | hnew)
      · exact ⟨hab, Or.inl hjoined⟩
      · exact ⟨by omega, Or.inr hnew⟩
    · rintro ⟨hab, hjoined | hnew⟩
      · exact Or.inl ⟨hab, hjoined⟩
      · exact Or.inr hnew

theorem impose (h : Imposed scope done net) (hd : scope.Declares xs) (he : e.Proper xs) :
    ∃ i net', net.impose scope e = .ok (i, net') ∧ i < net'.size ∧
      Imposed scope (done ++ [e]) net' := by
  have hplace : ∀ name ∈ e.names, ∃ k x, scope.lookup name = .ok k ∧ k < net.size ∧
      scope.vars[k]? = some x ∧ x.name = name := by
    intro name hname
    obtain ⟨k, x, hlookup, hk, hx⟩ := hd.lookup_eq (he.declared name hname)
    exact ⟨k, x, hlookup, h.size_eq ▸ (Array.getElem?_eq_some_iff.1 hk).1, hk, hx⟩
  cases e with
  | value name v equal =>
      obtain ⟨i, -, hname, hi, -⟩ := hplace name (by simp [Equation.names])
      obtain ⟨net', hnet', h'⟩ := h.restrict hname hi v equal
      refine ⟨i, net', ?_, h'.size_eq ▸ h.size_eq ▸ hi, h'⟩
      rw [Network.impose, hname]
      simp only [bind, Except.bind, hnet']
      rfl
  | pair left right equal =>
      obtain ⟨i, x, hleft, hi, hx, rfl⟩ := hplace left (by simp [Equation.names])
      obtain ⟨j, y, hright, hj, hy, rfl⟩ := hplace right (by simp [Equation.names])
      have hstep : ∃ net', net.relate i j equal = .ok net' ∧
          Imposed scope (done ++ [.pair x.name y.name equal]) net' := by
        by_cases hij : i = j
        · subst hij
          cases hx.symm.trans hy
          cases equal with
          | true => exact ⟨net, Network.relate_self hi, h.relate_self hleft hright true⟩
          | false => exact absurd rfl (he.not_reflexive x.name)
        · exact ⟨_, relate_eq_join hi hj hij, h.relate_ne hleft hright hi hj hij equal⟩
      obtain ⟨net', hnet', h'⟩ := hstep
      refine ⟨i, net', ?_, h'.size_eq ▸ h.size_eq ▸ hi, h'⟩
      rw [Network.impose, hleft, hright]
      simp only [bind, Except.bind, hnet']
      rfl

end Imposed

/-! ## All equations -/

/-- Do the equations leave every variable a value? -/
def ViableUnder (scope : Scope) (es : List Equation) : Prop :=
  ∀ i < scope.vars.size, ∃ v, v ∈ (ofVariables scope.vars).domain i ∧
    ∀ e ∈ es, e.Allows scope i v

theorem Imposed.allViable_iff (h : Imposed scope es net) :
    net.AllViable ↔ ViableUnder scope es := by
  rw [AllViable, ViableUnder, ← h.size_eq]
  refine forall₂_congr fun i hi => exists_congr fun v => ?_
  exact h.mem_domain i hi v

theorem imposeAll_imposed (hd : scope.Declares xs) :
    ∀ {done : List Equation} {net : Network}, Imposed scope done net → (∀ e ∈ es, e.Proper xs) →
      Returns (imposeAll scope es net) fun phase => phase.Ends
        (Imposed scope (done ++ es)) (fun _ => ¬ViableUnder scope (done ++ es)) := by
  induction es with
  | nil =>
      intro done net h _
      rw [List.append_nil]
      exact Returns.ok h
  | cons e es ih =>
      intro done net h hes
      obtain ⟨he, hes⟩ := List.forall_mem_cons.1 hes
      obtain ⟨i, net', hnet', hi, h'⟩ := h.impose hd he
      have happend : done ++ e :: es = done ++ [e] ++ es := by simp
      rw [imposeAll, hnet', happend]
      simp only [bind, Except.bind]
      split
      · exact ih h' hes
      · next hempty =>
          -- What has no value left now has none left in the end.
          refine Returns.ok fun hviable => hempty (viable_iff.2 ?_)
          obtain ⟨v, hv, hallows⟩ := hviable i (h'.size_eq ▸ hi)
          exact ⟨v, (h'.mem_domain i hi v).2 ⟨hv, (List.forall_mem_append.1 hallows).1⟩⟩

/-- If every variable is left a value, imposing proper equations and checking the domains passes,
and otherwise it gets stuck. -/
theorem checked_imposed (hd : scope.Declares xs) (hes : ∀ e ∈ es, e.Proper xs) :
    Returns (imposeAll scope es (ofVariables scope.vars)) fun phase => (phase.andThen check).Ends
      (fun net => Imposed scope es net ∧ ViableUnder scope es)
      (fun _ => ¬ViableUnder scope es) := by
  refine (imposeAll_imposed hd (imposed_ofVariables scope) hes).mono fun phase hends => ?_
  cases phase with
  | stuck net cause => exact hends
  | passed net =>
      refine (check_ends hends.posed.sound).mono ?_ ?_
      · rintro net' ⟨rfl, hviable⟩
        exact ⟨hends, hends.allViable_iff.1 hviable⟩
      · exact fun cause hempty => mt hends.allViable_iff.2 hempty

end Network

end FiniteDomain
