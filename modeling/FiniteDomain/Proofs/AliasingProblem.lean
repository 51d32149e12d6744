import FiniteDomain.Demo.Buffer
import FiniteDomain.Proofs.DistinctDeclarations
import FiniteDomain.Proofs.LeadingChoice
import Mathlib

/-!
# The buffer of the aliasing demonstration and what is asked of it

Entries are loaded one by one, and the first whose tag does not fit ends the loading. As the
tags ascend, a buffer is loaded exactly if its last tag fits. What is known of the entries
then is their names, widths and values, in order.

Of the formula only two things are needed. One is which clauses it stores, to see that it is
proper and where a disjunction is empty; the other is which equations the first choice takes:
even accesses have the tag of the first entry, odd ones that of none, and neighbours differ.
-/

namespace FiniteDomain.Demo.Aliasing

variable {count width accesses i j k : Nat} {entries xs : List Variable} {x : Variable}
  {e : Equation} {c : Clause}

/-! ## The buffer -/

theorem entryTag_pos (width i : Nat) : 0 < entryTag width i :=
  Nat.mul_pos (Nat.succ_pos i) (valueCount_pos _)

theorem entryTag_inj (width : Nat) : entryTag width i = entryTag width j ↔ i = j := by
  rw [entryTag, entryTag, Nat.mul_right_cancel_iff (valueCount_pos _), Nat.add_right_cancel_iff]

/-- Does the tag of an entry fit? -/
def Fits (width i : Nat) : Prop := (entryTag width i : Int) ≤ maxOfWidth width

theorem fits_iff : Fits width i ↔ (i + 1) * 2 ^ (width / 2) ≤ 2 ^ width - 1 := by
  have hpos := valueCount_pos width
  have hmax : Fits width i ↔ entryTag width i ≤ valueCount width - 1 := by
    rw [Fits, maxOfWidth]
    omega
  exact hmax

theorem forall_fits_iff :
    (∀ i < count, Fits width i) ↔ count * 2 ^ (width / 2) ≤ 2 ^ width - 1 := by
  simp only [fits_iff]
  refine ⟨fun h => ?_, fun h i hi => le_trans (Nat.mul_le_mul_right _ hi) h⟩
  cases count with
  | zero => simp
  | succ n => exact h n (Nat.lt_succ_self n)

/-- The name, the width and the value of entry number `i`. -/
def entryFacts (width i : Nat) : String × Nat × Option Int :=
  (s!"entry{i}", width, some ((entryTag width i : Nat) : Int))

/-- Are these so many entries of a buffer? -/
def Loaded (count width : Nat) (entries : List Variable) : Prop :=
  entries.map (fun x => (x.name, x.width, x.value?)) = (List.range count).map (entryFacts width)

theorem entry_of_fits (hw : 0 < width) (h : Fits width i) :
    ∃ x, entry width hw i = .ok x ∧ (x.name, x.width, x.value?) = entryFacts width i :=
  ⟨_, dif_pos h, rfl⟩

theorem entry_of_not_fits (hw : 0 < width) (h : ¬Fits width i) :
    entry width hw i = .error (.entryTooLarge i (entryTag width i) width) :=
  dif_neg h

theorem entriesFrom_eq_ok (hw : 0 < width) : ∀ {count i : Nat},
    (∀ k < count, Fits width (i + k)) → ∃ entries, entriesFrom width hw count i = .ok entries ∧
      entries.map (fun x => (x.name, x.width, x.value?)) =
        (List.range' i count).map (entryFacts width) := by
  intro count
  induction count with
  | zero => exact fun _ => ⟨[], rfl, rfl⟩
  | succ count ih =>
      intro i h
      have hrest : ∀ k < count, Fits width (i + 1 + k) := by
        intro k hk
        have hfits := h (k + 1) (Nat.succ_lt_succ hk)
        rwa [show i + (k + 1) = i + 1 + k by omega] at hfits
      obtain ⟨x, hx, hfacts⟩ := entry_of_fits hw (h 0 (Nat.succ_pos count))
      obtain ⟨entries, hentries, hmap⟩ := ih hrest
      rw [Nat.add_zero] at hx hfacts
      rw [entriesFrom, hx, hentries]
      refine ⟨x :: entries, rfl, ?_⟩
      rw [List.map_cons, hfacts, hmap, List.range'_succ, List.map_cons]

/-- The first tag that does not fit is reported. -/
theorem entriesFrom_eq_error (hw : 0 < width) : ∀ {count i k : Nat}, k < count →
    ¬Fits width (i + k) → (∀ j < k, Fits width (i + j)) → entriesFrom width hw count i =
      .error (.entryTooLarge (i + k) (entryTag width (i + k)) width) := by
  intro count
  induction count with
  | zero => exact fun hk => absurd hk (Nat.not_lt_zero _)
  | succ count ih =>
      intro i k hk hlarge hfits
      rw [entriesFrom]
      cases k with
      | zero =>
          rw [Nat.add_zero] at hlarge ⊢
          rw [entry_of_not_fits hw hlarge]
          rfl
      | succ k =>
          have hshift : ∀ j, i + 1 + j = i + (j + 1) := by omega
          have hrest := ih (i := i + 1) (Nat.lt_of_succ_lt_succ hk) (by rwa [hshift])
            fun j hj => hshift j ▸ hfits (j + 1) (Nat.succ_lt_succ hj)
          obtain ⟨x, hx, -⟩ := entry_of_fits hw (hfits 0 (Nat.succ_pos k))
          rw [Nat.add_zero] at hx
          rw [hx, hrest, hshift]
          rfl

theorem buffer_eq_ok (hw : 0 < width) (h : ∀ i < count, Fits width i) :
    ∃ entries, buffer count width = .ok entries ∧ Loaded count width entries := by
  have hfits : ∀ k < count, Fits width (0 + k) := fun k hk => by rw [Nat.zero_add]; exact h k hk
  obtain ⟨entries, hentries, hmap⟩ := entriesFrom_eq_ok hw hfits
  refine ⟨entries, ?_, ?_⟩
  · rw [buffer, dif_pos hw, hentries]
  · rw [Loaded, hmap, List.range_eq_range']

theorem buffer_eq_error (h : ¬(0 < width ∧ ∀ i < count, Fits width i)) :
    ∃ e, buffer count width = .error e := by
  classical
  rw [buffer]
  split
  · next hw =>
      have hlarge : ∃ k, k < count ∧ ¬Fits width k := by
        simpa using fun hall => h ⟨hw, hall⟩
      have hspec := Nat.find_spec hlarge
      refine ⟨_, entriesFrom_eq_error hw hspec.1 ?_ fun j hj => ?_⟩
      · rw [Nat.zero_add]
        exact hspec.2
      · rw [Nat.zero_add]
        by_contra hj'
        exact Nat.find_min hlarge hj ⟨hj.trans hspec.1, hj'⟩
  · exact ⟨_, rfl⟩

/-- The buffer is loaded exactly if the last tag fits. -/
theorem buffer_isOk_iff : (∃ entries, buffer count width = .ok entries) ↔
    0 < width ∧ count * 2 ^ (width / 2) ≤ 2 ^ width - 1 := by
  rw [← forall_fits_iff]
  refine ⟨fun h => ?_, fun h => ?_⟩
  · obtain ⟨entries, hentries⟩ := h
    by_contra hnot
    obtain ⟨e, he⟩ := buffer_eq_error hnot
    rw [hentries] at he
    cases he
  · obtain ⟨entries, hentries, -⟩ := buffer_eq_ok h.1 h.2
    exact ⟨entries, hentries⟩

namespace Loaded

variable (h : Loaded count width entries)

include h

theorem length_eq : entries.length = count := by
  have hlength := congrArg List.length h
  simpa using hlength

theorem getElem?_eq (hx : entries[i]? = some x) :
    x.name = s!"entry{i}" ∧ x.width = width ∧
      x.value? = some ((entryTag width i : Nat) : Int) := by
  have hi : i < count := h.length_eq ▸ (List.getElem?_eq_some_iff.1 hx).1
  have hget := congrArg (·[i]?) h
  simp only [List.getElem?_map, hx, List.getElem?_range hi, Option.map_some] at hget
  simpa [entryFacts] using hget

theorem exists_getElem? (hi : i < count) : ∃ x, entries[i]? = some x :=
  ⟨_, List.getElem?_eq_getElem (h.length_eq.symm ▸ hi)⟩

theorem nodup_names : (entries.map Variable.name).Nodup := by
  have hnames := congrArg (List.map Prod.fst) h
  simp only [List.map_map, Function.comp_def] at hnames
  rw [hnames]
  exact List.nodup_range.map fun i j hij => (append_toString_inj "entry").1 hij

theorem nodup_values : (entries.map Variable.value?).Nodup := by
  have hvalues := congrArg (List.map fun p => p.2.2) h
  simp only [List.map_map, Function.comp_def] at hvalues
  rw [hvalues]
  refine List.nodup_range.map fun i j hij => ?_
  exact (entryTag_inj width).1 (Int.ofNat.inj (Option.some.inj hij))

end Loaded

/-! ## The tags of the accesses -/

theorem getElem?_tags (hw : 0 < width) (hi : i < accesses) :
    (tags width accesses)[i]? = some (tag width hw i) := by
  rw [tags, dif_pos hw, List.getElem?_map, List.getElem?_range hi]
  rfl

theorem length_tags (hw : 0 < width) : (tags width accesses).length = accesses := by
  rw [tags, dif_pos hw, List.length_map, List.length_range]

theorem eq_tag_of_getElem? (hw : 0 < width) (hx : (tags width accesses)[i]? = some x) :
    i < accesses ∧ x = tag width hw i := by
  have hi := (List.getElem?_eq_some_iff.1 hx).1
  rw [length_tags hw] at hi
  rw [getElem?_tags hw hi] at hx
  exact ⟨hi, (Option.some.inj hx).symm⟩

theorem name_tag (hw : 0 < width) (i : Nat) : (tag width hw i).name = s!"tag{i}" := rfl

theorem name_tag_inj (hw : 0 < width) : (tag width hw i).name = (tag width hw j).name ↔ i = j :=
  append_toString_inj "tag"

/-- An entry is told from a tag by its first letter. -/
theorem entry_name_ne_tag_name (i j : Nat) : s!"entry{i}" ≠ s!"tag{j}" := by
  intro h
  have hletters : ("entry" ++ toString i).toList.head? = ("tag" ++ toString j).toList.head? :=
    congrArg (fun s => s.toList.head?) h
  simp at hletters

/-! ## What is asked -/

theorem mem_alternating : e ∈ alternating xs ↔ ∃ (i : Nat) (x y : Variable), xs[i]? = some x ∧
    xs[i + 1]? = some y ∧ e = .pair x.name y.name false := by
  fun_induction alternating xs with
  | case1 x y rest ih =>
      rw [List.mem_cons, ih]
      refine ⟨?_, ?_⟩
      · rintro (rfl | ⟨i, x', y', hx, hy, rfl⟩)
        · exact ⟨0, x, y, rfl, rfl, rfl⟩
        · exact ⟨i + 1, x', y', hx, hy, rfl⟩
      · rintro ⟨i, x', y', hx, hy, rfl⟩
        cases i with
        | zero =>
            cases hx
            cases hy
            exact Or.inl rfl
        | succ i => exact Or.inr ⟨i, x', y', hx, hy, rfl⟩
  | case2 xs hshort =>
      refine ⟨fun h => absurd h List.not_mem_nil, ?_⟩
      rintro ⟨i, x, y, hx, hy, -⟩
      exfalso
      cases xs with
      | nil => cases hx
      | cons x xs =>
          cases xs with
          | nil => cases hy
          | cons y xs => exact hshort _ _ _ rfl

/-- What is asked of access number `i`. -/
def demand (entries : List Variable) (x : Variable) (i : Nat) : Clause :=
  if i % 2 = 0 then .anyOf (entries.map fun y => .pair x.name y.name true)
  else .allOf (entries.map fun y => .pair x.name y.name false)

theorem length_demand (entries : List Variable) (x : Variable) (i : Nat) :
    (demand entries x i).equations.length = entries.length := by
  rw [demand]
  split <;> exact List.length_map _

theorem exists_of_mem_demand (he : e ∈ (demand entries x i).equations) :
    ∃ y ∈ entries, ∃ equal, e = .pair x.name y.name equal := by
  rw [demand] at he
  split at he <;>
  · obtain ⟨y, hy, rfl⟩ := List.mem_map.1 he
    exact ⟨y, hy, _, rfl⟩

theorem clauses_problem (entries xs : List Variable) : (problem entries xs).clauses =
    (xs.zipIdx.flatMap fun p => Formula.pieces (demand entries p.1 p.2)) ++
      (alternating xs).map fun e => Clause.allOf [e] := by
  have hdemand : ∀ p : Variable × Nat,
      (if p.2 % 2 = 0 then hit p.1 entries else miss p.1 entries).formula.clauses.flatMap
        Formula.pieces = Formula.pieces (demand entries p.1 p.2) := by
    intro p
    rw [demand]
    split
    · rw [hit, Formula.clauses_ofClauses_singleton, Formula.flatMap_pieces]
    · rw [miss, Formula.clauses_ofClauses_singleton, Formula.flatMap_pieces]
  rw [problem, Formula.clauses_foldl_addEquation, Formula.clauses_foldl_addConstraint, constraints,
    List.flatMap_map]
  simp only [hdemand]
  rfl

theorem mem_clauses : c ∈ (problem entries xs).clauses ↔
    (∃ (i : Nat) (x : Variable), xs[i]? = some x ∧ c ∈ Formula.pieces (demand entries x i)) ∨
      ∃ e ∈ alternating xs, c = .allOf [e] := by
  rw [clauses_problem, List.mem_append, List.mem_flatMap, List.mem_map]
  refine or_congr ?_ (by simp only [eq_comm])
  simp only [Prod.exists, List.mem_zipIdx_iff_getElem?]
  exact exists_comm

theorem leads_demand : (demand entries x i).Leads e ↔
    (i % 2 = 0 ∧ ∃ y, entries[0]? = some y ∧ e = .pair x.name y.name true) ∨
      (i % 2 = 1 ∧ ∃ (k : Nat) (y : Variable), entries[k]? = some y ∧
        e = .pair x.name y.name false) := by
  rw [demand]
  split
  · next heven =>
      rw [or_iff_left fun h => absurd h.1 (by omega), and_iff_right heven]
      show (entries.map _).head? = some e ↔ _
      rw [List.head?_eq_getElem?, List.getElem?_map, Option.map_eq_some_iff]
      simp only [@eq_comm _ e]
  · next hodd =>
      rw [or_iff_right fun h => hodd h.1, and_iff_right (Nat.mod_two_ne_zero.1 hodd)]
      show e ∈ entries.map _ ↔ _
      rw [List.mem_map]
      refine ⟨?_, ?_⟩
      · rintro ⟨y, hy, rfl⟩
        obtain ⟨k, hk⟩ := List.getElem?_of_mem hy
        exact ⟨k, y, hk, rfl⟩
      · rintro ⟨k, y, hk, rfl⟩
        exact ⟨y, List.mem_of_getElem? hk, rfl⟩

/-- The equations of the first choice. -/
def chosen (width accesses : Nat) (entries : List Variable) : List Equation :=
  (problem entries (tags width accesses)).leading

/-- Even accesses have the tag of the first entry and odd ones the tag of none, and each has
another tag than the next. -/
theorem mem_chosen (hw : 0 < width) : e ∈ chosen width accesses entries ↔
    (∃ i < accesses, i % 2 = 0 ∧ ∃ y, entries[0]? = some y ∧
      e = .pair (tag width hw i).name y.name true) ∨
    (∃ i < accesses, i % 2 = 1 ∧ ∃ (k : Nat) (y : Variable), entries[k]? = some y ∧
      e = .pair (tag width hw i).name y.name false) ∨
    ∃ i, i + 1 < accesses ∧ e = .pair (tag width hw i).name (tag width hw (i + 1)).name false := by
  have hstored : (∃ c ∈ (problem entries (tags width accesses)).clauses, c.Leads e) ↔
      (∃ (i : Nat) (x : Variable), (tags width accesses)[i]? = some x ∧
        (demand entries x i).Leads e) ∨ e ∈ alternating (tags width accesses) := by
    simp only [mem_clauses, or_and_right, exists_or]
    refine or_congr ?_ ?_
    · refine ⟨?_, ?_⟩
      · rintro ⟨c, ⟨i, x, hx, hc⟩, hleads⟩
        exact ⟨i, x, hx, Formula.exists_leads_pieces.1 ⟨c, hc, hleads⟩⟩
      · rintro ⟨i, x, hx, hleads⟩
        obtain ⟨c, hc, hleads⟩ := Formula.exists_leads_pieces.2 hleads
        exact ⟨c, ⟨i, x, hx, hc⟩, hleads⟩
    · refine ⟨?_, fun he => ⟨_, ⟨e, he, rfl⟩, List.mem_singleton_self e⟩⟩
      rintro ⟨c, ⟨e', he', rfl⟩, hleads⟩
      rwa [List.mem_singleton.1 hleads]
  rw [chosen, Formula.mem_leading, hstored, mem_alternating]
  simp only [leads_demand]
  refine ⟨?_, ?_⟩
  · rintro (⟨i, x, hx, heven | hodd⟩ | ⟨i, x, y, hx, hy, rfl⟩)
    · obtain ⟨hi, rfl⟩ := eq_tag_of_getElem? hw hx
      exact Or.inl ⟨i, hi, heven⟩
    · obtain ⟨hi, rfl⟩ := eq_tag_of_getElem? hw hx
      exact Or.inr (Or.inl ⟨i, hi, hodd⟩)
    · obtain ⟨-, rfl⟩ := eq_tag_of_getElem? hw hx
      obtain ⟨hi, rfl⟩ := eq_tag_of_getElem? hw hy
      exact Or.inr (Or.inr ⟨i, hi, rfl⟩)
  · rintro (⟨i, hi, heven⟩ | ⟨i, hi, hodd⟩ | ⟨i, hi, rfl⟩)
    · exact Or.inl ⟨i, _, getElem?_tags hw hi, Or.inl heven⟩
    · exact Or.inl ⟨i, _, getElem?_tags hw hi, Or.inr hodd⟩
    · exact Or.inr ⟨i, _, _, getElem?_tags hw ((Nat.lt_succ_self i).trans hi),
        getElem?_tags hw hi, rfl⟩

end FiniteDomain.Demo.Aliasing
