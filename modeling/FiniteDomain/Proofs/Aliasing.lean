import FiniteDomain.Proofs.AliasingProblem
import FiniteDomain.Proofs.FixedEnds
import FiniteDomain.Proofs.FormulaVerdict
import Mathlib

/-!
# What the aliasing demonstration reports

The first choice makes every even access equal to the first entry, which is fixed. So each
inequality has an end that is settled: an entry, or the even one of two neighbours. No value
is tried, and what is reported is known from the first values that are left: the tag of the
first entry for an even access, and for an odd one zero, since no entry has the tag zero.

Without entries there is no such choice, and the first access is where this comes to light.

Entries and accesses together may be as many as there are indices. The first one beyond that
cannot be declared, and the run ends there, whatever the verdict would have been.
-/

namespace FiniteDomain.Demo.Aliasing

variable {count width accesses i k : Nat} {entries xs : List Variable} {x : Variable} {v : Int}

/-! ## The solution -/

/-- The tag that an access uses: that of the first entry, or zero. -/
def accessTag (width i : Nat) : Nat := if i % 2 = 0 then 2 ^ (width / 2) else 0

theorem accessTag_of_even (heven : i % 2 = 0) : accessTag width i = entryTag width 0 := by
  rw [accessTag, if_pos heven, entryTag, Nat.zero_add, Nat.one_mul]
  rfl

theorem accessTag_of_odd (hodd : i % 2 = 1) : accessTag width i = 0 :=
  if_neg (by omega)

theorem accessTag_succ_ne (width i : Nat) : accessTag width i ≠ accessTag width (i + 1) := by
  have hpos := entryTag_pos width 0
  rcases Nat.mod_two_eq_zero_or_one i with heven | hodd
  · rw [accessTag_of_even heven, accessTag_of_odd (by omega)]
    exact hpos.ne'
  · rw [accessTag_of_odd hodd, accessTag_of_even (by omega)]
    exact hpos.ne

theorem accessTag_le (hw : 0 < width) (i : Nat) : (accessTag width i : Int) ≤ maxOfWidth width := by
  have hlt : valueCount (width / 2) < valueCount width :=
    Nat.pow_lt_pow_right (by decide) (Nat.div_lt_self hw (by decide))
  have hle : accessTag width i ≤ valueCount (width / 2) := by
    rw [accessTag]
    split
    · exact le_rfl
    · exact Nat.zero_le _
  rw [maxOfWidth]
  omega

/-- The values of the entries, followed by those of the tags. -/
def values (count width k : Nat) : Int :=
  if k < count then entryTag width k else accessTag width (k - count)

theorem values_of_lt (hk : k < count) : values count width k = entryTag width k := if_pos hk

theorem values_add (count width i : Nat) : values count width (count + i) = accessTag width i := by
  rw [values, if_neg (by omega), Nat.add_sub_cancel_left]

theorem takes_tag (hw : 0 < width) : (tag width hw i).Takes v ↔ 0 ≤ v ∧ v ≤ maxOfWidth width :=
  Variable.takes_of_free rfl

theorem Loaded.takes_iff (h : Loaded count width entries) (hx : entries[i]? = some x) :
    x.Takes v ↔ v = entryTag width i :=
  Variable.takes_of_fixed (h.getElem?_eq hx).2.2

/-- The entries and the tags by number. -/
def scope (width accesses : Nat) (entries : List Variable) : Scope :=
  ⟨(entries ++ tags width accesses).toArray⟩

theorem vars_entry (hx : entries[i]? = some x) :
    (scope width accesses entries).vars[i]? = some x := by
  rw [scope, List.getElem?_toArray,
    List.getElem?_append_left (List.getElem?_eq_some_iff.1 hx).1, hx]

namespace Loaded

variable (h : Loaded count width entries)

include h

theorem vars_tag (hw : 0 < width) (hi : i < accesses) :
    (scope width accesses entries).vars[count + i]? = some (tag width hw i) := by
  rw [scope, List.getElem?_toArray, List.getElem?_append_right (h.length_eq ▸ Nat.le_add_right _ _),
    h.length_eq, Nat.add_sub_cancel_left, getElem?_tags hw hi]

/-- The scope has no other variables. -/
theorem vars_cases (hw : 0 < width)
    (hx : (scope width accesses entries).vars[k]? = some x) :
    k < count ∧ entries[k]? = some x ∨ ∃ i < accesses, k = count + i ∧ x = tag width hw i := by
  rw [scope, List.getElem?_toArray] at hx
  rcases Nat.lt_or_ge k count with hk | hk
  · rw [List.getElem?_append_left (h.length_eq.symm ▸ hk)] at hx
    exact Or.inl ⟨hk, hx⟩
  · rw [List.getElem?_append_right (h.length_eq.symm ▸ hk), h.length_eq] at hx
    obtain ⟨hi, rfl⟩ := eq_tag_of_getElem? hw hx
    exact Or.inr ⟨k - count, hi, by omega, rfl⟩

theorem settled {es : List Equation} (hx : entries[k]? = some x) :
    Settled (scope width accesses entries) es k := by
  refine ⟨k, x, vars_entry hx, ?_, Or.inl rfl⟩
  rw [(h.getElem?_eq hx).2.2]
  exact Option.some_ne_none _

theorem nodup_scope (hw : 0 < width) :
    ((entries ++ tags width accesses).map Variable.name).Nodup := by
  rw [List.map_append, List.nodup_append]
  refine ⟨h.nodup_names, ?_, ?_⟩
  · rw [tags, dif_pos hw, List.map_map]
    exact List.nodup_range.map fun i j hij => (name_tag_inj hw).1 hij
  · intro a ha b hb heq
    obtain ⟨x, hx, rfl⟩ := List.mem_map.1 ha
    obtain ⟨y, hy, rfl⟩ := List.mem_map.1 hb
    obtain ⟨i, hi⟩ := List.getElem?_of_mem hx
    obtain ⟨j, hj⟩ := List.getElem?_of_mem hy
    obtain ⟨-, rfl⟩ := eq_tag_of_getElem? hw hj
    rw [(h.getElem?_eq hi).1, name_tag] at heq
    exact entry_name_ne_tag_name i j heq

theorem declares_scope (hw : 0 < width) (accesses : Nat) :
    (scope width accesses entries).Declares (entries ++ tags width accesses) :=
  Scope.declares_of_nodup (h.nodup_scope hw)

theorem ofGroups_eq (hw : 0 < width) : Scope.ofGroups [entries, tags width accesses] =
    if count + accesses ≤ Index.limit then .ok (scope width accesses entries)
    else .error (.indexTooLarge Index.limit) := by
  have hflat : [entries, tags width accesses].flatten = entries ++ tags width accesses := by simp
  rw [Scope.ofGroups_of_nodup (hflat.symm ▸ h.nodup_scope hw), hflat, List.length_append,
    h.length_eq, length_tags hw]
  rfl

end Loaded

section Problem

variable (h : Loaded count width entries) (hw : 0 < width)
  (hd : (scope width accesses entries).Declares xs)

include h hw hd

theorem solves_values :
    Solves (scope width accesses entries) (chosen width accesses entries) (values count width) := by
  have hnames := hd.distinctNames
  refine ⟨fun k x hx => ?_, fun e he => ?_⟩
  · rcases h.vars_cases hw hx with ⟨hk, hx⟩ | ⟨i, -, rfl, rfl⟩
    · rw [h.takes_iff hx, values_of_lt hk]
    · rw [takes_tag, values_add]
      exact ⟨Int.natCast_nonneg _, accessTag_le hw i⟩
  · rcases (mem_chosen hw).1 he with ⟨i, hi, heven, y, hy, rfl⟩ | ⟨i, hi, hodd, k, y, hy, rfl⟩ |
      ⟨i, hi, rfl⟩
    · have hk : 0 < count := h.length_eq ▸ (List.getElem?_eq_some_iff.1 hy).1
      rw [Equation.holds_pair hnames (h.vars_tag hw hi) (vars_entry hy), values_add,
        values_of_lt hk, accessTag_of_even heven, beq_self_eq_true]
      rfl
    · have hk : k < count := h.length_eq ▸ (List.getElem?_eq_some_iff.1 hy).1
      have hne : ((0 : Nat) : Int) ≠ entryTag width k :=
        fun heq => (entryTag_pos width k).ne (Int.ofNat.inj heq)
      rw [Equation.holds_pair hnames (h.vars_tag hw hi) (vars_entry hy), values_add,
        values_of_lt hk, accessTag_of_odd hodd, beq_false_of_ne hne]
      rfl
    · have hne : (accessTag width i : Int) ≠ accessTag width (i + 1) :=
        fun heq => accessTag_succ_ne width i (Int.ofNat.inj heq)
      rw [Equation.holds_pair hnames (h.vars_tag hw ((Nat.lt_succ_self i).trans hi))
        (h.vars_tag hw hi), values_add, values_add, beq_false_of_ne hne]
      rfl

theorem get?_values (i : Nat) (hi : i < accesses) :
    (Assignment.ofValues (scope width accesses entries).vars (values count width)).get?
      s!"tag{i}" = some ((accessTag width i : Nat) : Int) := by
  have hget := Assignment.get?_ofValues hd.distinctNames (h.vars_tag hw hi) (values count width)
  rwa [values_add] at hget

theorem proper_problem : (problem entries (tags width accesses)).Proper xs := by
  have htag : ∀ {i}, i < accesses → (tag width hw i).name ∈ xs.map Variable.name :=
    fun hi => List.mem_map_of_mem (hd.mem _ _ (h.vars_tag hw hi))
  have hentry : ∀ {k : Nat} {y : Variable}, entries[k]? = some y →
      y.name ∈ xs.map Variable.name :=
    fun hy => List.mem_map_of_mem (hd.mem _ _ (vars_entry hy))
  have hasked : ∀ {i : Nat}, i < accesses → (demand entries (tag width hw i) i).Proper xs := by
    intro i hi e he
    obtain ⟨y, hy, equal, rfl⟩ := exists_of_mem_demand he
    obtain ⟨k, hk⟩ := List.getElem?_of_mem hy
    refine Equation.proper_pair (htag hi) (hentry hk) fun heq => ?_
    rw [(h.getElem?_eq hk).1, name_tag] at heq
    exact absurd heq.symm (entry_name_ne_tag_name k i)
  intro c hc e he
  rcases mem_clauses.1 hc with ⟨i, x, hx, hpiece⟩ | ⟨e', halternating, rfl⟩
  · obtain ⟨hi, rfl⟩ := eq_tag_of_getElem? hw hx
    exact hasked hi e (Formula.subset_of_mem_pieces hpiece e he)
  · obtain ⟨i, x, y, hx, hy, rfl⟩ := mem_alternating.1 halternating
    obtain ⟨hi, rfl⟩ := eq_tag_of_getElem? hw hx
    obtain ⟨hi', rfl⟩ := eq_tag_of_getElem? hw hy
    cases List.mem_singleton.1 he
    refine Equation.proper_pair (htag hi) (htag hi') fun heq => ?_
    exact absurd ((name_tag_inj hw).1 heq) (Nat.lt_succ_self i).ne

/-- An even access has the tag of the first entry. -/
theorem exists_joins (hi : i < accesses) (heven : i % 2 = 0) (hcount : 0 < count) :
    ∃ e ∈ chosen width accesses entries,
      e.Joins (scope width accesses entries) true 0 (count + i) := by
  obtain ⟨y, hy⟩ := h.exists_getElem? hcount
  refine ⟨_, (mem_chosen hw).2 (Or.inl ⟨i, hi, heven, y, hy, rfl⟩), ?_⟩
  exact (Equation.joins_pair hd (h.vars_tag hw hi) (vars_entry hy)).2 ⟨rfl, Or.inr ⟨rfl, rfl⟩⟩

theorem settled_even (hi : i < accesses) (heven : i % 2 = 0) (hcount : 0 < count) :
    Settled (scope width accesses entries) (chosen width accesses entries) (count + i) := by
  obtain ⟨y, hy⟩ := h.exists_getElem? hcount
  refine ⟨0, y, vars_entry hy, ?_, Or.inr (exists_joins h hw hd hi heven hcount)⟩
  rw [(h.getElem?_eq hy).2.2]
  exact Option.some_ne_none _

/-- Of two neighbouring accesses one is even, so every inequality has a settled end. -/
theorem settled_of_joins (hcount : accesses ≠ 0 → 0 < count) :
    ∀ e ∈ chosen width accesses entries, ∀ a b,
      e.Joins (scope width accesses entries) false a b →
        Settled (scope width accesses entries) (chosen width accesses entries) a ∨
          Settled (scope width accesses entries) (chosen width accesses entries) b := by
  intro e he a b hjoins
  rcases (mem_chosen hw).1 he with ⟨i, hi, -, y, hy, rfl⟩ | ⟨i, hi, -, k, y, hy, rfl⟩ |
    ⟨i, hi, rfl⟩
  · cases hjoins.1
  · obtain ⟨-, ⟨-, rfl⟩ | ⟨-, rfl⟩⟩ :=
      (Equation.joins_pair hd (h.vars_tag hw hi) (vars_entry hy)).1 hjoins
    · exact Or.inr (h.settled hy)
    · exact Or.inl (h.settled hy)
  · have hi' : i < accesses := (Nat.lt_succ_self i).trans hi
    have hcount := hcount (by omega)
    have hends :
        Settled (scope width accesses entries) (chosen width accesses entries) (count + i) ∨
          Settled (scope width accesses entries) (chosen width accesses entries)
            (count + (i + 1)) := by
      rcases Nat.mod_two_eq_zero_or_one i with heven | hodd
      · exact Or.inl (settled_even h hw hd hi' heven hcount)
      · exact Or.inr (settled_even h hw hd hi (by omega) hcount)
    obtain ⟨-, ⟨rfl, rfl⟩ | ⟨rfl, rfl⟩⟩ :=
      (Equation.joins_pair hd (h.vars_tag hw hi') (h.vars_tag hw hi)).1 hjoins
    · exact hends
    · exact hends.symm

theorem first_or_joined (hcount : accesses ≠ 0 → 0 < count) (k : Nat) (x : Variable)
    (hx : (scope width accesses entries).vars[k]? = some x) :
    (∃ j < k, ∃ e ∈ chosen width accesses entries,
      e.Joins (scope width accesses entries) true j k) ∨
        ValueOrder.ascending.IsFirst x.Takes (values count width k) := by
  rcases h.vars_cases hw hx with ⟨hk, hx⟩ | ⟨i, hi, rfl, rfl⟩
  · refine Or.inr ⟨?_, fun v hv => ?_⟩
    · rw [h.takes_iff hx, values_of_lt hk]
    · rw [(h.takes_iff hx).1 hv, values_of_lt hk]
      exact lt_irrefl _
  · have hcount := hcount (by omega)
    rcases Nat.mod_two_eq_zero_or_one i with heven | hodd
    · exact Or.inl ⟨0, by omega, exists_joins h hw hd hi heven hcount⟩
    · rw [values_add, accessTag_of_odd hodd]
      refine Or.inr ⟨?_, fun v hv => ?_⟩
      · exact (takes_tag hw).2 ⟨le_rfl, maxOfWidth_nonneg width⟩
      · exact not_lt.2 ((takes_tag hw).1 hv).1

end Problem

/-! ## The verdict -/

section Verdict

variable (h : Loaded count width entries) (hw : 0 < width)
  (hlimit : count + accesses ≤ Index.limit)

include h hw hlimit

theorem verdict_eq : verdict entries (tags width accesses) =
    ((problem entries (tags width accesses)).solve (scope width accesses entries) {}
      .witness).outcome := by
  rw [verdict, h.ofGroups_eq hw, if_pos hlimit]
  rfl

/-- If there is an entry for the even accesses, the first choice can be met. -/
theorem verdict_sat (hcount : accesses ≠ 0 → 0 < count) :
    verdict entries (tags width accesses) =
      .ok (.sat (.ofValues (scope width accesses entries).vars (values count width))) := by
  have hd := h.declares_scope hw accesses
  have hproper := proper_problem h hw hd
  have hsolves := solves_values h hw hd
  have hne : ∀ c ∈ (problem entries (tags width accesses)).disjunctions, c.equations ≠ [] := by
    intro c hc
    rcases mem_clauses.1 (List.mem_filter.1 hc).1 with ⟨i, x, hx, hpiece⟩ | ⟨e, -, rfl⟩
    · have hi := (eq_tag_of_getElem? hw hx).1
      refine Formula.ne_nil_of_mem_pieces hpiece fun hnil => ?_
      have hlength := length_demand entries x i
      rw [hnil, h.length_eq, List.length_nil] at hlength
      have hpos := hcount (by omega)
      omega
    · exact List.cons_ne_nil e []
  rw [verdict_eq h hw hlimit,
    Formula.outcome_solve_of_leading hd hproper rfl hne ⟨_, hsolves⟩]
  exact Clause.solveAll_of_settled hd hproper.of_mem_leading hsolves
    (settled_of_joins h hw hd hcount) (first_or_joined h hw hd hcount)

/-- Without entries no access can hit. -/
theorem verdict_unsat (hcount : count = 0) (haccesses : 0 < accesses) :
    verdict entries (tags width accesses) = .ok (.unsat (.clause (.anyOf []))) := by
  have hd := h.declares_scope hw accesses
  have hproper := proper_problem h hw hd
  have hnil : entries = [] := List.eq_nil_of_length_eq_zero (h.length_eq.trans hcount)
  have hall : ∀ c ∈ (problem entries (tags width accesses)).disjunctions, c = .anyOf [] := by
    intro c hc
    obtain ⟨hc, hany⟩ := List.mem_filter.1 hc
    rcases mem_clauses.1 hc with ⟨i, x, -, hpiece⟩ | ⟨e, -, rfl⟩
    · rw [hnil, demand] at hpiece
      split at hpiece
      · exact List.mem_singleton.1 hpiece
      · cases hpiece
    · cases hany
  have hmem : Clause.anyOf [] ∈ (problem entries (tags width accesses)).disjunctions := by
    refine List.mem_filter.2 ⟨mem_clauses.2 (Or.inl ⟨0, _, getElem?_tags hw haccesses, ?_⟩), rfl⟩
    rw [hnil]
    exact List.mem_singleton_self _
  obtain ⟨c, cs, hcs⟩ := List.exists_cons_of_ne_nil (List.ne_nil_of_mem hmem)
  have hc := hall c (hcs ▸ List.mem_cons_self)
  have hbase := (solves_append.1 (solves_values h hw hd)).1
  rw [verdict_eq h hw hlimit,
    Formula.outcome_solve_of_void hd hproper rfl hcs (by rw [hc]; rfl) ⟨_, hbase⟩, hc]

end Verdict

/-! ## The result -/

/-- Do the accesses hit and miss in turn, each with another tag than the one before? -/
structure Alternates (accesses : Nat) (entries : List Variable) (s : Assignment) : Prop where
  hits : ∀ i < accesses, i % 2 = 0 → ∃ x ∈ entries, x.value? = s.get? s!"tag{i}"
  misses : ∀ i < accesses, i % 2 = 1 → ∀ x ∈ entries, x.value? ≠ s.get? s!"tag{i}"
  changes : ∀ i, i + 1 < accesses → s.get? s!"tag{i}" ≠ s.get? s!"tag{i + 1}"

theorem Loaded.alternates (h : Loaded count width entries) {s : Assignment}
    (hs : ∀ i < accesses, s.get? s!"tag{i}" = some ((accessTag width i : Nat) : Int))
    (hcount : accesses ≠ 0 → 0 < count) : Alternates accesses entries s where
  hits i hi heven := by
    obtain ⟨x, hx⟩ := h.exists_getElem? (hcount (Nat.ne_zero_of_lt hi))
    refine ⟨x, List.mem_of_getElem? hx, ?_⟩
    rw [(h.getElem?_eq hx).2.2, hs i hi, accessTag_of_even heven]
  misses i hi hodd x hx := by
    obtain ⟨k, hk⟩ := List.getElem?_of_mem hx
    rw [(h.getElem?_eq hk).2.2, hs i hi, accessTag_of_odd hodd]
    exact fun heq => (entryTag_pos width k).ne' (Int.ofNat.inj (Option.some.inj heq))
  changes i hi := by
    rw [hs i ((Nat.lt_succ_self i).trans hi), hs (i + 1) hi]
    exact fun heq => accessTag_succ_ne width i (Int.ofNat.inj (Option.some.inj heq))

/-- The line that tells the tag of an access. -/
theorem text_tagLine (i n : Nat) : s!"tag{i} = {hexText n}" =
    "tag" ++ toString i ++ " = 0x" ++ String.ofList (Nat.toDigits 16 n) := by
  calc
    _ = "tag" ++ toString i ++ (" = " ++ "0x") ++ String.ofList (Nat.toDigits 16 n) := by
      simp only [String.append_assoc]
      rfl
    _ = _ := rfl

theorem filterMap_tagLine (hw : 0 < width) {s : Assignment}
    (hs : ∀ i < accesses, s.get? s!"tag{i}" = some ((accessTag width i : Nat) : Int)) :
    (tags width accesses).filterMap (tagLine s) = (List.range accesses).map fun i =>
      "tag" ++ toString i ++ " = 0x" ++ String.ofList (Nat.toDigits 16 (accessTag width i)) := by
  rw [tags, dif_pos hw, List.filterMap_map, ← List.filterMap_eq_map]
  refine List.filterMap_congr fun i hi => ?_
  rw [Function.comp_apply, tagLine, name_tag, hs i (List.mem_range.1 hi)]
  exact congrArg some (text_tagLine i _)

namespace Request

variable {r : Request}

/-- The lines that are printed before the verdict. -/
def opening (r : Request) (entries : List Variable) : List String :=
  s!"args = {r.text}" :: preamble entries (tags r.width r.accesses)

theorem report_of_verdict {v : Verdict} (hentries : buffer r.entries r.width = .ok entries)
    (hv : verdict entries (tags r.width r.accesses) = .ok v) :
    r.report = .finished (r.opening entries ++ [s!"status = {v.status.text}"] ++
      answerLines (tags r.width r.accesses) v) := by
  rw [report, hentries]
  simp only [hv]
  rfl

theorem loaded (hentries : buffer r.entries r.width = .ok entries) :
    0 < r.width ∧ Loaded r.entries r.width entries := by
  obtain ⟨hw, hfits⟩ := buffer_isOk_iff.1 ⟨entries, hentries⟩
  obtain ⟨entries', hentries', hloaded⟩ := buffer_eq_ok hw (forall_fits_iff.2 hfits)
  cases hentries.symm.trans hentries'
  exact ⟨hw, hloaded⟩

/-- One variable too many for the indices, and there is no verdict. -/
theorem report_of_limit_lt (hentries : buffer r.entries r.width = .ok entries)
    (hlimit : Index.limit < r.entries + r.accesses) :
    r.report = .failed "Variable index 4294967296 is too large" 101 (r.opening entries) := by
  obtain ⟨hw, hloaded⟩ := loaded hentries
  have hverdict : verdict entries (tags r.width r.accesses) =
      .error (.indexTooLarge Index.limit) := by
    rw [verdict, hloaded.ofGroups_eq hw, if_neg (Nat.not_le.2 hlimit)]
    rfl
  rw [report, hentries]
  simp only [hverdict]
  rfl

end Request

/--
What is reported. The buffer is loaded exactly if the tag of its last entry fits, and then its
entries are fixed to different tags, none of them zero. For as many variables as there are
indices: if there is an entry, or no access that needs one, there is a solution in which every
even access has the tag of the first entry and every odd one has the tag zero, so that the
accesses hit and miss in turn and no two neighbours have the same tag. Without entries an
access cannot hit, and the empty disjunction is what is told. More variables are refused.
-/
theorem report_hits_and_misses (r : Request) :
    ((∃ entries, buffer r.entries r.width = .ok entries) ↔
      0 < r.width ∧ r.entries * 2 ^ (r.width / 2) ≤ 2 ^ r.width - 1) ∧
    (∀ e, buffer r.entries r.width = .error e →
      r.report = .failed e.message 1 [s!"args = {r.text}"]) ∧
    ∀ entries, buffer r.entries r.width = .ok entries →
      (entries.map (fun x => (x.name, x.width, x.value?)) = (List.range r.entries).map fun i =>
        (s!"entry{i}", r.width, some (((i + 1) * 2 ^ (r.width / 2) : Nat) : Int))) ∧
      (entries.map Variable.name).Nodup ∧ (entries.map Variable.value?).Nodup ∧
      (∀ x ∈ entries, ∃ v, x.value? = some v ∧ v ≠ 0) ∧
      (r.entries + r.accesses ≤ Index.limit → (r.accesses ≠ 0 → 0 < r.entries) →
        ∃ s, verdict entries (tags r.width r.accesses) = .ok (.sat s) ∧
          (problem entries (tags r.width r.accesses)).holds s = .ok true ∧
          (∀ i < r.accesses, s.get? s!"tag{i}" =
            some ((if i % 2 = 0 then 2 ^ (r.width / 2) else 0 : Nat) : Int)) ∧
          Alternates r.accesses entries s ∧
          r.report = .finished (r.opening entries ++ ["status = Sat"] ++
            (List.range r.accesses).map fun i => "tag" ++ toString i ++ " = 0x" ++
              String.ofList (Nat.toDigits 16 (if i % 2 = 0 then 2 ^ (r.width / 2) else 0)))) ∧
      (r.entries + r.accesses ≤ Index.limit → r.entries = 0 → 0 < r.accesses →
        verdict entries (tags r.width r.accesses) = .ok (.unsat (.clause (.anyOf []))) ∧
          r.report = .finished (r.opening entries ++ ["status = Unsat", "UNSAT: false"])) ∧
      (Index.limit < r.entries + r.accesses → r.report =
        .failed "Variable index 4294967296 is too large" 101 (r.opening entries)) := by
  refine ⟨buffer_isOk_iff, fun e he => ?_, fun entries hentries => ?_⟩
  · rw [Request.report, he]
  obtain ⟨hw, hloaded⟩ := Request.loaded hentries
  refine ⟨hloaded, hloaded.nodup_names, hloaded.nodup_values, fun x hx => ?_,
    fun hlimit hcount => ?_, fun hlimit hcount haccesses => ?_,
    Request.report_of_limit_lt hentries⟩
  · obtain ⟨i, hi⟩ := List.getElem?_of_mem hx
    refine ⟨_, (hloaded.getElem?_eq hi).2.2, fun hzero => ?_⟩
    exact (entryTag_pos r.width i).ne' (Int.ofNat.inj hzero)
  · have hd := hloaded.declares_scope hw r.accesses
    have hverdict := verdict_sat hloaded hw hlimit hcount
    have hs := get?_values hloaded hw hd
    have hsolve := (verdict_eq hloaded hw hlimit).symm.trans hverdict
    obtain ⟨σ, hσ, heq⟩ :=
      (Formula.solve_returns hd (proper_problem hloaded hw hd)).of_eq_ok hsolve
    refine ⟨_, hverdict, heq ▸ hσ.2, hs, hloaded.alternates hs hcount, ?_⟩
    rw [Request.report_of_verdict hentries hverdict]
    exact congrArg (fun lines => Report.finished (_ ++ lines)) (filterMap_tagLine hw hs)
  · have hverdict := verdict_unsat hloaded hw hlimit hcount haccesses
    refine ⟨hverdict, ?_⟩
    rw [Request.report_of_verdict hentries hverdict, List.append_assoc]
    rfl

/-- Accesses to a buffer of two entries and to an empty one, and entries that do not fit. -/
theorem report_hits_and_misses_three :
    (∃ lines, (Request.mk 3 2 4).report = .finished (lines ++ ["status = Sat"] ++
      ["tag0 = 0x4", "tag1 = 0x0", "tag2 = 0x4"])) ∧
    (∃ lines, (Request.mk 1 0 16).report = .finished (lines ++
      ["status = Unsat", "UNSAT: false"])) ∧
    ∃ message lines, (Request.mk 4 3 2).report = .failed message 1 lines := by
  refine ⟨?_, ?_, ?_⟩
  · obtain ⟨hloads, -, hruns⟩ := report_hits_and_misses ⟨3, 2, 4⟩
    obtain ⟨entries, hentries⟩ := hloads.2 (by decide)
    obtain ⟨-, -, -, -, hsat, -⟩ := hruns entries hentries
    obtain ⟨s, -, -, -, -, hreport⟩ := hsat (by decide) (by decide)
    exact ⟨_, hreport⟩
  · obtain ⟨hloads, -, hruns⟩ := report_hits_and_misses ⟨1, 0, 16⟩
    obtain ⟨entries, hentries⟩ := hloads.2 (by decide)
    obtain ⟨-, -, -, -, -, hunsat, -⟩ := hruns entries hentries
    exact ⟨_, (hunsat (by decide) rfl (by decide)).2⟩
  · obtain ⟨hloads, hfails, -⟩ := report_hits_and_misses ⟨4, 3, 2⟩
    cases hbuffer : buffer 3 2 with
    | error e => exact ⟨_, _, hfails e hbuffer⟩
    | ok entries => exact absurd (hloads.1 ⟨entries, hbuffer⟩) (by decide)

/-- An access for every index and an entry to hit, and one entry more than there are indices:
both buffers are loaded, and yet there is no verdict. -/
theorem multitude_of_accesses_refused :
    (∃ entries, buffer 1 16 = .ok entries ∧ (Request.mk 4294967296 1 16).report =
      .failed "Variable index 4294967296 is too large" 101
        ((Request.mk 4294967296 1 16).opening entries)) ∧
    ∃ entries, buffer 4294967297 128 = .ok entries ∧ (Request.mk 0 4294967297 128).report =
      .failed "Variable index 4294967296 is too large" 101
        ((Request.mk 0 4294967297 128).opening entries) := by
  refine ⟨?_, ?_⟩
  · obtain ⟨entries, hentries⟩ :=
      buffer_isOk_iff.2 (show 0 < 16 ∧ 1 * 2 ^ 8 ≤ 2 ^ 16 - 1 by decide)
    exact ⟨entries, hentries,
      @Request.report_of_limit_lt _ ⟨4294967296, 1, 16⟩ hentries (by decide)⟩
  · obtain ⟨entries, hentries⟩ :=
      buffer_isOk_iff.2 (show 0 < 128 ∧ 4294967297 * 2 ^ 64 ≤ 2 ^ 128 - 1 by decide)
    exact ⟨entries, hentries,
      @Request.report_of_limit_lt _ ⟨0, 4294967297, 128⟩ hentries (by decide)⟩

end FiniteDomain.Demo.Aliasing
