import FiniteDomain.Proofs.IndexSetMembers
import Mathlib

/-!
# Index sets word by word

A bitmap can be read without asking for any index. `Scan` walks along its words: it
reports the lowest bit of the word it has come to, clears that bit, and goes on to the
next word when nothing is left. What it reports, one member after the other, is the
enumeration of the set; the number of members is the number of bits that are set.

That the scan agrees with the enumeration comes down to one fact about binary numbers:
taking one off a number changes its lowest set bit and the zeros below it and nothing
above, so the digits that both numbers have are those of the number without that bit.
-/

namespace FiniteDomain

namespace IndexSet

variable {s : IndexSet} {w : UInt64} {i k z : Nat}

/-! ## The lowest bit of a word -/

/-- The places of the bits that are set, from the lowest up. -/
def places (w : UInt64) : List Nat := (List.range 64).filter fun b => w.toNat.testBit b

/-- How many zeros there are below the lowest bit that is set. -/
def zerosBelow (w : UInt64) : Nat :=
  ((List.range 64).find? fun b => w.toNat.testBit b).getD 64

/-- The word without its lowest bit. -/
def clearLowest (w : UInt64) : UInt64 := w &&& (w - 1)

theorem mem_places : i ∈ places w ↔ i < 64 ∧ w.toNat.testBit i = true := by
  rw [places, List.mem_filter, List.mem_range]

theorem pairwise_places (w : UInt64) : (places w).Pairwise (· < ·) :=
  List.pairwise_lt_range.filter _

/-- Taking one off a number clears its lowest set bit and sets those below. -/
theorem testBit_and_pred {n : Nat} (hz : n.testBit z = true) (hlow : ∀ b < z, n.testBit b = false)
    (b : Nat) : (n &&& (n - 1)).testBit b = (n.testBit b && decide (b ≠ z)) := by
  obtain ⟨m, rfl⟩ : ∃ m, n = 2 ^ z * (2 * m + 1) := by
    have hdvd : 2 ^ z ∣ n := by
      refine Nat.dvd_of_mod_eq_zero (Nat.eq_of_testBit_eq fun b => ?_)
      rw [Nat.testBit_mod_two_pow, Nat.zero_testBit]
      rcases Nat.lt_or_ge b z with hb | hb
      · simp [hlow b hb]
      · simp [Nat.not_lt.2 hb]
    obtain ⟨q, rfl⟩ := hdvd
    rw [Nat.testBit_two_pow_mul] at hz
    simp only [ge_iff_le, Nat.le_refl, decide_true, Bool.true_and, Nat.sub_self,
      Nat.testBit_zero, decide_eq_true_eq] at hz
    exact ⟨q / 2, by rw [show 2 * (q / 2) + 1 = q by omega]⟩
  have hpos : 0 < 2 ^ z := Nat.two_pow_pos z
  have hpred : 2 ^ z * (2 * m + 1) - 1 = 2 ^ z * (2 * m) + (2 ^ z - 1) := by
    rw [Nat.mul_add, Nat.mul_one]
    omega
  rw [Nat.testBit_and, hpred, Nat.testBit_two_pow_mul_add _ (by omega), Nat.testBit_two_pow_mul]
  rcases Nat.lt_trichotomy b z with hb | rfl | hb
  · simp [hb, Nat.not_le.2 hb]
  · simp
  · obtain ⟨c, rfl⟩ : ∃ c, b = z + (c + 1) := ⟨b - z - 1, by omega⟩
    have hhalf : (2 * m + 1) / 2 = m := by omega
    simp [Nat.testBit_succ, hhalf]

theorem toNat_clearLowest (h : w ≠ 0) : (clearLowest w).toNat = w.toNat &&& (w.toNat - 1) := by
  have hpos : 1 ≤ w.toNat := Nat.one_le_iff_ne_zero.2 fun hzero => h (UInt64.toNat_inj.1 hzero)
  have hone : (1 : UInt64) ≤ w := UInt64.le_iff_toNat_le.2 hpos
  rw [clearLowest, UInt64.toNat_and, UInt64.toNat_sub_of_le _ _ hone]
  rfl

theorem places_zero : places 0 = [] := by simp [places]

/-- The lowest bit comes first, and clearing it leaves the others. -/
theorem places_eq_cons (h : w ≠ 0) : places w = zerosBelow w :: places (clearLowest w) := by
  obtain ⟨z, hfind⟩ : ∃ z, (List.range 64).find? (fun b => w.toNat.testBit b) = some z := by
    rw [← Option.isSome_iff_exists, List.find?_isSome]
    obtain ⟨b, hb⟩ := Nat.exists_testBit_of_ne_zero fun hzero => h (UInt64.toNat_inj.1 hzero)
    refine ⟨b, List.mem_range.2 ?_, hb⟩
    by_contra hle
    rw [Nat.testBit_lt_two_pow (w.toNat_lt.trans_le (Nat.pow_le_pow_right (by decide) (by omega)))]
      at hb
    cases hb
  obtain ⟨hz, hlt, hlow⟩ := List.find?_range_eq_some.1 hfind
  have hbelow : ∀ b < z, w.toNat.testBit b = false := fun b hb => by simpa using hlow b hb
  have hcleared : ∀ b, b ∈ places (clearLowest w) ↔ b ∈ places w ∧ b ≠ z := by
    intro b
    rw [mem_places, mem_places, toNat_clearLowest h, testBit_and_pred hz hbelow]
    simp [and_assoc]
  rw [show zerosBelow w = z by rw [zerosBelow, hfind, Option.getD_some]]
  refine (pairwise_places w).eq_of_mem_iff (List.pairwise_cons.2 ⟨?_, pairwise_places _⟩) ?_
  · intro b hb
    obtain ⟨hb, hne⟩ := (hcleared b).1 hb
    by_contra hle
    rw [mem_places, hbelow b (by omega)] at hb
    exact Bool.false_ne_true hb.2
  · intro b
    rw [List.mem_cons, hcleared]
    by_cases hbz : b = z
    · subst hbz
      simp [mem_places, hz, List.mem_range.1 hlt]
    · simp [hbz]

theorem clearLowest_lt (h : w ≠ 0) : (clearLowest w).toNat < w.toNat := by
  have hpos : 0 < w.toNat := Nat.pos_of_ne_zero fun hzero => h (UInt64.toNat_inj.1 hzero)
  have hle : w.toNat &&& (w.toNat - 1) ≤ w.toNat - 1 := Nat.and_le_right
  rw [toNat_clearLowest h]
  omega

/-! ## The enumeration, word by word -/

/-- The members in word `k`, and in the words from `k` on. -/
def wordMembers (k : Nat) (w : UInt64) : List Nat := (places w).map (64 * k + ·)

def membersFrom (s : IndexSet) (k : Nat) : List Nat :=
  (List.range' k (s.words.size - k)).flatMap fun l => wordMembers l (s.words.getD l 0)

theorem mem_wordMembers : i ∈ wordMembers k w ↔ i / 64 = k ∧ w.toNat.testBit (i % 64) = true := by
  simp only [wordMembers, List.mem_map, mem_places]
  refine ⟨?_, ?_⟩
  · intro h
    obtain ⟨b, ⟨hb, hbit⟩, rfl⟩ := h
    rw [show (64 * k + b) % 64 = b by omega]
    exact ⟨by omega, hbit⟩
  · intro h
    obtain ⟨rfl, hbit⟩ := h
    exact ⟨i % 64, ⟨Nat.mod_lt _ (by decide), hbit⟩, by omega⟩

theorem inWord_eq (s : IndexSet) (k : Nat) :
    s.inWord k = wordMembers k (s.words.getD k 0) := by
  refine (pairwise_inWord s k).eq_of_mem_iff ?_ ?_
  · exact (pairwise_places _).map _ fun a b hab => by omega
  · intro i
    rw [mem_inWord, mem_wordMembers, contains_eq]
    refine ⟨?_, ?_⟩
    · intro h
      obtain ⟨h, rfl⟩ := h
      exact ⟨rfl, h⟩
    · intro h
      obtain ⟨rfl, h⟩ := h
      exact ⟨h, rfl⟩

theorem collect_eq (s : IndexSet) (n : Nat) (later : List Nat) :
    s.collect n later =
      ((List.range n).flatMap fun k => wordMembers k (s.words.getD k 0)) ++ later := by
  induction n generalizing later with
  | zero => rfl
  | succ n ih =>
      rw [collect, ih, inWord_eq, List.range_succ, List.flatMap_append, List.append_assoc]
      simp

theorem toList_eq_membersFrom (s : IndexSet) : s.toList = s.membersFrom 0 := by
  rw [toList, collect_eq, List.append_nil, membersFrom, Nat.sub_zero, List.range_eq_range']

/-- As many bits are set in all words together as there are members. -/
theorem length_toList_eq (s : IndexSet) :
    s.toList.length = (s.words.toList.map fun w => (places w).length).sum := by
  have hwords : s.words.toList = (List.range s.words.size).map fun k => s.words.getD k 0 := by
    refine List.ext_getElem (by simp) fun k hk hk' => ?_
    have hk : k < s.words.size := by simpa using hk
    simp [Array.getD_eq_getD_getElem?, hk]
  rw [toList, collect_eq, List.append_nil, List.length_flatMap, hwords, List.map_map]
  simp [wordMembers, Function.comp_def]

/-! ## The scan -/

/-- A place in a bitmap: the number of a word, and the bits of it that are still ahead. -/
structure Scan where
  place : Nat
  ahead : UInt64

/-- The scan at the first word. -/
def Scan.start (s : IndexSet) : Scan := ⟨0, s.words.getD 0 0⟩

/-- The next member and the place behind it. Words without bits are passed over. -/
def Scan.next (s : IndexSet) (c : Scan) : Option (Nat × Scan) :=
  if c.ahead ≠ 0 then
    some (64 * c.place + zerosBelow c.ahead, ⟨c.place, clearLowest c.ahead⟩)
  else if c.place + 1 < s.words.size then
    next s ⟨c.place + 1, s.words.getD (c.place + 1) 0⟩
  else none
termination_by s.words.size - c.place

/-- Does a scan report these members, one after the other, and then nothing? -/
inductive Scan.Yields (s : IndexSet) : Scan → List Nat → Prop where
  | done {c : Scan} (h : c.next s = none) : Yields s c []
  | step {c c' : Scan} {i : Nat} {is : List Nat} (h : c.next s = some (i, c'))
      (h' : Yields s c' is) : Yields s c (i :: is)

/-- What a scan reports depends on its place only through what comes next. -/
theorem Scan.Yields.of_next_eq {c c' : Scan} {is : List Nat} (h : c'.Yields s is)
    (heq : c.next s = c'.next s) : c.Yields s is := by
  cases h with
  | done h => exact .done (heq.trans h)
  | step h h' => exact .step (heq.trans h) h'

/-- A scan that has come to word `k` reports what is left of it and the members behind. -/
theorem Scan.yields_from (s : IndexSet) (k : Nat) (w : UInt64) :
    Yields s ⟨k, w⟩ (wordMembers k w ++ s.membersFrom (k + 1)) := by
  by_cases hw : w = 0
  · subst hw
    rw [wordMembers, places_zero, List.map_nil, List.nil_append]
    by_cases hk : k + 1 < s.words.size
    · have hlist : s.membersFrom (k + 1) =
          wordMembers (k + 1) (s.words.getD (k + 1) 0) ++ s.membersFrom (k + 1 + 1) := by
        rw [membersFrom, show s.words.size - (k + 1) = s.words.size - (k + 1 + 1) + 1 by omega,
          List.range'_succ, List.flatMap_cons, membersFrom]
      rw [hlist]
      refine (yields_from s (k + 1) _).of_next_eq ?_
      rw [next]
      simp [hk]
    · rw [membersFrom, show s.words.size - (k + 1) = 0 by omega]
      refine .done ?_
      rw [next]
      simp [hk]
  · rw [wordMembers, places_eq_cons hw, List.map_cons, List.cons_append]
    refine .step ?_ (yields_from s k (clearLowest w))
    rw [next, if_pos hw]
termination_by (s.words.size - k, w.toNat)
decreasing_by
  · exact Prod.Lex.left _ _ (by omega)
  · exact Prod.Lex.right _ (clearLowest_lt hw)

/-- A scan from the start reports the enumeration of the set. -/
theorem Scan.yields_toList (s : IndexSet) : (Scan.start s).Yields s s.toList := by
  have hscan := yields_from s 0 (s.words.getD 0 0)
  rw [toList_eq_membersFrom, start]
  rcases Nat.eq_zero_or_pos s.words.size with hsize | hsize
  · have hnil : s.words.getD 0 0 = 0 := by simp [Array.getD_eq_getD_getElem?, hsize]
    rw [hnil, wordMembers, places_zero, membersFrom, hsize] at hscan
    rwa [hnil, membersFrom, hsize]
  · rwa [membersFrom, show s.words.size - 0 = s.words.size - (0 + 1) + 1 by omega,
      List.range'_succ, List.flatMap_cons]

end IndexSet

end FiniteDomain
