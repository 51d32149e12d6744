import FiniteDomain.Proofs.Returning
import FiniteDomain.Solve.Search
import Mathlib

/-!
# A budget cuts a search short and does nothing else

Two runs of a search that differ in their budget alone go through the same networks in
the same order, until the one with a budget has spent it. The statement is about one
run without a budget that comes to a verdict after so many values, whatever network it
was started on, and about the run beside it: with a budget that covers these values it
comes to the same verdict after as many, and with a smaller one it ends without an
answer. What makes the induction go through is that the count never falls, so that a
budget which is spent in a branch does not cover the whole search either.

The count belongs to the whole search and not to a branch of it: it goes into every
branch and comes back out.
-/

namespace FiniteDomain

variable {settings : Settings} {mode : Mode} {b : Nat} {r : Verdict × Nat}

/-- The same settings with another budget. -/
def Settings.withBudget (settings : Settings) (budget : Option Nat) : Settings :=
  { settings with budget }

theorem Settings.affords_withBudget_none (settings : Settings) (tried : Nat) :
    (settings.withBudget none).affords tried = true :=
  rfl

theorem Settings.affords_withBudget_some (settings : Settings) (b tried : Nat) :
    (settings.withBudget (some b)).affords tried = true ↔ tried ≤ b :=
  decide_eq_true_iff

/-- What a budget of `b` values makes of a search that would end with `r`. -/
def Truncated (b : Nat) (r : Verdict × Nat) (x : Except Fault (Verdict × Nat)) : Prop :=
  (r.2 ≤ b → x = .ok r) ∧ (b < r.2 → ∃ pairs tried, x = .ok (.unknown pairs, tried))

theorem Truncated.of_le {x : Except Fault (Verdict × Nat)} (h : x = .ok r) (hle : r.2 ≤ b) :
    Truncated b r x :=
  ⟨fun _ => h, fun hlt => absurd hle (Nat.not_le_of_lt hlt)⟩

theorem Truncated.of_lt {x : Except Fault (Verdict × Nat)} {pairs : List (String × String)}
    {tried : Nat} (h : x = .ok (.unknown pairs, tried)) (hlt : b < r.2) : Truncated b r x :=
  ⟨fun hle => absurd hle (Nat.not_le_of_lt hlt), fun _ => ⟨pairs, tried, h⟩⟩

/-- An answer that is found without trying values leaves the count as it is. -/
theorem snd_eq_of_pair {x : Traced Verdict} {tried : Nat}
    (h : (x >>= fun verdict => pure (verdict, tried)).outcome = .ok r) : r.2 = tried := by
  obtain ⟨verdict, -, hr⟩ := Traced.outcome_bind_eq_ok.1 h
  cases hr
  rfl

namespace Network

variable {net : Network} {x : Nat}

/-! ## The count never falls -/

/-- What a branch has found is final unless it is a refutation. -/
theorem tryValues_cons {deeper : Network → Nat → Traced (Verdict × Nat)} {v : Int} {vs : List Int}
    {tried : Nat} (haffords : settings.affords (tried + 1) = true) :
    (tryValues settings deeper net x (v :: vs) tried).outcome =
      (deeper (net.pin x v) (tried + 1)).outcome.bind fun found =>
        match found with
        | (.unsat _, tried) => (tryValues settings deeper net x vs tried).outcome
        | found => .ok found := by
  rw [tryValues]
  simp only [haffords, if_true, Traced.outcome_bind, Traced.outcome_note]
  refine congrArg (Except.bind (deeper (net.pin x v) (tried + 1)).outcome) (funext fun found => ?_)
  obtain ⟨verdict, tried'⟩ := found
  cases verdict <;> rfl

theorem tryValues_cons_spent {deeper : Network → Nat → Traced (Verdict × Nat)} {v : Int}
    {vs : List Int} {tried : Nat} (hspent : ¬settings.affords (tried + 1) = true) :
    (tryValues settings deeper net x (v :: vs) tried).outcome =
      .ok (.unknown net.differences, tried + 1) := by
  rw [tryValues]
  simp only [hspent]
  rfl

theorem tryValues_le {deeper : Network → Nat → Traced (Verdict × Nat)}
    (hdeeper : ∀ {net tried r}, (deeper net tried).outcome = .ok r → tried ≤ r.2) {vs : List Int} :
    ∀ {tried}, (tryValues settings deeper net x vs tried).outcome = .ok r → tried ≤ r.2 := by
  induction vs with
  | nil =>
      intro tried h
      exact (snd_eq_of_pair h).ge
  | cons v vs ih =>
      intro tried h
      by_cases haffords : settings.affords (tried + 1) = true
      · rw [tryValues_cons haffords] at h
        cases hfound : (deeper (net.pin x v) (tried + 1)).outcome with
        | error fault =>
            rw [hfound] at h
            cases h
        | ok found =>
            have hle := hdeeper hfound
            rw [hfound] at h
            obtain ⟨verdict, tried'⟩ := found
            cases verdict with
            | unsat cause =>
                have hrest : tried' ≤ r.2 := ih h
                omega
            | sat s =>
                cases h
                omega
            | unknown pairs =>
                cases h
                omega
      · rw [tryValues_cons_spent haffords] at h
        cases h
        exact Nat.le_succ tried

theorem search_le {depth : Nat} :
    ∀ {net tried r}, (search settings mode depth net tried).outcome = .ok r → tried ≤ r.2 := by
  induction depth with
  | zero =>
      intro net tried r h
      cases h
  | succ depth ih =>
      intro net tried r h
      rw [search] at h
      split at h
      · exact (snd_eq_of_pair h).ge
      · obtain ⟨phase, -, h⟩ := Traced.outcome_bind_eq_ok.1 h
        cases phase with
        | stuck mid cause => exact (snd_eq_of_pair h).ge
        | passed mid =>
            simp only [] at h
            split at h
            · obtain ⟨-, -, h⟩ := Traced.outcome_bind_eq_ok.1 h
              exact (snd_eq_of_pair h).ge
            · obtain ⟨-, -, h⟩ := Traced.outcome_bind_eq_ok.1 h
              exact tryValues_le ih h

/-! ## Two runs side by side -/

/-- One more value is tried in both runs, or the budget is spent on it. -/
theorem tryValues_truncated {free spent : Network → Nat → Traced (Verdict × Nat)}
    (hle : ∀ {net tried r}, (free net tried).outcome = .ok r → tried ≤ r.2)
    (hdeeper : ∀ {net tried r}, tried ≤ b → (free net tried).outcome = .ok r →
      Truncated b r (spent net tried).outcome) {vs : List Int} :
    ∀ {tried}, tried ≤ b →
      (tryValues (settings.withBudget none) free net x vs tried).outcome = .ok r →
      Truncated b r (tryValues (settings.withBudget (some b)) spent net x vs tried).outcome := by
  induction vs with
  | nil =>
      intro tried hb h
      exact Truncated.of_le h ((snd_eq_of_pair h).le.trans hb)
  | cons v vs ih =>
      intro tried hb h
      rw [tryValues_cons (settings.affords_withBudget_none _)] at h
      cases hfound : (free (net.pin x v) (tried + 1)).outcome with
      | error fault =>
          rw [hfound] at h
          cases h
      | ok found =>
          rw [hfound] at h
          obtain ⟨verdict, tried'⟩ := found
          have hcount : tried + 1 ≤ tried' := hle hfound
          -- What comes after this value can only add to the count.
          have htotal : tried' ≤ r.2 := by
            cases verdict with
            | unsat cause => exact tryValues_le hle h
            | sat s =>
                cases h
                exact Nat.le_refl _
            | unknown pairs =>
                cases h
                exact Nat.le_refl _
          by_cases haffords : tried + 1 ≤ b
          · rw [tryValues_cons ((settings.affords_withBudget_some b _).2 haffords)]
            obtain ⟨hsame, hcut⟩ := hdeeper haffords hfound
            rcases Nat.lt_or_ge b tried' with hlt | hge
            · obtain ⟨pairs, n, hspent⟩ := hcut hlt
              rw [hspent]
              exact Truncated.of_lt rfl (Nat.lt_of_lt_of_le hlt htotal)
            · rw [hsame hge]
              cases verdict with
              | unsat cause => exact ih hge h
              | sat s =>
                  cases h
                  exact Truncated.of_le rfl hge
              | unknown pairs =>
                  cases h
                  exact Truncated.of_le rfl hge
          · rw [tryValues_cons_spent (mt (settings.affords_withBudget_some b _).1 haffords)]
            exact Truncated.of_lt rfl (by omega)

/--
A search that comes to a verdict without a budget comes to the same one with a budget
that covers the values it tries, and to none with a smaller budget.
-/
theorem search_truncated {depth : Nat} :
    ∀ {net tried r}, tried ≤ b →
      (search (settings.withBudget none) mode depth net tried).outcome = .ok r →
      Truncated b r (search (settings.withBudget (some b)) mode depth net tried).outcome := by
  induction depth with
  | zero =>
      intro net tried r _ h
      cases h
  | succ depth ih =>
      intro net tried r hb h
      -- An answer at this level is found in the same way in both runs.
      have hanswer : ∀ {x : Traced Verdict},
          (x >>= fun verdict => pure (verdict, tried)).outcome = .ok r →
            Truncated b r (x >>= fun verdict => pure (verdict, tried)).outcome :=
        fun hx => Truncated.of_le hx ((snd_eq_of_pair hx).le.trans hb)
      rw [search] at h ⊢
      split at h
      · next hedgeless =>
          rw [if_pos hedgeless]
          exact hanswer h
      · next hedges =>
          rw [if_neg hedges, Traced.outcome_bind]
          obtain ⟨phase, hphase, h⟩ := Traced.outcome_bind_eq_ok.1 h
          rw [hphase]
          cases phase with
          | stuck mid cause => exact hanswer h
          | passed mid =>
              simp only [Except.bind] at h ⊢
              split at h
              · obtain ⟨-, -, h⟩ := Traced.outcome_bind_eq_ok.1 h
                exact hanswer h
              · obtain ⟨-, -, h⟩ := Traced.outcome_bind_eq_ok.1 h
                exact tryValues_truncated search_le ih hb h

end Network

end FiniteDomain
