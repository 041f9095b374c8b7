/-
LineRegex.Proofs.Budgets — a budget cuts an attempt off and changes no answer.

What an attempt comes to does not depend on its budget; a budget of fewer
steps than that takes only makes it exceed, one step behind the budget. So a
search that gave no position up answers the same with every larger budget.

  §1 Attempts  — `CutExactly`: the answers of one attempt at all budgets.
  §2 Events    — a line without a position given up has the same events
                 with every larger budget.
  §3 Searches  — attempts and searches together.
-/
import LineRegex.Proofs.Scanning
import LineRegex.Proofs.Stopping

namespace LineRegex

/-! ## §1 Attempts -/

/-- The budget only cuts `attempt` off, and the cut is exact: unlimited, it
never exceeds; and an answer that some budget allows, in some number of steps,
is the answer of all budgets from that number on, while every smaller one is
exceeded by one step. -/
def CutExactly {α : Type} (attempt : Nat → Outcome α) : Prop :=
  (attempt unlimitedBudget).verdict ≠ .exceeded ∧
  ∀ budget < unlimitedBudget, (attempt budget).verdict ≠ .exceeded →
    (attempt budget).steps ≤ budget ∧
    (∀ budget', (attempt budget).steps ≤ budget' → attempt budget' = attempt budget) ∧
    ∀ budget', budget' < (attempt budget).steps → attempt budget' = ⟨.exceeded, budget' + 1⟩

namespace Outcome

variable {α : Type} {o : Outcome α} {budget : Nat}

/-- What was not cut off is whole. -/
theorem within_eq_self (h : (o.within budget).verdict ≠ .exceeded) : o.within budget = o := by
  cases hb : outruns budget o.steps with
  | true => exact absurd (by rw [within_of_outruns hb]) h
  | false => exact within_of_not_outruns hb

/-- Within a larger budget the answer is the same. -/
theorem within_eq_of_le {budget' : Nat} (h : (o.within budget).verdict ≠ .exceeded)
    (hle : budget ≤ budget') : o.within budget' = o.within budget := by
  cases hb : outruns budget o.steps with
  | true => exact absurd (by rw [within_of_outruns hb]) h
  | false =>
    have hb' : outruns budget' o.steps = false := by
      rw [outruns_eq_false] at *
      omega
    rw [within_of_not_outruns hb, within_of_not_outruns hb']

end Outcome

/-- One outcome, cut off at every budget, is cut off exactly. -/
theorem cutExactly_of_within {α : Type} {o : Outcome α} (ho : o.verdict ≠ .exceeded)
    {attempt : Nat → Outcome α} (h : ∀ budget, attempt budget = o.within budget) :
    CutExactly attempt := by
  have hself {budget : Nat} (hne : (attempt budget).verdict ≠ .exceeded) :
      attempt budget = o := by
    rw [h] at hne ⊢
    exact Outcome.within_eq_self hne
  constructor
  · rwa [h, Outcome.within_of_not_outruns (outruns_eq_false.mpr (.inl (Nat.le_refl _)))]
  · intro budget hlt hne
    have hsteps : o.steps ≤ budget := by
      by_contra hmore
      refine hne ?_
      rw [h, Outcome.within_of_outruns (outruns_eq_true.mpr ⟨hlt, by omega⟩)]
    rw [hself hne]
    refine ⟨hsteps, fun budget' hle => ?_, fun budget' hless => ?_⟩
    · rw [h, Outcome.within_of_not_outruns (outruns_eq_false.mpr (.inr hle))]
    · rw [h, Outcome.within_of_outruns (outruns_eq_true.mpr ⟨by omega, hless⟩)]

namespace Pattern

/-- An attempt has one outcome, which its budget can only cut off. -/
theorem exists_attempt_eq_within (p : Pattern) (accepts : Endpoint → Bool) (text : Text)
    (start : Nat) :
    ∃ o : Outcome Match, o.verdict ≠ .exceeded ∧
      ∀ budget, p.attempt accepts budget text start = o.within budget := by
  obtain ⟨n, found, h⟩ := p.exists_attemptStops accepts text start
  exact ⟨_, by cases found <;> nofun, h.attempt_eq⟩

theorem cutExactly_attempt (p : Pattern) (accepts : Endpoint → Bool) (text : Text)
    (start : Nat) : CutExactly fun budget => p.attempt accepts budget text start := by
  obtain ⟨o, ho, h⟩ := p.exists_attempt_eq_within accepts text start
  exact cutExactly_of_within ho h

/-- An attempt that did not exceed its budget has the same outcome with a larger one. -/
theorem attempt_eq_of_le {p : Pattern} {accepts : Endpoint → Bool} {text : Text}
    {start budget budget' : Nat} (hle : budget ≤ budget')
    (h : (p.attempt accepts budget text start).verdict ≠ .exceeded) :
    p.attempt accepts budget' text start = p.attempt accepts budget text start := by
  obtain ⟨o, -, ho⟩ := p.exists_attempt_eq_within accepts text start
  rw [ho] at h
  rw [ho, ho, Outcome.within_eq_of_le h hle]

/-! ## §2 Events -/

variable {p : Pattern} {budget budget' : Nat}

/-- Where the scan of a line gives nothing up, a larger budget changes no event. -/
theorem lineEvents_eq_of_le (hle : budget ≤ budget') {line : Text} {cursor : Nat}
    (h : (p.lineEvents budget line cursor).any ScanEvent.isAbandoned = false) :
    p.lineEvents budget' line cursor = p.lineEvents budget line cursor := by
  have hlarger {q : Nat} (hne : (p.matchAt budget line q).verdict ≠ .exceeded) :
      (p.matchAt budget' line q).verdict = (p.matchAt budget line q).verdict :=
    congrArg Outcome.verdict (attempt_eq_of_le hle hne)
  fun_induction lineEvents p budget line cursor with
  | case1 cursor hc => rw [lineEvents_behind hc]
  | case2 cursor hc m hm ih =>
    have hm' := (hlarger (by rw [hm]; nofun)).trans hm
    rw [lineEvents_matched (by omega) hm', ih (by simpa using h)]
  | case3 cursor hc hm ih =>
    have hm' := (hlarger (by rw [hm]; nofun)).trans hm
    rw [lineEvents_failed (by omega) hm', ih h]
  | case4 cursor hc hm ih => simp at h

/-- The same for all lines of a text. -/
theorem events_eq_of_le {o : FindOptions} (hle : o.budget ≤ budget') {text : Text}
    (h : (p.events o text).any ScanEvent.isAbandoned = false) :
    p.events { o with budget := budget' } text = p.events o text := by
  rw [any_isAbandoned_events, List.any_eq_false] at h
  rw [events_eq, events_eq]
  refine List.flatMap_congr fun line hline => ?_
  have hnone := Bool.eq_false_iff.mpr (h line hline)
  exact congrArg (List.map _) (lineEvents_eq_of_le hle hnone)

/-! ## §3 Searches -/

/-- The step budget only cuts off and never changes an answer: the attempts of
`matchAt` and of `fullMatch` are cut off exactly, and a search whose status is
success has the same status and matches with every larger budget. -/
theorem budget_cutsExactly (p : Pattern) (text : Text) (start : Nat) :
    CutExactly (fun budget => p.matchAt budget text start) ∧
    CutExactly (fun budget => p.fullMatch budget text) ∧
    ∀ o : FindOptions, (p.findAll text o).1 = .success → ∀ budget, o.budget ≤ budget →
      p.findAll text { o with budget := budget } = p.findAll text o := by
  refine ⟨p.cutExactly_attempt _ text start, p.cutExactly_attempt _ text 0, ?_⟩
  intro o hsuccess budget hle
  have hnone : (p.events o text).any ScanEvent.isAbandoned = false := by
    by_contra hsome
    rw [findAll_eq_events, if_pos (by simpa using hsome)] at hsuccess
    cases hsuccess
  rw [findAll_eq_events, findAll_eq_events, events_eq_of_le hle hnone]

/-- `(a|ab)c` takes twelve steps on `abc`, no matter how many more it is
allowed, and one step less is too few. -/
theorem shortOrLong_twelveSteps :
    (shortOrLong.matchAt 100 "abc" 0).verdict ≠ .exceeded ∧
      shortOrLong.matchAt 12 "abc" 0 = shortOrLong.matchAt 100 "abc" 0 ∧
      shortOrLong.matchAt 11 "abc" 0 = ⟨.exceeded, 12⟩ ∧
      (shortOrLong.findAll "abc" { budget := 12 }).1 = .success ∧
      shortOrLong.findAll "abc" { budget := unlimitedBudget } =
        shortOrLong.findAll "abc" { budget := 12 } := by
  have hsteps : (shortOrLong.matchAt 100 "abc" 0).steps = 12 := by cbv
  have hverdict : (shortOrLong.matchAt 100 "abc" 0).verdict ≠ .exceeded := by
    have : (shortOrLong.matchAt 100 "abc" 0).verdict =
        .matched ⟨"abc", 0, ⟨0, 3⟩, #[some ⟨0, 2⟩], []⟩ := by cbv
    simp [this]
  have hsuccess : (shortOrLong.findAll "abc" { budget := 12 }).1 = .success := by cbv
  obtain ⟨⟨-, hcut⟩, -, hsearch⟩ := shortOrLong.budget_cutsExactly "abc" 0
  obtain ⟨-, henough, htooFew⟩ := hcut 100 (by decide) hverdict
  exact ⟨hverdict, henough 12 (Nat.le_of_eq hsteps),
    htooFew 11 (Nat.lt_of_lt_of_eq (by decide : 11 < 12) hsteps.symm), hsuccess,
    hsearch _ hsuccess unlimitedBudget (by decide)⟩

end Pattern

end LineRegex
