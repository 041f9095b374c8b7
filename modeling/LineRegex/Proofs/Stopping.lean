/-
LineRegex.Proofs.Stopping — every attempt ends, with or without a budget.

The course of a machine is what its turns come to when nothing counts them:
how many items of work are done, and where the machine then stops. Every
attempt has such a course, and a budget does no more than cut it off.

  §1 Courses   — `Stops`, by induction on the turns, and along a map of the states.
  §2 Runs      — a run is its course, cut off where the budget ends.
  §3 Attempts  — `matchAt` and `fullMatch` stop by themselves.
-/
import LineRegex.Pattern.Parser
import LineRegex.Proofs.Backtracking

namespace LineRegex

/-! ## §1 Courses -/

section Courses

variable {σ : Type}

/-- `Stops turn accepts s n found`: with no budget to check, the loop that is
in the state `s` does `n` more items of work and then stops by itself, at the
accepted endpoint `found` or, with no alternative left, at none. -/
inductive Stops (turn : σ → Turn σ) (accepts : Endpoint → Bool) :
    σ → Nat → Option Endpoint → Prop where
  | accepted {s : σ} {e : Endpoint} {retry : Option σ} (h : turn s = .rest e retry)
      (ha : accepts e = true) : Stops turn accepts s 0 (some e)
  | refused {s : σ} {e : Endpoint} (h : turn s = .rest e none) (ha : accepts e = false) :
      Stops turn accepts s 0 none
  | retried {s t : σ} {e : Endpoint} {n : Nat} {found : Option Endpoint}
      (h : turn s = .rest e (some t)) (ha : accepts e = false)
      (ht : Stops turn accepts t n found) : Stops turn accepts s n found
  | failed {s : σ} (h : turn s = .work none) : Stops turn accepts s 1 none
  | worked {s t : σ} {n : Nat} {found : Option Endpoint} (h : turn s = .work (some t))
      (ht : Stops turn accepts t n found) : Stops turn accepts s (n + 1) found

variable {turn : σ → Turn σ} {accepts : Endpoint → Bool}

/-- Where every sequence of turns ends, the loop stops. -/
theorem Stops.exists_of_acc (accepts : Endpoint → Bool) {s : σ} (hs : Acc (Follows turn) s) :
    ∃ n found, Stops turn accepts s n found := by
  induction hs with
  | intro s _ ih =>
    cases hturn : turn s with
    | rest e retry =>
      cases ha : accepts e with
      | true => exact ⟨0, some e, .accepted hturn ha⟩
      | false =>
        cases retry with
        | none => exact ⟨0, none, .refused hturn ha⟩
        | some t =>
          obtain ⟨n, found, ht⟩ := ih t (by rw [Follows, hturn, Turn.next?])
          exact ⟨n, found, .retried hturn ha ht⟩
    | work next =>
      cases next with
      | none => exact ⟨1, none, .failed hturn⟩
      | some t =>
        obtain ⟨n, found, ht⟩ := ih t (by rw [Follows, hturn, Turn.next?])
        exact ⟨n + 1, found, .worked hturn ht⟩

end Courses

/-- The turn with `f` applied to the states and `g` to the endpoint. -/
def Turn.map {σ τ : Type} (f : σ → τ) (g : Endpoint → Endpoint) : Turn σ → Turn τ
  | rest e retry => rest (g e) (retry.map f)
  | work next => work (next.map f)

/-- Where turns go together with a map of the states, so do courses. -/
theorem Stops.map {σ τ : Type} {turn : σ → Turn σ} {turn' : τ → Turn τ}
    {accepts accepts' : Endpoint → Bool} {f : σ → τ} {g : Endpoint → Endpoint} {Inv : σ → Prop}
    (hinv : ∀ s t, Inv s → Follows turn t s → Inv t)
    (hturn : ∀ s, Inv s → turn' (f s) = (turn s).map f g)
    (haccepts : ∀ e, accepts' (g e) = accepts e) {s : σ} {n : Nat} {found : Option Endpoint}
    (h : Stops turn accepts s n found) (hs : Inv s) :
    Stops turn' accepts' (f s) n (found.map g) := by
  have hsame := hturn _ hs
  induction h with
  | accepted h ha =>
    rw [h] at hsame
    exact .accepted hsame ((haccepts _).trans ha)
  | refused h ha =>
    rw [h] at hsame
    exact .refused hsame ((haccepts _).trans ha)
  | retried h ha _ ih =>
    rw [h] at hsame
    have ht := hinv _ _ hs (by rw [Follows, h, Turn.next?])
    exact .retried hsame ((haccepts _).trans ha) (ih ht (hturn _ ht))
  | failed h =>
    rw [h] at hsame
    exact .failed hsame
  | worked h _ ih =>
    rw [h] at hsame
    have ht := hinv _ _ hs (by rw [Follows, h, Turn.next?])
    exact .worked hsame (ih ht (hturn _ ht))

/-! ## §2 Runs -/

/-- Whether a number of steps is more than a budget allows. The largest budget allows any. -/
def outruns (budget steps : Nat) : Bool := budget < unlimitedBudget && budget < steps

theorem outruns_eq_true {budget steps : Nat} :
    outruns budget steps = true ↔ budget < unlimitedBudget ∧ budget < steps := by
  simp [outruns]

theorem outruns_eq_false {budget steps : Nat} :
    outruns budget steps = false ↔ unlimitedBudget ≤ budget ∨ steps ≤ budget := by
  rw [← Bool.not_eq_true, outruns_eq_true]
  omega

theorem outruns_zero (budget : Nat) : outruns budget 0 = false :=
  outruns_eq_false.mpr (.inr (Nat.zero_le budget))

/-- The first step too many is the one behind the budget. -/
theorem eq_budget_of_outruns_succ {budget steps : Nat} (hsteps : outruns budget steps = false)
    (hsucc : outruns budget (steps + 1) = true) : steps = budget := by
  rw [outruns_eq_false] at hsteps
  rw [outruns_eq_true] at hsucc
  omega

theorem outruns_mono {budget steps steps' : Nat} (hle : steps ≤ steps')
    (h : outruns budget steps = true) : outruns budget steps' = true := by
  rw [outruns_eq_true] at *
  omega

/-- As long as the budget has allowed all steps, the counter tells whether it allows one more:
either it has not wrapped around yet, or nothing that it can show exceeds the budget. -/
theorem exceedsBudget_succ {budget steps : Nat} (h : outruns budget steps = false) :
    exceedsBudget budget (steps + 1) = outruns budget (steps + 1) := by
  rw [outruns_eq_false] at h
  rw [Bool.eq_iff_iff, outruns_eq_true, exceedsBudget, decide_eq_true_eq]
  unfold unlimitedBudget UInt64.size at *
  omega

/-- What remains of an outcome when its steps are limited to a budget. -/
def Outcome.within {α : Type} (budget : Nat) (o : Outcome α) : Outcome α :=
  if outruns budget o.steps then ⟨.exceeded, budget + 1⟩ else o

namespace Outcome

variable {α : Type} {o : Outcome α} {budget : Nat}

theorem within_of_outruns (h : outruns budget o.steps = true) :
    o.within budget = ⟨.exceeded, budget + 1⟩ := if_pos h

theorem within_of_not_outruns (h : outruns budget o.steps = false) :
    o.within budget = o := by
  rw [within, h]
  rfl

theorem map_within {β : Type} (f : α → β) (o : Outcome α) (budget : Nat) :
    (o.within budget).map f = (o.map f).within budget := by
  have hsteps : (o.map f).steps = o.steps := rfl
  rw [within, within, hsteps]
  split <;> rfl

end Outcome

/-- A run is its course, cut off where the budget ends. -/
theorem Stops.run_eq {σ : Type} {turn : σ → Turn σ} {accepts : Endpoint → Bool} {s : σ} {n : Nat}
    {found : Option Endpoint} (h : Stops turn accepts s n found) (hs : Acc (Follows turn) s)
    {budget steps : Nat} (hbudget : outruns budget steps = false) :
    run turn accepts budget ⟨s, hs⟩ steps =
      Outcome.within budget ⟨.ofOption found, steps + n⟩ := by
  induction h generalizing steps with
  | accepted hturn ha => rw [run_accepted hturn ha, Outcome.within_of_not_outruns hbudget]; rfl
  | refused hturn ha => rw [run_rest_none hturn ha, Outcome.within_of_not_outruns hbudget]; rfl
  | retried hturn ha _ ih =>
    rw [run_rest_some hturn ha (by rw [Follows, hturn, Turn.next?])]
    exact ih _ hbudget
  | failed hturn =>
    have hcounter := exceedsBudget_succ hbudget
    cases hnext : outruns budget (steps + 1) with
    | true =>
      rw [run_work_exceeded hturn (hcounter.trans hnext), Outcome.within_of_outruns hnext,
        eq_budget_of_outruns_succ hbudget hnext]
    | false =>
      rw [run_work_none hturn (hcounter.trans hnext), Outcome.within_of_not_outruns hnext]; rfl
  | @worked _ _ n _ hturn _ ih =>
    have hcounter := exceedsBudget_succ hbudget
    cases hnext : outruns budget (steps + 1) with
    | true =>
      have hend : outruns budget (steps + (n + 1)) = true := outruns_mono (by omega) hnext
      rw [run_work_exceeded hturn (hcounter.trans hnext), Outcome.within_of_outruns hend,
        eq_budget_of_outruns_succ hbudget hnext]
    | false =>
      rw [run_work_some hturn (hcounter.trans hnext) (by rw [Follows, hturn, Turn.next?]),
        ih _ hnext, Nat.add_right_comm steps 1 n, Nat.add_assoc steps n 1]

/-! ## §3 Attempts -/

namespace Pattern

/-- The course of an attempt: what its loop comes to when no budget is
checked. Behind the end of the text there is no loop. -/
def AttemptStops (p : Pattern) (accepts : Endpoint → Bool) (text : Text) (start n : Nat)
    (found : Option Endpoint) : Prop :=
  if text.size < start then n = 0 ∧ found = none
  else
    Stops (Compact.turn text) accepts (.initial p.root start (.unset p.groupCount)) n found

theorem exists_attemptStops (p : Pattern) (accepts : Endpoint → Bool) (text : Text)
    (start : Nat) : ∃ n found, p.AttemptStops accepts text start n found := by
  unfold AttemptStops
  split
  · exact ⟨0, none, rfl, rfl⟩
  · exact Stops.exists_of_acc accepts (Compact.ending text p.root start (.unset p.groupCount))

/-- An attempt is its course, cut off where the budget ends. -/
theorem AttemptStops.attempt_eq {p : Pattern} {accepts : Endpoint → Bool} {text : Text}
    {start n : Nat} {found : Option Endpoint} (h : p.AttemptStops accepts text start n found)
    (budget : Nat) :
    p.attempt accepts budget text start =
      Outcome.within budget ⟨.ofOption (found.map (p.matchTo text start)), n⟩ := by
  have hnone := outruns_zero budget
  unfold AttemptStops at h
  unfold attempt
  split at h
  · rename_i hbehind
    obtain ⟨rfl, rfl⟩ := h
    rw [if_pos hbehind, Outcome.within_of_not_outruns hnone]
    rfl
  · rename_i hwithin
    rw [if_neg hwithin, endpoints, h.run_eq _ hnone, Nat.zero_add, Outcome.map_within,
      Outcome.map, Verdict.map_ofOption]

/-- An attempt is also the course of the stack of threads, cut off where the budget ends. -/
theorem attempt_eq_of_stops {p : Pattern} {accepts : Endpoint → Bool} {text : Text} {start : Nat}
    (hstart : start ≤ text.size) {n : Nat} {found : Option Endpoint}
    (h : Stops (ThreadStack.turn text) accepts
      ⟨⟨[.visit p.root], start, .unset p.groupCount⟩, []⟩ n found) (budget : Nat) :
    p.attempt accepts budget text start =
      Outcome.within budget ⟨.ofOption (found.map (p.matchTo text start)), n⟩ := by
  rw [attempt, if_neg (by omega), endpoints_eq_run, h.run_eq _ (outruns_zero budget),
    Nat.zero_add, Outcome.map_within, Outcome.map, Verdict.map_ofOption]

/-- Every attempt ends without a budget: the loop of `matchAt`, and likewise
that of `fullMatch`, stops by itself after finitely many items of work, with a
match or with none, and that is the answer whenever the budget allows as many. -/
theorem matchAt_fullMatch_stop (p : Pattern) (text : Text) (start : Nat) :
    (∃ n found, p.AttemptStops (fun _ => true) text start n found ∧
      ∀ budget, n ≤ budget ∨ unlimitedBudget ≤ budget →
        p.matchAt budget text start = ⟨.ofOption (found.map (p.matchTo text start)), n⟩) ∧
    ∃ n found, p.AttemptStops (·.cursor == text.size) text 0 n found ∧
      ∀ budget, n ≤ budget ∨ unlimitedBudget ≤ budget →
        p.fullMatch budget text = ⟨.ofOption (found.map (p.matchTo text 0)), n⟩ := by
  constructor
  · obtain ⟨n, found, h⟩ := p.exists_attemptStops (fun _ => true) text start
    refine ⟨n, found, h, fun budget hn => ?_⟩
    rw [matchAt, h.attempt_eq, Outcome.within_of_not_outruns (outruns_eq_false.mpr hn.symm)]
  · obtain ⟨n, found, h⟩ := p.exists_attemptStops (·.cursor == text.size) text 0
    refine ⟨n, found, h, fun budget hn => ?_⟩
    rw [fullMatch, h.attempt_eq,
      Outcome.within_of_not_outruns (outruns_eq_false.mpr hn.symm)]

/-- `(?:(|a)*)*`: unbounded repetitions of a body that prefers the empty text,
inside unbounded repetitions. -/
def emptyRounds : Pattern where
  root := .quantified (.group none (.quantified
    (.group (some 1) (.alternation [.concat [], .unit 97])) ⟨0, none⟩)) ⟨0, none⟩
  groupCount := 1
  names := []

/-- Against the whole of `a` its loop stops after 32 items of work. -/
theorem attemptStops_emptyRounds :
    parse .narrow "(?:(|a)*)*" = .ok emptyRounds ∧
      ∃ found, emptyRounds.AttemptStops (·.cursor == 1) #[97] 0 32 found := by
  have hparse : parse .narrow "(?:(|a)*)*" = .ok emptyRounds := by cbv
  have hsteps : (emptyRounds.fullMatch unlimitedBudget #[97]).steps = 32 := by cbv
  obtain ⟨n, found, hstops, hanswer⟩ := (emptyRounds.matchAt_fullMatch_stop #[97] 0).2
  rw [hanswer unlimitedBudget (.inr (Nat.le_refl _))] at hsteps
  obtain rfl : n = 32 := hsteps
  exact ⟨hparse, found, hstops⟩

end Pattern

end LineRegex
