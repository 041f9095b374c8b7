/-
LineRegex.Matcher.Machine — running a machine to its verdict, within a budget.

A machine takes turns. At a turn it either rests, with nothing left to do,
or it does one piece of work. A rest that is not accepted goes on with the
alternative, if the machine has one. Only work costs a step.

  §1 Turns        — `Turn`, and the relation `Follows` of successive states.
  §2 Budgets      — when a number of steps exceeds a budget, as it is counted.
  §3 Runs         — `run`, defined wherever successive states must end.
  §4 Simulations  — a machine that follows another turn by turn ends when
                    the other one does, with the same verdict and steps.
-/
import LineRegex.Matcher.Work

namespace LineRegex

/-! ## §1 Turns -/

/-- Where the work of an attempt ended. -/
structure Endpoint where
  cursor : Nat
  captures : Captures
  deriving DecidableEq, Repr

/-- One turn of a machine with states `σ`. -/
inductive Turn (σ : Type) where
  /-- No work is left; `retry` is the state to go on with if the endpoint is
  not accepted. -/
  | rest (endpoint : Endpoint) (retry : Option σ)
  /-- One item of work is done; `next` is absent when it failed and no
  alternative is left. -/
  | work (next : Option σ)

/-- The state that comes after a turn, if one does. -/
def Turn.next? {σ : Type} : Turn σ → Option σ
  | rest _ retry => retry
  | work next => next

/-- `Follows turn t s`: the state `t` comes right after the state `s`. -/
def Follows {σ : Type} (turn : σ → Turn σ) (t s : σ) : Prop := (turn s).next? = some t

/-! ## §2 Budgets -/

/-- The largest number that a counter of steps can show. -/
def unlimitedBudget : Nat := UInt64.size - 1

/-- Whether the counter of steps shows more than a budget allows. It has 64 bits, and
wraps around. -/
def exceedsBudget (budget steps : Nat) : Bool := budget < steps % UInt64.size

/-! ## §3 Runs -/

/-- How an attempt ended. -/
inductive Verdict (α : Type) where
  | matched (a : α)
  | failed
  /-- The steps exceeded the budget. -/
  | exceeded
  deriving DecidableEq, Repr

/-- Replaces what a success holds. -/
def Verdict.map {α β : Type} (f : α → β) : Verdict α → Verdict β
  | matched a => matched (f a)
  | failed => failed
  | exceeded => exceeded

/-- A verdict, and the number of steps spent on it, as it is without wrapping around. -/
structure Outcome (α : Type) where
  verdict : Verdict α
  steps : Nat
  deriving DecidableEq, Repr

/-- States from which every sequence of turns ends. -/
abbrev Ending {σ : Type} (turn : σ → Turn σ) : Type := { s : σ // Acc (Follows turn) s }

/-- Among states from which every sequence of turns ends, the relation of
successive states is well founded. -/
instance {σ : Type} (turn : σ → Turn σ) : WellFoundedRelation (Ending turn) where
  rel t s := Follows turn t.val s.val
  wf := ⟨fun ⟨s, h⟩ => by
    induction h with
    | intro s _ ih => exact ⟨_, fun t ht => ih t.val ht⟩⟩

/-- Runs a machine from a state from which every sequence of turns ends,
with `steps` already spent. -/
def run {σ : Type} (turn : σ → Turn σ) (accepts : Endpoint → Bool) (budget : Nat)
    (s : Ending turn) (steps : Nat) : Outcome Endpoint :=
  match h : turn s.val with
  | .rest e retry =>
    if accepts e then ⟨.matched e, steps⟩
    else
      match retry with
      | none => ⟨.failed, steps⟩
      | some t =>
        have ht : Follows turn t s.val := by rw [Follows, h, Turn.next?]
        run turn accepts budget ⟨t, s.property.inv ht⟩ steps
  | .work next =>
    if exceedsBudget budget (steps + 1) then ⟨.exceeded, steps + 1⟩
    else
      match next with
      | none => ⟨.failed, steps + 1⟩
      | some t =>
        have ht : Follows turn t s.val := by rw [Follows, h, Turn.next?]
        run turn accepts budget ⟨t, s.property.inv ht⟩ (steps + 1)
termination_by s
decreasing_by all_goals exact ht

/-! One equation for each kind of turn, so that a proof about `run` never
unfolds its recursion. -/

section Equations

variable {σ : Type} {turn : σ → Turn σ} {accepts : Endpoint → Bool} {budget steps : Nat}
  {s : Ending turn} {e : Endpoint} {t : σ}

theorem run_accepted {retry : Option σ} (h : turn s.val = .rest e retry) (ha : accepts e = true) :
    run turn accepts budget s steps = ⟨.matched e, steps⟩ := by
  rw [run]
  split
  · rename_i hs; rw [h] at hs; cases hs; simp [ha]
  · rename_i hs; rw [h] at hs; cases hs

theorem run_rest_none (h : turn s.val = .rest e none) (ha : accepts e = false) :
    run turn accepts budget s steps = ⟨.failed, steps⟩ := by
  rw [run]
  split
  · rename_i hs; rw [h] at hs; cases hs; simp [ha]
  · rename_i hs; rw [h] at hs; cases hs

theorem run_rest_some (h : turn s.val = .rest e (some t)) (ha : accepts e = false)
    (ht : Follows turn t s.val) :
    run turn accepts budget s steps =
      run turn accepts budget ⟨t, s.property.inv ht⟩ steps := by
  rw [run]
  split
  · rename_i hs; rw [h] at hs; cases hs; simp [ha]
  · rename_i hs; rw [h] at hs; cases hs

theorem run_work_exceeded {next : Option σ} (h : turn s.val = .work next)
    (hb : exceedsBudget budget (steps + 1) = true) :
    run turn accepts budget s steps = ⟨.exceeded, steps + 1⟩ := by
  rw [run]
  split
  · rename_i hs; rw [h] at hs; cases hs
  · rename_i hs; rw [h] at hs; cases hs; simp [hb]

theorem run_work_none (h : turn s.val = .work none)
    (hb : exceedsBudget budget (steps + 1) = false) :
    run turn accepts budget s steps = ⟨.failed, steps + 1⟩ := by
  rw [run]
  split
  · rename_i hs; rw [h] at hs; cases hs
  · rename_i hs; rw [h] at hs; cases hs; simp [hb]

theorem run_work_some (h : turn s.val = .work (some t))
    (hb : exceedsBudget budget (steps + 1) = false) (ht : Follows turn t s.val) :
    run turn accepts budget s steps =
      run turn accepts budget ⟨t, s.property.inv ht⟩ (steps + 1) := by
  rw [run]
  split
  · rename_i hs; rw [h] at hs; cases hs
  · rename_i hs; rw [h] at hs; cases hs; simp [hb]

end Equations

/-! ## §4 Simulations -/

/-- Two turns of the same kind, with the same endpoint, that lead to related
states or both to none. -/
inductive Turn.Similar {σ τ : Type} (R : σ → τ → Prop) : Turn σ → Turn τ → Prop where
  | restNone (e : Endpoint) : Similar R (.rest e none) (.rest e none)
  | restSome (e : Endpoint) {s : σ} {t : τ} (h : R s t) :
      Similar R (.rest e (some s)) (.rest e (some t))
  | workNone : Similar R (.work none) (.work none)
  | workSome {s : σ} {t : τ} (h : R s t) : Similar R (.work (some s)) (.work (some t))

/-- Related states take similar turns. -/
def Simulates {σ τ : Type} (turn : σ → Turn σ) (turn' : τ → Turn τ) (R : σ → τ → Prop) : Prop :=
  ∀ s t, R s t → (turn s).Similar R (turn' t)

section Simulation

variable {σ τ : Type} {turn : σ → Turn σ} {turn' : τ → Turn τ} {R : σ → τ → Prop}

/-- A successor of a state is matched by a successor of a related state. -/
theorem Simulates.follows (hR : Simulates turn turn' R) {s u : σ} {t : τ} (h : R s t)
    (hu : Follows turn u s) : ∃ v, Follows turn' v t ∧ R u v := by
  have hs := hR s t h
  unfold Follows at *
  generalize turn s = a at hs hu
  generalize turn' t = b at hs
  cases hs with
  | restNone e => simp [Turn.next?] at hu
  | restSome e hst => simp [Turn.next?] at hu; subst hu; exact ⟨_, rfl, hst⟩
  | workNone => simp [Turn.next?] at hu
  | workSome hst => simp [Turn.next?] at hu; subst hu; exact ⟨_, rfl, hst⟩

/-- If every sequence of turns from a state ends, so does every one from a
state related to it. -/
theorem Simulates.acc (hR : Simulates turn turn' R) {t : τ} (ht : Acc (Follows turn') t) :
    ∀ {s : σ}, R s t → Acc (Follows turn) s := by
  induction ht with
  | intro t _ ih =>
    intro s hs
    refine ⟨_, fun u hu => ?_⟩
    obtain ⟨v, hv, huv⟩ := hR.follows hs hu
    exact ih v hv huv

/-- Related states run to the same outcome. -/
theorem Simulates.run_eq (hR : Simulates turn turn' R) (accepts : Endpoint → Bool) (budget : Nat)
    {s : Ending turn} {t : Ending turn'} (h : R s.val t.val) (steps : Nat) :
    run turn accepts budget s steps = run turn' accepts budget t steps := by
  obtain ⟨t, ht⟩ := t
  induction ht generalizing s steps with
  | intro t htacc ih =>
    have hst := hR s.val t h
    generalize hs : turn s.val = a at hst
    generalize ht : turn' t = b at hst
    cases hst with
    | restNone e =>
      cases ha : accepts e with
      | true => rw [run_accepted hs ha, run_accepted (s := ⟨t, _⟩) ht ha]
      | false => rw [run_rest_none hs ha, run_rest_none (s := ⟨t, _⟩) ht ha]
    | restSome e huv =>
      cases ha : accepts e with
      | true => rw [run_accepted hs ha, run_accepted (s := ⟨t, _⟩) ht ha]
      | false =>
        rw [run_rest_some hs ha (by rw [Follows, hs, Turn.next?]),
          run_rest_some (s := ⟨t, _⟩) ht ha (by rw [Follows, ht, Turn.next?])]
        exact ih _ (by rw [Follows, ht, Turn.next?]) steps huv
    | workNone =>
      cases hb : exceedsBudget budget (steps + 1) with
      | true => rw [run_work_exceeded hs hb, run_work_exceeded (s := ⟨t, _⟩) ht hb]
      | false => rw [run_work_none hs hb, run_work_none (s := ⟨t, _⟩) ht hb]
    | workSome huv =>
      cases hb : exceedsBudget budget (steps + 1) with
      | true => rw [run_work_exceeded hs hb, run_work_exceeded (s := ⟨t, _⟩) ht hb]
      | false =>
        rw [run_work_some hs hb (by rw [Follows, hs, Turn.next?]),
          run_work_some (s := ⟨t, _⟩) ht hb (by rw [Follows, ht, Turn.next?])]
        exact ih _ (by rw [Follows, ht, Turn.next?]) (steps + 1) huv

end Simulation

end LineRegex
