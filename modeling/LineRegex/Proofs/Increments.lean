/-
LineRegex.Proofs.Increments — ranges that are driven step by step.

Whoever goes through a range begins it, and then reads the current match and
increments the range as long as there is one. `RunsTo` says what such a loop
sees and where it leaves the range; `drain` and `take` are that loop, run to
the end and stopped after a number of matches.

  §1 Runs    — every range runs to its end, in one way.
  §2 Counts  — the first matches of a range, and the increments they take.
-/
import Mathlib.Logic.Function.Iterate
import LineRegex.MatchRange

namespace LineRegex.MatchRange

/-! ## §1 Runs -/

/-- Incrementing the range as long as it has a match shows the matches and
leaves the range at its end. -/
inductive RunsTo : MatchRange → List Match → MatchRange → Prop where
  | atEnd {r : MatchRange} (h : r.current = none) : RunsTo r [] r
  | next {r e : MatchRange} {m : Match} {ms : List Match} (h : r.current = some m)
      (rest : RunsTo r.advance ms e) : RunsTo r (m :: ms) e

theorem runsTo_drain (r : MatchRange) : r.RunsTo r.drain.1 r.drain.2 := by
  fun_induction drain r with
  | case1 r hnone => exact .atEnd hnone
  | case2 r m hm ms e hdrain ih =>
    rw [hdrain] at ih
    exact .next hm ih

/-- What the loop sees and where it ends is decided by the range. -/
theorem RunsTo.unique {r e e' : MatchRange} {ms ms' : List Match} (h : r.RunsTo ms e)
    (h' : r.RunsTo ms' e') : ms = ms' ∧ e = e' := by
  induction h generalizing ms' e' with
  | atEnd hnone =>
    cases h' with
    | atEnd => exact ⟨rfl, rfl⟩
    | next hm => rw [hnone] at hm; cases hm
  | next hm _ ih =>
    cases h' with
    | atEnd hnone => rw [hm] at hnone; cases hnone
    | next hm' hrest =>
      obtain rfl := Option.some.inj (hm.symm.trans hm')
      obtain ⟨rfl, rfl⟩ := ih hrest
      exact ⟨rfl, rfl⟩

/-! ## §2 Counts -/

/-- Taking matches is draining, stopped after that many increments. -/
theorem RunsTo.take_eq {r e : MatchRange} {ms : List Match} (h : r.RunsTo ms e) (count : Nat) :
    r.take count = (ms.take count, advance^[min count ms.length] r) := by
  induction h generalizing count with
  | atEnd hnone => cases count <;> simp [take, hnone]
  | next hm _ ih =>
    cases count with
    | zero => simp [take]
    | succ count =>
      simp [take, hm, ih count, Nat.succ_min_succ]

end LineRegex.MatchRange
