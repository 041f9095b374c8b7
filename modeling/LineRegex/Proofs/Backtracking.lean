/-
LineRegex.Proofs.Backtracking — an attempt finds the first outcome of its tree.

The machine explores, one step after another, what `Expr.outcomes` lists. The
link is the list of outcomes that a stack of threads has still to come to: a
piece of work leaves this list as it is, and a rest takes its head off.

  §1 Work      — the outcomes of work, alone and in sequence.
  §2 Effects   — an item has the outcomes of what it pushes, then those of
                 what it leaves behind as the alternative.
  §3 Turns     — one turn of the machine.
  §4 Runs      — by induction on the turns, what a whole run comes to.
  §5 Attempts  — `matchAt` and `fullMatch`.
-/
import Mathlib
import LineRegex.Matcher.Attempt
import LineRegex.Proofs.Outcomes

namespace LineRegex

open LineRegex.Expr (outcomes outcomesInTurn outcomesOfAny)

/-! ## §1 Work -/

/-- The outcomes of one item of work. -/
def Work.outcomes (text : Text) : Work → Endpoint → List Endpoint
  | visit r, s => r.outcomes text s
  | close g start, s => [s.capture g start]
  | iterate body bounds count, s => repetitions text (body.outcomes text) bounds count s
  | iterated body bounds count start, s =>
    if s.cursor = start ∧ bounds.min < count then [s]
    else repetitions text (body.outcomes text) bounds count s
  | branch first others, s => outcomesOfAny text (first :: others) s

/-- The outcomes of items of work one after another. -/
def workOutcomes (text : Text) : List Work → Endpoint → List Endpoint
  | [], s => [s]
  | w :: ws, s => (w.outcomes text s).flatMap (workOutcomes text ws)

theorem workOutcomes_append (text : Text) (ws vs : List Work) (s : Endpoint) :
    workOutcomes text (ws ++ vs) s = (workOutcomes text ws s).flatMap (workOutcomes text vs) := by
  induction ws generalizing s with
  | nil => simp [workOutcomes]
  | cons w ws ih =>
    rw [List.cons_append, workOutcomes, workOutcomes, List.flatMap_assoc]
    exact List.flatMap_congr fun t _ => ih t

theorem workOutcomes_visit (text : Text) (rs : List Regex) (s : Endpoint) :
    workOutcomes text (rs.map .visit) s = outcomesInTurn text rs s := by
  induction rs generalizing s with
  | nil => rfl
  | cons r rs ih =>
    rw [List.map_cons, workOutcomes, outcomesInTurn, Work.outcomes]
    exact List.flatMap_congr fun t _ => ih t

/-! ## §2 Effects -/

/-- The outcomes after an effect: of the work it pushes, then of the work it
leaves behind. -/
def Effect.outcomes (text : Text) (e : Effect) (s : Endpoint) : List Endpoint :=
  workOutcomes text e.push ⟨e.cursor, e.captured s.captures⟩ ++
    (e.fork.map fun work => workOutcomes text work s).getD []

/-- The outcomes after an item of work took effect, or none when it failed. -/
def effectOutcomes (text : Text) (effect : Option Effect) (s : Endpoint) : List Endpoint :=
  (effect.map fun e => e.outcomes text s).getD []

theorem oneUnit_eq_effect (text : Text) (accepts : CodeUnit → Bool) (s : Endpoint) :
    oneUnit text accepts s = effectOutcomes text (consumeIf accepts text s.cursor) s := by
  unfold oneUnit consumeIf
  cases text[s.cursor]? with
  | none => rfl
  | some u => by_cases hu : accepts u <;>
      simp [hu, effectOutcomes, Effect.outcomes, workOutcomes, Effect.captured]

theorem proceedIf_outcomes (text : Text) (p : Prop) [Decidable p] (b : Bool) (h : b = true ↔ p)
    (s : Endpoint) : (if p then [s] else []) = effectOutcomes text (proceedIf b s.cursor) s := by
  unfold proceedIf
  by_cases hp : p
  · simp [hp, h.mpr hp, effectOutcomes, Effect.outcomes, workOutcomes, Effect.captured]
  · have hb : b = false := by simpa [hp] using h
    simp [hp, hb, effectOutcomes]

/-- Cutting out as many units as `captured` has gives `captured` exactly if
it comes next. -/
theorem extract_eq_captured_iff (text captured : Text) (cursor : Nat) :
    text.extract cursor (cursor + captured.size) = captured ↔
      captured.toList <+: text.toList.drop cursor := by
  rw [← Array.toList_inj, Array.toList_extract, List.extract_eq_take_drop,
    List.prefix_iff_eq_take, Nat.add_sub_cancel_left, Array.length_toList]
  exact eq_comm

theorem sameUnits_eq_effect (text captured : Text) (s : Endpoint) :
    sameUnits text captured s = effectOutcomes text (consumeText captured text s.cursor) s := by
  unfold sameUnits consumeText
  by_cases h : captured.toList <+: text.toList.drop s.cursor
  · rw [if_pos h, if_pos ((extract_eq_captured_iff text captured s.cursor).mpr h)]
    simp [effectOutcomes, Effect.outcomes, workOutcomes, Effect.captured]
  · rw [if_neg h, if_neg (mt (extract_eq_captured_iff text captured s.cursor).mp h)]
    rfl

theorem outcomesOfAny_eq_effect (text : Text) (first : Regex) (others : List Regex)
    (s : Endpoint) :
    outcomesOfAny text (first :: others) s = (tryBranch first others s.cursor).outcomes text s := by
  cases others with
  | nil => simp [outcomesOfAny, tryBranch, Effect.outcomes, workOutcomes, Work.outcomes,
      Effect.captured]
  | cons next others => simp [outcomesOfAny, tryBranch, Effect.outcomes, workOutcomes,
      Work.outcomes, Effect.captured]

/-- Matching a tree: one case per constructor. -/
theorem outcomes_eq_visitEffect (text : Text) (r : Regex) (s : Endpoint) :
    r.outcomes text s =
      effectOutcomes text (Work.visitEffect text s.cursor s.captures r) s := by
  cases r with
  | unit u => exact oneUnit_eq_effect text _ s
  | charClass c => exact oneUnit_eq_effect text _ s
  | any => exact oneUnit_eq_effect text _ s
  | anchor a =>
    cases a with
    | lineStart => exact proceedIf_outcomes text _ _ (by simp) s
    | lineEnd => exact proceedIf_outcomes text _ _ (by simp) s
  | group index body =>
    cases index with
    | none => simp [outcomes, Work.visitEffect, effectOutcomes, Effect.outcomes, workOutcomes,
        Work.outcomes, Effect.captured]
    | some g =>
      simp [outcomes, Work.visitEffect, effectOutcomes, Effect.outcomes, workOutcomes,
        Work.outcomes, Effect.captured, List.map_eq_flatMap]
  | backreference g =>
    simp only [outcomes, Work.visitEffect]
    cases s.captures.span g with
    | none => rfl
    | some captured => exact sameUnits_eq_effect text _ s
  | concat items =>
    simp [outcomes, Work.visitEffect, effectOutcomes, Effect.outcomes, workOutcomes_visit,
      Effect.captured]
  | alternation branches =>
    cases branches with
    | nil => rfl
    | cons first others => exact outcomesOfAny_eq_effect text first others s
  | quantified body bounds =>
    simp [outcomes, Work.visitEffect, effectOutcomes, Effect.outcomes, workOutcomes,
      Work.outcomes, Effect.captured]

/-- Deciding about another repetition. -/
theorem repetitions_eq_iterateEffect (text : Text) (body : Regex) (bounds : Bounds) (count : Nat)
    (s : Endpoint) :
    repetitions text (body.outcomes text) bounds count s =
      (Work.iterateEffect s.cursor body bounds count).outcomes text s := by
  rw [Expr.repetitions_eq]
  unfold Work.iterateEffect
  by_cases hreached : bounds.isReached count
  · simp [hreached, Effect.outcomes, workOutcomes, Effect.captured]
  · by_cases hmin : bounds.min ≤ count
    · simp [hreached, hmin, Effect.outcomes, workOutcomes, Work.outcomes, Effect.captured]
    · simp [hreached, hmin, Effect.outcomes, workOutcomes, Work.outcomes, Effect.captured]

/-- Every item of work has the outcomes of its effect. -/
theorem Work.outcomes_eq_effect (text : Text) (w : Work) (s : Endpoint) :
    w.outcomes text s = effectOutcomes text (w.effect text s.cursor s.captures) s := by
  cases w with
  | visit r => exact outcomes_eq_visitEffect text r s
  | close g start => simp [outcomes, effect, effectOutcomes, Effect.outcomes, workOutcomes,
      Effect.captured, Endpoint.capture]
  | iterate body bounds count => exact repetitions_eq_iterateEffect text body bounds count s
  | iterated body bounds count start =>
    simp only [outcomes, effect, iteratedEffect, effectOutcomes, Option.map_some, Option.getD_some]
    by_cases hstop : s.cursor = start ∧ bounds.min < count
    · obtain ⟨rfl, hlt⟩ := hstop
      simp [hlt, Effect.outcomes, workOutcomes, Effect.captured]
    · simp [hstop, Effect.outcomes, workOutcomes, Effect.captured, outcomes]
  | branch first others => exact outcomesOfAny_eq_effect text first others s

/-! ## §3 Turns -/

/-- The outcomes of a thread: of all its work, from where it stands. -/
def Thread.outcomes (text : Text) (t : Thread) : List Endpoint :=
  workOutcomes text t.work ⟨t.cursor, t.captures⟩

namespace ThreadStack

/-- The outcomes a stack has still to come to: those of the running thread,
then those of the pending ones. -/
def outcomes (text : Text) (s : ThreadStack) : List Endpoint :=
  s.running.outcomes text ++ s.pending.flatMap (Thread.outcomes text)

/-- The outcomes of what resumes, if anything does. -/
theorem outcomes_resume (text : Text) (pending : List Thread) :
    ((resume? pending).map (outcomes text)).getD [] =
      pending.flatMap (Thread.outcomes text) := by
  cases pending with
  | nil => rfl
  | cons t pending => simp [resume?, outcomes]

/-- The stack after an effect has the outcomes of the effect in front. -/
theorem outcomes_after (text : Text) (s : ThreadStack) (rest : List Work) (e : Effect) :
    (s.after rest e).outcomes text =
      (e.outcomes text ⟨s.running.cursor, s.running.captures⟩).flatMap (workOutcomes text rest) ++
        s.pending.flatMap (Thread.outcomes text) := by
  unfold outcomes after Thread.after Thread.alternative? Thread.outcomes Effect.outcomes
  cases e.fork with
  | none => simp [workOutcomes_append]
  | some work => simp [workOutcomes_append, List.append_assoc]

/-- The outcomes that remain after a turn, the endpoint of a rest in front. -/
def outcomesOfTurn (text : Text) : Turn ThreadStack → List Endpoint
  | .rest e retry => e :: (retry.map (outcomes text)).getD []
  | .work next => (next.map (outcomes text)).getD []

/-- A turn neither loses an outcome nor adds one. -/
theorem outcomes_turn (text : Text) (s : ThreadStack) :
    s.outcomes text = outcomesOfTurn text (s.turn text) := by
  obtain ⟨⟨work, cursor, captures⟩, pending⟩ := s
  cases work with
  | nil =>
    simp only [turn, outcomesOfTurn, outcomes_resume]
    rfl
  | cons w rest =>
    have hw : w.outcomes text ⟨cursor, captures⟩ =
        effectOutcomes text (w.effect text cursor captures) ⟨cursor, captures⟩ :=
      w.outcomes_eq_effect text ⟨cursor, captures⟩
    simp only [turn]
    cases he : w.effect text cursor captures with
    | none =>
      simp only [outcomesOfTurn, outcomes_resume]
      simp [outcomes, Thread.outcomes, workOutcomes, hw, he, effectOutcomes]
    | some e =>
      simp only [outcomesOfTurn, Option.map_some, Option.getD_some, outcomes_after]
      simp [outcomes, Thread.outcomes, workOutcomes, hw, he, effectOutcomes]

end ThreadStack

/-! ## §4 Runs -/

/-- The verdict of having found something, or nothing. -/
def Verdict.ofOption {α : Type} : Option α → Verdict α
  | some a => .matched a
  | none => .failed

theorem Verdict.ofOption_eq_matched_iff {α : Type} {o : Option α} {a : α} :
    Verdict.ofOption o = .matched a ↔ o = some a := by
  cases o <;> simp [ofOption]

theorem Verdict.map_ofOption {α β : Type} (f : α → β) (o : Option α) :
    (Verdict.ofOption o).map f = .ofOption (o.map f) := by
  cases o <;> rfl

/-- A run that keeps to its budget finds the first accepted outcome. -/
theorem ThreadStack.verdict_run (text : Text) (accepts : Endpoint → Bool) (budget : Nat)
    (s : Ending (turn text)) (steps : Nat) :
    (run (turn text) accepts budget s steps).verdict = .exceeded ∨
      (run (turn text) accepts budget s steps).verdict =
        .ofOption ((s.val.outcomes text).find? accepts) := by
  obtain ⟨s, hs⟩ := s
  induction hs generalizing steps with
  | intro s hacc ih =>
    have hout : s.outcomes text = outcomesOfTurn text (s.turn text) := outcomes_turn text s
    rw [hout]
    cases hturn : s.turn text with
    | rest e retry =>
      cases ha : accepts e with
      | true => rw [run_accepted hturn ha]; simp [outcomesOfTurn, ha, Verdict.ofOption]
      | false =>
        cases retry with
        | none =>
          rw [run_rest_none hturn ha]
          simp [outcomesOfTurn, ha, Verdict.ofOption]
        | some t =>
          have ht : Follows (turn text) t s := by rw [Follows, hturn, Turn.next?]
          rw [run_rest_some hturn ha ht]
          simpa [outcomesOfTurn, ha] using ih t ht steps
    | work next =>
      cases hb : exceedsBudget budget (steps + 1) with
      | true => rw [run_work_exceeded hturn hb]; exact .inl rfl
      | false =>
        cases next with
        | none =>
          rw [run_work_none hturn hb]
          simp [outcomesOfTurn, Verdict.ofOption]
        | some t =>
          have ht : Follows (turn text) t s := by rw [Follows, hturn, Turn.next?]
          rw [run_work_some hturn hb ht]
          simpa [outcomesOfTurn] using ih t ht (steps + 1)

/-! ## §5 Attempts -/

namespace Pattern

/-- The outcomes of a pattern that begins at a position, with all groups unset. -/
def outcomes (p : Pattern) (text : Text) (start : Nat) : List Endpoint :=
  p.root.outcomes text ⟨start, Captures.unset p.groupCount⟩

/-- The compact machine runs as the stack of threads does. -/
theorem endpoints_eq_run (p : Pattern) (accepts : Endpoint → Bool) (budget : Nat) (text : Text)
    (start : Nat) :
    p.endpoints accepts budget text start =
      run (ThreadStack.turn text) accepts budget
        ⟨⟨⟨[.visit p.root], start, Captures.unset p.groupCount⟩, []⟩, ThreadStack.ending text _⟩
        0 :=
  (Compact.simulates text).run_eq accepts budget
    (s := ⟨_, Compact.ending text p.root start (Captures.unset p.groupCount)⟩)
    (t := ⟨_, ThreadStack.ending text _⟩)
    (Compact.represents_initial p.root start (Captures.unset p.groupCount)) 0

/-- The compact machine finds what the stack of threads finds. -/
theorem verdict_endpoints (p : Pattern) (accepts : Endpoint → Bool) (budget : Nat) (text : Text)
    (start : Nat) :
    (p.endpoints accepts budget text start).verdict = .exceeded ∨
      (p.endpoints accepts budget text start).verdict =
        .ofOption ((p.outcomes text start).find? accepts) := by
  have hout : p.outcomes text start =
      ThreadStack.outcomes text ⟨⟨[.visit p.root], start, .unset p.groupCount⟩, []⟩ := by
    simp [outcomes, ThreadStack.outcomes, Thread.outcomes, workOutcomes, Work.outcomes]
  rw [endpoints_eq_run, hout]
  exact ThreadStack.verdict_run text accepts budget _ 0

/-- An attempt within its budget hands out the first accepted outcome as a match. -/
theorem verdict_attempt (p : Pattern) (accepts : Endpoint → Bool) (budget : Nat) {text : Text}
    {start : Nat} (hstart : start ≤ text.size) :
    (p.attempt accepts budget text start).verdict = .exceeded ∨
      (p.attempt accepts budget text start).verdict =
        .ofOption (((p.outcomes text start).find? accepts).map (p.matchTo text start)) := by
  rw [attempt, if_neg (by omega), Outcome.map]
  rcases p.verdict_endpoints accepts budget text start with h | h
  · left; rw [h]; rfl
  · right
    rw [h, Verdict.map_ofOption]

/-- The explicit stack computes the ordered backtracking semantics: whenever
the budget suffices, `matchAt` yields the first outcome of the tree, and
`fullMatch` the first one that ends with the text. -/
theorem matchAt_fullMatch_eq_first_outcome (p : Pattern) (budget : Nat) (text : Text)
    (start : Nat) (hstart : start ≤ text.size) :
    ((p.matchAt budget text start).verdict ≠ .exceeded →
      (p.matchAt budget text start).verdict =
        .ofOption ((p.outcomes text start).head?.map (p.matchTo text start))) ∧
    ((p.fullMatch budget text).verdict ≠ .exceeded →
      (p.fullMatch budget text).verdict =
        .ofOption
          (((p.outcomes text 0).find? (·.cursor == text.size)).map (p.matchTo text 0))) := by
  constructor
  · intro hne
    have h := (p.verdict_attempt (fun _ => true) budget hstart).resolve_left hne
    rw [matchAt, h]
    cases p.outcomes text start with
    | nil => rfl
    | cons e es => simp
  · intro hne
    exact (p.verdict_attempt (·.cursor == text.size) budget (Nat.zero_le _)).resolve_left hne

/-- `(a|ab)c`, which gives its first branch up on `abc`. -/
def shortOrLong : Pattern where
  root := .concat [.group (some 1) (.alternation [.unit 97, .concat [.unit 97, .unit 98]]),
    .unit 99]
  groupCount := 1
  names := []

theorem matchAt_shortOrLong :
    0 ≤ Array.size #[97, 98, 99] ∧
    (shortOrLong.matchAt 100 #[97, 98, 99] 0).verdict ≠ .exceeded ∧
    (shortOrLong.matchAt 100 #[97, 98, 99] 0).verdict =
      .ofOption ((shortOrLong.outcomes #[97, 98, 99] 0).head?.map
        (shortOrLong.matchTo #[97, 98, 99] 0)) := by
  have hmatch : (shortOrLong.matchAt 100 #[97, 98, 99] 0).verdict =
      .matched ⟨#[97, 98, 99], 0, ⟨0, 3⟩, #[some ⟨0, 2⟩], []⟩ := by cbv
  have hne : (shortOrLong.matchAt 100 #[97, 98, 99] 0).verdict ≠ .exceeded := by
    simp [hmatch]
  have hfirst := matchAt_fullMatch_eq_first_outcome shortOrLong 100 #[97, 98, 99] 0 (Nat.zero_le _)
  exact ⟨Nat.zero_le _, hne, hfirst.1 hne⟩

end Pattern

end LineRegex
