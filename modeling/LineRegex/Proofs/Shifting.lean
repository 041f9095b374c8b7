/-
LineRegex.Proofs.Shifting — matching from further right on a line.

Positions are kept in the cursor, in work, in captures and in every alternative,
and are compared with each other and with the end of the line. Only `^` asks for
a position as such. So, if the pattern has no `^`, an attempt that begins behind
the first units of a line takes the turns of the attempt on the line without
these units, with every position moved.

  §1 Positions  — cursors, captures, work and effects moved to the right.
  §2 Effects    — what work does on the line and on its rest.
  §3 Turns      — turns on moved stacks of threads.
  §4 Attempts   — by induction on the course of an attempt.
-/
import LineRegex.Proofs.AllWork
import LineRegex.Proofs.Stopping
import LineRegex.Search

namespace LineRegex

/-! ## §1 Positions -/

/-- The tree is not the anchor `^`. -/
def Expr.NotLineStart {ρ : Type} : Expr ρ → Prop
  | anchor .lineStart => False
  | _ => True

/-- The captures with every span moved to the right. -/
def Captures.shift (slots : Captures) (n : Nat) : Captures := slots.map (·.map (·.shift n))

/-- The endpoint with every position moved to the right. -/
def Endpoint.shift (n : Nat) (e : Endpoint) : Endpoint := ⟨e.cursor + n, e.captures.shift n⟩

/-- The item with the position that it remembers moved to the right. -/
def Work.shift (n : Nat) : Work → Work
  | visit r => visit r
  | close group start => close group (start + n)
  | iterate body bounds count => iterate body bounds count
  | iterated body bounds count start => iterated body bounds count (start + n)
  | branch first others => branch first others

/-- The effect with every position moved to the right. -/
def Effect.shift (n : Nat) (e : Effect) : Effect where
  cursor := e.cursor + n
  record := e.record.map fun r => (r.1, r.2.shift n)
  fork := e.fork.map (List.map (Work.shift n))
  push := e.push.map (Work.shift n)

/-- A match of the rest of a line behind its first `n` units, as a match of the line. -/
def Match.shiftInto (line : Text) (n : Nat) (m : Match) : Match :=
  { m with
    subject := line
    whole := m.whole.shift n
    captures := m.captures.shift n }

namespace Captures

theorem shift_unset (groupCount n : Nat) : (unset groupCount).shift n = unset groupCount := by
  simp [shift, unset]

theorem span_shift (slots : Captures) (n group : Nat) :
    (slots.shift n).span group = (slots.span group).map (·.shift n) := by
  cases group with
  | zero => rfl
  | succ g =>
    simp only [span, shift, Array.getElem?_map]
    cases slots[g]? <;> rfl

theorem shift_record (slots : Captures) (n group : Nat) (s : Span) :
    (slots.record group (some s)).shift n = (slots.shift n).record group (some (s.shift n)) := by
  cases group with
  | zero => rfl
  | succ g => simp [record, shift, Array.map_setIfInBounds]

end Captures

theorem Match.spans_shiftInto (line : Text) (n : Nat) (m : Match) :
    (m.shiftInto line n).spans = m.spans.map (·.map (·.shift n)) := by
  simp [spans, shiftInto, Captures.shift]

/-! ## §2 Effects -/

section Effects

variable {line : Text} {n : Nat}

theorem getElem?_rest (text : Text) (n cursor : Nat) :
    text[cursor + n]? = (text.extract n)[cursor]? := by
  rw [Array.getElem?_extract]
  grind

/-- A span of the rest of a line marks the same units on the line. -/
theorem slice_shift_rest (line : Text) (n : Nat) (s : Span) :
    (s.shift n).slice line = s.slice (line.extract n) := by
  simp only [Span.slice, Span.shift, Array.extract_extract]
  grind

theorem consumeIf_shift (accepts : CodeUnit → Bool) (line : Text) (n cursor : Nat) :
    consumeIf accepts line (cursor + n) =
      (consumeIf accepts (line.extract n) cursor).map (Effect.shift n) := by
  unfold consumeIf
  rw [getElem?_rest]
  cases (line.extract n)[cursor]? with
  | none => rfl
  | some u => by_cases hu : accepts u <;> simp [hu, Effect.shift, Nat.add_right_comm]

theorem consumeText_shift (captured line : Text) (n cursor : Nat) :
    consumeText captured line (cursor + n) =
      (consumeText captured (line.extract n) cursor).map (Effect.shift n) := by
  have hslice := slice_shift_rest line n ⟨cursor, cursor + captured.size⟩
  simp only [Span.slice, Span.shift] at hslice
  unfold consumeText
  rw [Nat.add_right_comm, hslice]
  split <;> simp [Effect.shift, Nat.add_right_comm]

theorem tryBranch_shift (first : Regex) (others : List Regex) (n cursor : Nat) :
    tryBranch first others (cursor + n) = (tryBranch first others cursor).shift n := by
  cases others <;> rfl

namespace Work

/-- Matching a tree without `^` has the same effect, moved. -/
theorem visitEffect_shift {r : Regex} (hr : r.Everywhere Expr.NotLineStart) (hn : n ≤ line.size)
    (cursor : Nat) (captures : Captures) :
    visitEffect line (cursor + n) (captures.shift n) r =
      (visitEffect (line.extract n) cursor captures r).map (Effect.shift n) := by
  cases r with
  | unit u => exact consumeIf_shift _ line n cursor
  | charClass c => exact consumeIf_shift _ line n cursor
  | any => exact consumeIf_shift _ line n cursor
  | anchor a =>
    cases a with
    | lineStart => exact hr.elim
    | lineEnd =>
      have hend : (cursor + n == line.size) = (cursor == (line.extract n).size) := by
        rw [Bool.eq_iff_iff, beq_iff_eq, beq_iff_eq, Array.size_extract]
        omega
      simp only [visitEffect, proceedIf, hend]
      split <;> rfl
  | group index body => cases index <;> rfl
  | backreference g =>
    simp only [visitEffect, Captures.span_shift]
    cases captures.span g with
    | none => rfl
    | some s =>
      simp only [Option.map_some, slice_shift_rest]
      exact consumeText_shift _ line n cursor
  | concat items => simp [visitEffect, Effect.shift, shift, Function.comp_def]
  | alternation branches =>
    cases branches with
    | nil => rfl
    | cons first others => exact congrArg some (tryBranch_shift first others n cursor)
  | quantified body bounds => rfl

/-- Every item has the same effect, moved. -/
theorem effect_shift {w : Work} (hw : w.Everywhere Expr.NotLineStart) (hn : n ≤ line.size)
    (cursor : Nat) (captures : Captures) :
    (w.shift n).effect line (cursor + n) (captures.shift n) =
      (w.effect (line.extract n) cursor captures).map (Effect.shift n) := by
  cases w with
  | visit r => exact visitEffect_shift hw hn cursor captures
  | close group start => rfl
  | iterate body bounds count =>
    simp only [shift, effect, iterateEffect, Option.map_some]
    split
    · rfl
    · split <;> rfl
  | iterated body bounds count start =>
    simp only [shift, effect, iteratedEffect, Option.map_some, Nat.add_right_cancel_iff]
    split <;> rfl
  | branch first others => exact congrArg some (tryBranch_shift first others n cursor)

end Work

end Effects

/-! ## §3 Turns -/

/-- The thread with every position moved to the right. -/
def Thread.shift (n : Nat) (t : Thread) : Thread :=
  ⟨t.work.map (Work.shift n), t.cursor + n, t.captures.shift n⟩

namespace ThreadStack

variable {line : Text} {n : Nat}

/-- The stack with every position moved to the right. -/
def shift (n : Nat) (s : ThreadStack) : ThreadStack :=
  ⟨s.running.shift n, s.pending.map (Thread.shift n)⟩

theorem resume_shift (n : Nat) (pending : List Thread) :
    resume? (pending.map (Thread.shift n)) = (resume? pending).map (shift n) := by
  cases pending <;> rfl

theorem after_shift (n : Nat) (s : ThreadStack) (rest : List Work) (e : Effect) :
    (s.shift n).after (rest.map (Work.shift n)) (e.shift n) = (s.after rest e).shift n := by
  obtain ⟨t, pending⟩ := s
  obtain ⟨cursor, record, fork, push⟩ := e
  cases fork <;> cases record <;>
    simp [after, shift, Thread.after, Thread.alternative?, Thread.shift, Effect.shift,
      Effect.captured, Captures.shift_record]

/-- Without `^`, a turn on the line is the turn on its rest, moved. -/
theorem turn_shift (hn : n ≤ line.size) {s : ThreadStack}
    (hs : s.AllWork (Work.Everywhere Expr.NotLineStart)) :
    (s.shift n).turn line =
      (s.turn (line.extract n)).map (shift n) (Endpoint.shift n) := by
  obtain ⟨⟨work, cursor, captures⟩, pending⟩ := s
  cases work with
  | nil => exact congrArg (Turn.rest _) (resume_shift n pending)
  | cons w rest =>
    have hw : w.Everywhere Expr.NotLineStart :=
      hs _ (List.mem_cons_self ..) w (List.mem_cons_self ..)
    have heffect := Work.effect_shift hw hn cursor captures
    simp only [turn, shift, Thread.shift, List.map_cons, heffect]
    cases he : w.effect (line.extract n) cursor captures with
    | none => exact congrArg Turn.work (resume_shift n pending)
    | some e =>
      have hafter := after_shift n ⟨⟨w :: rest, cursor, captures⟩, pending⟩ rest e
      exact congrArg (fun t => Turn.work (some t)) hafter

end ThreadStack

/-! ## §4 Attempts -/

namespace Pattern

variable {p : Pattern} {line : Text} {start : Nat}

/-- What the machine comes to on the rest of a line, it comes to on the line. -/
theorem stops_shift (hp : p.root.Everywhere Expr.NotLineStart) (hstart : start ≤ line.size)
    {n : Nat} {found : Option Endpoint}
    (h : Stops (ThreadStack.turn (line.extract start)) (fun _ => true)
      ⟨⟨[.visit p.root], 0, .unset p.groupCount⟩, []⟩ n found) :
    Stops (ThreadStack.turn line) (fun _ => true)
      ⟨⟨[.visit p.root], start, .unset p.groupCount⟩, []⟩ n (found.map (Endpoint.shift start)) := by
  have hwork : ThreadStack.AllWork (Work.Everywhere Expr.NotLineStart)
      ⟨⟨[.visit p.root], 0, .unset p.groupCount⟩, []⟩ := by
    simpa [ThreadStack.AllWork, Work.Everywhere] using hp
  have hmoved : Stops (ThreadStack.turn line) (fun _ => true) (ThreadStack.shift start _) n _ :=
    h.map (fun _ _ hs ht => ThreadStack.allWork_of_follows (Work.passedOn_everywhere _ _) hs ht)
      (fun _ hs => ThreadStack.turn_shift hstart hs) (fun _ => rfl) hwork
  simpa [ThreadStack.shift, Thread.shift, Work.shift, Captures.shift_unset] using hmoved

theorem matchAt_eq_map_shiftInto (hp : p.root.Everywhere Expr.NotLineStart)
    (hstart : start ≤ line.size) (budget : Nat) :
    p.matchAt budget line start =
      (p.matchAt budget (line.extract start) 0).map (Match.shiftInto line start) := by
  obtain ⟨n, found, h⟩ := Stops.exists_of_acc (fun _ => true)
    (ThreadStack.ending (line.extract start)
      ⟨⟨[.visit p.root], 0, .unset p.groupCount⟩, []⟩)
  rw [matchAt, matchAt, attempt_eq_of_stops (Nat.zero_le _) h budget,
    attempt_eq_of_stops hstart (stops_shift hp hstart h) budget, Outcome.map_within]
  cases found with
  | none => rfl
  | some e => simp [Outcome.map, Verdict.map, Verdict.ofOption, matchTo, Match.shiftInto,
      Endpoint.shift, Span.shift]

/-- Without `^` matching is invariant under shifting the start: an attempt from
`start` on has the status and the steps of the attempt on the line without its
first `start` units, and either both find nothing, or the spans of the one match,
of the whole and of every group, are those of the other moved by `start`. -/
theorem matchAt_shift (p : Pattern) (hp : p.root.Everywhere Expr.NotLineStart) (budget : Nat)
    {line : Text} {start : Nat} (hstart : start ≤ line.size) :
    (p.matchAt budget line start).verdict.status =
        (p.matchAt budget (line.extract start) 0).verdict.status ∧
      (p.matchAt budget line start).steps = (p.matchAt budget (line.extract start) 0).steps ∧
      (p.matchAt budget line start).verdict.matched?.map Match.spans =
        (p.matchAt budget (line.extract start) 0).verdict.matched?.map fun m =>
          m.spans.map (·.map (·.shift start)) := by
  rw [matchAt_eq_map_shiftInto hp hstart budget]
  refine ⟨Verdict.status_map _ _, rfl, ?_⟩
  simp only [Outcome.map, Verdict.matched?_map, Option.map_map]
  exact congrArg (Option.map · _) (funext fun m => m.spans_shiftInto line start)

/-- `(?:(a)|b?)*$` -/
def lettersToEnd : Pattern where
  root := .concat [
    .quantified (.group none (.alternation [.group (some 1) (.unit 97),
      .quantified (.unit 98) ⟨0, some 1⟩])) ⟨0, none⟩,
    .anchor .lineEnd]
  groupCount := 1
  names := []

/-- Behind two units of `xyaab` it repeats, up to an empty repetition at the end of
the line, and captures as it does on `aab`. -/
theorem matchAt_shift_lettersToEnd :
    parse .narrow "(?:(a)|b?)*$" = .ok lettersToEnd ∧
      lettersToEnd.root.Everywhere Expr.NotLineStart ∧ 2 ≤ Array.size ("xyaab" : Text) ∧
      lettersToEnd.matchAt 100 "aab" 0 =
        ⟨.matched ⟨"aab", 0, ⟨0, 3⟩, #[some ⟨1, 2⟩], []⟩, 39⟩ ∧
      (lettersToEnd.matchAt 100 "xyaab" 2).steps = 39 ∧
      (lettersToEnd.matchAt 100 "xyaab" 2).verdict.matched?.map Match.spans =
        some [some ⟨2, 5⟩, some ⟨3, 4⟩] := by
  have hparse : parse .narrow "(?:(a)|b?)*$" = .ok lettersToEnd := by cbv
  have hp : lettersToEnd.root.Everywhere Expr.NotLineStart := by
    simp [lettersToEnd, Expr.Everywhere, Expr.EverywhereAll, Expr.NotLineStart]
  have hstart : 2 ≤ Array.size ("xyaab" : Text) := by decide
  have hrest : lettersToEnd.matchAt 100 "aab" 0 =
      ⟨.matched ⟨"aab", 0, ⟨0, 3⟩, #[some ⟨1, 2⟩], []⟩, 39⟩ := by cbv
  obtain ⟨-, hsteps, hspans⟩ := lettersToEnd.matchAt_shift hp 100 hstart
  have hcut : Array.extract ("xyaab" : Text) 2 = "aab" := by decide
  rw [hcut, hrest] at hsteps hspans
  exact ⟨hparse, hp, hstart, hrest, hsteps, hspans⟩

end Pattern

end LineRegex
