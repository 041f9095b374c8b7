/-
LineRegex.MatchRange — the matches of a text, found one at a time.

A range goes through the lines of its text from left to right. Behind a
match it goes on at the end of it, or one position further if the match is
empty, so that no position is tried twice and none is left out.

  §1 Progress   — how far a scan has come, and what it has given up.
  §2 Scanning   — the next match on a line, and on the lines after it.
  §3 Ranges     — a scan that begins on demand and keeps its current match.
  §4 Draining   — all remaining matches, or at most a given number of them.
-/
import LineRegex.Line
import LineRegex.Matcher.Attempt
import LineRegex.Options
import LineRegex.Status

namespace LineRegex

/-! ## §1 Progress -/

/-- What a scan reports about attempts that exceeded their budget. -/
structure Tally where
  status : Status
  /-- The number of positions given up for lack of budget. -/
  abandoned : Nat
  deriving DecidableEq, Repr

namespace Tally

/-- Before anything is tried. -/
def initial : Tally := ⟨.success, 0⟩

/-- An attempt has exceeded its budget, and its position is given up. -/
def giveUp (t : Tally) : Tally := ⟨.budgetExceeded, t.abandoned + 1⟩

end Tally

/-- How far a scan has come. -/
structure Progress where
  /-- The line being scanned and all after it. -/
  lines : List Line
  /-- The next position to try on that line. -/
  cursor : Nat
  tally : Tally
  /-- The match found last, in place; absent once there are no more. -/
  current : Option Match

namespace Progress

/-- The scan is over. -/
def ended (tally : Tally) : Progress := ⟨[], 0, tally, none⟩

/-- The number of positions not tried yet, on the lines from `lines` on. -/
def positionsLeft (cursor : Nat) : List Line → Nat
  | [] => 0
  | line :: rest => line.units.size + 1 - cursor + positionsLeft 0 rest

/-- A bound on the number of matches still to come, the current one included. -/
def remaining (s : Progress) : Nat :=
  positionsLeft s.cursor s.lines + if s.current.isSome then 1 else 0

end Progress

/-! ## §2 Scanning -/

/-- How the scan of a line ended. -/
inductive LineScan where
  | found (m : Match)
  /-- No position is left on the line. -/
  | exhausted
  /-- An attempt exceeded its budget, and the policy is to stop there. -/
  | aborted

/-- Where to go on behind a match. -/
def Match.nextCursor (m : Match) : Nat :=
  if m.whole.start < m.whole.stop then m.whole.stop else m.whole.start + 1

/-- Tries the positions of a line from `cursor` on; the outcome, and what is
reported by then. -/
def scanLine (p : Pattern) (o : FindOptions) (line : Text) (cursor : Nat) (tally : Tally) :
    LineScan × Tally :=
  if line.size < cursor then (.exhausted, tally)
  else
    match (p.matchAt o.budget line cursor).verdict with
    | .matched m => (.found m, tally)
    | .failed => scanLine p o line (cursor + 1) tally
    | .exceeded =>
      match o.onExceeded with
      | .abort => (.aborted, tally.giveUp)
      | .skipPosition => scanLine p o line (cursor + 1) tally.giveUp
termination_by line.size + 1 - cursor

/-- A match on a line as the caller sees it: with the number of the line, and
in absolute mode with offsets into the whole text. -/
def Match.locate (mode : OffsetMode) (text : Text) (line : Line) (m : Match) : Match :=
  match mode with
  | .lineRelative => { m with line := line.number }
  | .absolute =>
    { m with
      subject := text
      line := line.number
      whole := m.whole.shift line.start
      captures := m.captures.map fun s => s.map (·.shift line.start) }

/-- Scans for the next match, on the first line from `cursor` on. -/
def scanLines (p : Pattern) (o : FindOptions) (text : Text) (cursor : Nat) (tally : Tally) :
    List Line → Progress
  | [] => .ended tally
  | line :: rest =>
    match scanLine p o line.units cursor tally with
    | (.found m, tally) =>
      ⟨line :: rest, m.nextCursor, tally, some (m.locate o.offsets text line)⟩
    | (.exhausted, tally) => scanLines p o text 0 tally rest
    | (.aborted, tally) => .ended tally

/-! ## §3 Ranges -/

/-- The matches of a pattern in a text, as far as they have been asked for. -/
structure MatchRange where
  pattern : Pattern
  text : Text
  options : FindOptions
  /-- Whether the first match has been asked for. -/
  started : Bool
  progress : Progress

namespace MatchRange

/-- The range before anything is asked for. -/
def new (pattern : Pattern) (text : Text) (options : FindOptions) : MatchRange :=
  ⟨pattern, text, options, false, ⟨lines text, 0, .initial, none⟩⟩

/-- The current match. -/
def current (r : MatchRange) : Option Match := r.progress.current

/-- The number of positions given up for lack of budget. -/
def abandoned (r : MatchRange) : Nat := r.progress.tally.abandoned

/-- Whether some attempt so far exceeded its budget. -/
def status (r : MatchRange) : Status := r.progress.tally.status

/-- Goes on to the next match. -/
def advance (r : MatchRange) : MatchRange :=
  { r with progress :=
      scanLines r.pattern r.options r.text r.progress.cursor r.progress.tally r.progress.lines }

/-- Asks for the first match, unless that has been done. -/
def start (r : MatchRange) : MatchRange :=
  if r.started then r else { r.advance with started := true }

/-! ## §4 Draining -/

/-- Finding a match leaves less of the line to scan. -/
theorem scanLine_found {p : Pattern} {o : FindOptions} {line : Text} {cursor : Nat}
    {tally tally' : Tally} {m : Match} (h : scanLine p o line cursor tally = (.found m, tally')) :
    cursor < m.nextCursor ∧ cursor ≤ line.size := by
  fun_induction scanLine p o line cursor tally with
  | case1 => simp at h
  | case2 cursor tally hc m' hm =>
    cases h
    have := Pattern.start_of_attempt hm
    unfold Match.nextCursor
    split <;> omega
  | case3 cursor tally hc hm ih => have := ih h; omega
  | case4 => simp at h
  | case5 cursor tally hc hm ho ih => have := ih h; omega

/-- A match uses up at least the position it was found at. -/
theorem remaining_scanLines (p : Pattern) (o : FindOptions) (text : Text)
    (cursor : Nat) (tally : Tally) (ls : List Line) :
    (scanLines p o text cursor tally ls).remaining ≤ Progress.positionsLeft cursor ls := by
  induction ls generalizing cursor tally with
  | nil => simp [scanLines, Progress.ended, Progress.remaining, Progress.positionsLeft]
  | cons line rest ih =>
    rw [scanLines]
    split
    · rename_i m t hm
      have := scanLine_found hm
      simp only [Progress.remaining, Progress.positionsLeft, Option.isSome_some, if_true]
      omega
    · rename_i t _
      have := ih 0 t
      simp only [Progress.positionsLeft]
      omega
    · simp [Progress.ended, Progress.remaining, Progress.positionsLeft]

/-- Behind a match, less remains. -/
theorem remaining_advance {r : MatchRange} {m : Match} (h : r.current = some m) :
    r.advance.progress.remaining < r.progress.remaining := by
  have := remaining_scanLines r.pattern r.options r.text r.progress.cursor r.progress.tally
    r.progress.lines
  have hs : r.progress.current.isSome = true := by rw [← current, h]; rfl
  have hr : r.progress.remaining =
      Progress.positionsLeft r.progress.cursor r.progress.lines + 1 := by
    rw [Progress.remaining, hs]; rfl
  rw [hr]
  exact Nat.lt_succ_of_le this

/-- All matches from the current one on, and the range at its end. -/
def drain (r : MatchRange) : List Match × MatchRange :=
  match _h : r.current with
  | none => ([], r)
  | some m =>
    let (ms, e) := r.advance.drain
    (m :: ms, e)
termination_by r.progress.remaining
decreasing_by exact remaining_advance _h

/-- At most `count` matches from the current one on, and the range behind them. -/
def take (count : Nat) (r : MatchRange) : List Match × MatchRange :=
  match count, r.current with
  | 0, _ => ([], r)
  | _, none => ([], r)
  | count + 1, some m =>
    let (ms, e) := r.advance.take count
    (m :: ms, e)

end MatchRange

end LineRegex
