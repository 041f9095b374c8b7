/-
LineRegex.Matcher.Attempt — matching a pattern at one position of a line.

  §1 Attempts   — `matchAt` begins at a position and may end anywhere;
                  `fullMatch` covers a whole text.
  §2 Positions  — a match begins where its attempt did.
-/
import LineRegex.Matcher.Compact

namespace LineRegex

/-! ## §1 Attempts -/

/-- Replaces what a successful outcome holds. -/
def Outcome.map {α β : Type} (f : α → β) (o : Outcome α) : Outcome β := ⟨o.verdict.map f, o.steps⟩

namespace Pattern

/-- Runs the matcher on a line from a position on it. -/
def endpoints (p : Pattern) (accepts : Endpoint → Bool) (budget : Nat) (line : Text)
    (start : Nat) : Outcome Endpoint :=
  let captures := Captures.unset p.groupCount
  run (Compact.turn line) accepts budget
    ⟨.initial p.root start captures, Compact.ending line p.root start captures⟩ 0

/-- The match that begins at `start` and ends at the endpoint. -/
def matchTo (p : Pattern) (line : Text) (start : Nat) (e : Endpoint) : Match where
  subject := line
  line := 0
  whole := ⟨start, e.cursor⟩
  captures := e.captures
  names := p.names

/-- Tries to match a line from `start` on, up to an endpoint that is
accepted. Behind the end of the line there is nothing to begin with. -/
def attempt (p : Pattern) (accepts : Endpoint → Bool) (budget : Nat) (line : Text)
    (start : Nat) : Outcome Match :=
  if line.size < start then ⟨.failed, 0⟩
  else (p.endpoints accepts budget line start).map (p.matchTo line start)

/-- Tries to match a line from exactly `start` on. -/
def matchAt (p : Pattern) (budget : Nat) (line : Text) (start : Nat) : Outcome Match :=
  p.attempt (fun _ => true) budget line start

/-- Tries to match the whole of a text. -/
def fullMatch (p : Pattern) (budget : Nat) (text : Text) : Outcome Match :=
  p.attempt (fun e => e.cursor == text.size) budget text 0

/-! ## §2 Positions -/

/-- A match begins where its attempt did. -/
theorem start_of_attempt {p : Pattern} {accepts : Endpoint → Bool} {budget : Nat} {line : Text}
    {start : Nat} {m : Match} (h : (p.attempt accepts budget line start).verdict = .matched m) :
    m.whole.start = start := by
  unfold attempt at h
  split at h
  · cases h
  · simp only [Outcome.map] at h
    generalize (p.endpoints accepts budget line start).verdict = v at h
    cases v with
    | matched e => cases h; rfl
    | failed => cases h
    | exceeded => cases h

/-- An attempt that succeeds began on its line. -/
theorem start_le_of_attempt {p : Pattern} {accepts : Endpoint → Bool} {budget : Nat}
    {line : Text} {start : Nat} {m : Match}
    (h : (p.attempt accepts budget line start).verdict = .matched m) : start ≤ line.size := by
  unfold attempt at h
  split at h
  · cases h
  · omega

end Pattern

end LineRegex
