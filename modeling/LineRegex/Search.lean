/-
LineRegex.Search — whole searches, with a parsed pattern or from its text.

  §1 Parsed patterns     — `Pattern.findAll`, `Pattern.search`.
  §2 Patterns as texts   — the same, parsing first; a malformed pattern
                           shows in the status and finds nothing.
-/
import LineRegex.MatchRange
import LineRegex.Pattern.Parser

namespace LineRegex

/-! ## §1 Parsed patterns -/

namespace Pattern

/-- All matches in a text, line by line, and whether a budget was exceeded. -/
def findAll (p : Pattern) (text : Text) (o : FindOptions) : Status × List Match :=
  let (ms, r) := (MatchRange.new p text o).start.drain
  (r.status, ms)

/-- The first match in a text, and whether a budget was exceeded before it. -/
def search (p : Pattern) (text : Text) (o : FindOptions) : Status × Option Match :=
  let r := (MatchRange.new p text o).start
  (r.status, r.current)

end Pattern

/-! ## §2 Patterns as texts -/

/-- The status of a verdict. -/
def Verdict.status {α : Type} : Verdict α → Status
  | exceeded => .budgetExceeded
  | _ => .success

/-- The match of a verdict. -/
def Verdict.matched? {α : Type} : Verdict α → Option α
  | matched a => some a
  | _ => none

theorem Verdict.status_map {α β : Type} (f : α → β) (v : Verdict α) :
    (v.map f).status = v.status := by
  cases v <;> rfl

theorem Verdict.matched?_map {α β : Type} (f : α → β) (v : Verdict α) :
    (v.map f).matched? = v.matched?.map f := by
  cases v <;> rfl

/-- Matches the whole of a text. -/
def fullMatch (w : Width) (pattern text : Text) (budget : Nat) : Status × Option Match :=
  match parse w pattern with
  | .error e => (.syntaxError e.fault, none)
  | .ok p =>
    let v := (p.fullMatch budget text).verdict
    (v.status, v.matched?)

/-- All matches in a text. -/
def findAll (w : Width) (pattern text : Text) (o : FindOptions) : Status × List Match :=
  match parse w pattern with
  | .error e => (.syntaxError e.fault, [])
  | .ok p => p.findAll text o

/-- The first match in a text. -/
def search (w : Width) (pattern text : Text) (o : FindOptions) : Status × Option Match :=
  match parse w pattern with
  | .error e => (.syntaxError e.fault, none)
  | .ok p => p.search text o

end LineRegex
