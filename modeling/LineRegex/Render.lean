/-
LineRegex.Render — matches and errors as text.

  §1 Matches  — `"text"[start,stop)`, with groups ` {1: "text", 2: -}`.
  §2 Errors   — `message at position n`.
-/
import LineRegex.Match
import LineRegex.Status

namespace LineRegex

/-! ## §1 Matches -/

namespace Match

/-- A group with its number: its text in quotes, or a hyphen if it is unset. -/
def renderGroup (m : Match) (group : Nat) : Text :=
  match m.group group with
  | some t => .join [decimalText group, ": \"", t, "\""]
  | none => .join [decimalText group, ": -"]

/-- The matched text in quotes, and where it was found. -/
def render (m : Match) : Text :=
  .join ["\"", m.text, "\"[", decimalText m.whole.start, ",", decimalText m.whole.stop, ")"]

/-- A match with its groups, if the pattern has any. -/
def renderWithGroups (m : Match) : Text :=
  if m.captures.isEmpty then m.render
  else
    let groups := (List.range m.captures.size).map fun g => m.renderGroup (g + 1)
    .join [m.render, " \x7b", .joinWith ", " groups, "\x7d"]

end Match

/-! ## §2 Errors -/

/-- A message with the position it is about. -/
def messageAt (message : String) (position : Nat) : Text :=
  .join [message, " at position ", decimalText position]

/-- The wording of a syntax error, with its position. -/
def SyntaxError.render (e : SyntaxError) : Text := messageAt e.fault.message e.position

end LineRegex
