/-
LineRegex.Line — the lines of a text.

A line ends with a line feed, a carriage return, or a carriage return and
a line feed. The terminator belongs to no line, and one at the very end of
the text opens no further line, so the empty text has no lines.

  §1 Rows   — the content of a line and its terminator, found from the right.
  §2 Lines  — rows with their number and their place in the text.
-/
import LineRegex.CodeUnit

namespace LineRegex

/-! ## §1 Rows -/

/-- The units of a line, and those that end it. -/
structure Row where
  content : List CodeUnit
  ending : List CodeUnit
  deriving DecidableEq, Repr

namespace Row

/-- Puts a unit in front of the rows of what follows it: a carriage return
joins a line feed right behind it, any other terminator ends a line of its
own, and any other unit belongs to the first line. -/
def addUnit (u : CodeUnit) : List Row → List Row
  | [] => if u.isLineTerminator then [⟨[], [u]⟩] else [⟨[u], []⟩]
  | row :: rows =>
    if u = unit '\r' && row.content.isEmpty && row.ending = [unit '\n'] then
      ⟨[], [unit '\r', unit '\n']⟩ :: rows
    else if u.isLineTerminator then ⟨[], [u]⟩ :: row :: rows
    else ⟨u :: row.content, row.ending⟩ :: rows

/-- The rows of a text. -/
def split (units : List CodeUnit) : List Row := units.foldr addUnit []

end Row

/-! ## §2 Lines -/

/-- A line of a text. -/
structure Line where
  /-- How many lines come before it. -/
  number : Nat
  /-- The position of its first unit in the text. -/
  start : Nat
  units : Text
  deriving DecidableEq, Repr

/-- The lines of successive rows, the first of which has the given number and place. -/
def linesFrom (number start : Nat) : List Row → List Line
  | [] => []
  | row :: rows =>
    ⟨number, start, row.content.toArray⟩ ::
      linesFrom (number + 1) (start + row.content.length + row.ending.length) rows

/-- The lines of a text, in order. -/
def lines (text : Text) : List Line := linesFrom 0 0 (Row.split text.toList)

end LineRegex
