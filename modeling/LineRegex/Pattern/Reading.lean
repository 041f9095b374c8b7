/-
LineRegex.Pattern.Reading — reading small pieces of a pattern.

A reader takes the unread units and says what it found and how many units
that took, so the rest is `units.drop n` and the position moves on by `n`.
A reader that refuses reports the position of the fault in the pattern,
which is why it is told where its units begin.

  §1 Results      — `Checked`, `refuse`.
  §2 Group names  — `[A-Za-z_][A-Za-z0-9_]*` closed by `>`.
  §3 Counts       — runs of digits, limited in value.
-/
import LineRegex.Pattern
import LineRegex.Status

namespace LineRegex

/-! ## §1 Results -/

/-- A result that a malformed pattern does not have. -/
abbrev Checked := Except SyntaxError

/-- Refuses the pattern for the fault at the position. -/
def refuse {α : Type} (fault : SyntaxFault) (position : Nat) : Checked α :=
  .error ⟨fault, position⟩

/-- Whether the next unread unit is the given character. -/
def startsWith (c : Char) (units : List CodeUnit) : Bool := units.head? == some (unit c)

/-! ## §2 Group names -/

/-- Whether a run of word units is the name of a group: not empty, no digit first. -/
def isGroupName (name : List CodeUnit) : Bool :=
  match name with
  | [] => false
  | u :: _ => !u.isDigit

/-- Reads a group name and the `>` that closes it. -/
def lexGroupName (position : Nat) (units : List CodeUnit) : Checked (Text × Nat) :=
  let name := units.takeWhile CodeUnit.isWord
  if !isGroupName name then refuse .badGroupName position
  else if !startsWith '>' (units.drop name.length) then
    refuse .badGroupName (position + name.length)
  else .ok (name.toArray, name.length + 1)

/-! ## §3 Counts -/

/-- The largest number that braces may hold. -/
def maxRepeatCount : Nat := 100000

/-- The run of digits at the front. -/
def leadingDigits (units : List CodeUnit) : List CodeUnit := units.takeWhile CodeUnit.isDigit

/-- Reads a run of digits whose value is at most `maxRepeatCount`. -/
def lexCount? (units : List CodeUnit) : Option (Nat × Nat) :=
  let digits := leadingDigits units
  if digits.isEmpty || maxRepeatCount < decimalValue digits then none
  else some (decimalValue digits, digits.length)

end LineRegex
