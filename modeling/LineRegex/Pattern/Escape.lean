/-
LineRegex.Pattern.Escape — escape sequences.

  1. control escapes       `\f \n \r \t \v \0`
  2. control letters       `\cX`, the unit `X % 32`
  3. hexadecimal escapes   `\xHH`, exactly two digits
  4. shorthand classes     `\d \D \s \S \w \W`
  5. backreferences        `\N` and `\k<name>`, outside brackets only
  6. identity escapes      any other unit that is neither letter nor digit

`\b` is the backspace inside brackets and unsupported outside, `\B` is
unsupported. Letters and digits without a meaning are reserved.

  §1 Escapes that denote units  — `ClassEscape`, the ones brackets allow.
  §2 Backreferences             — `Reference`, by number or by name.
  §3 Escapes outside brackets   — `Escape`.
-/
import LineRegex.Pattern.Reading

namespace LineRegex

/-! ## §1 Escapes that denote units -/

/-- An escape that stands for one unit or for a class of units. -/
inductive ClassEscape where
  | single (u : CodeUnit)
  | shorthand (s : Shorthand)
  deriving DecidableEq, Repr

/-- The unit that a control escape letter stands for. -/
def controlEscape? (u : CodeUnit) : Option CodeUnit :=
  if u = unit 'f' then some 12
  else if u = unit 'n' then some 10
  else if u = unit 'r' then some 13
  else if u = unit 't' then some 9
  else if u = unit 'v' then some 11
  else if u = unit '0' then some 0
  else none

/-- The control unit of the letter that comes next. -/
def controlLetter? : List CodeUnit → Option CodeUnit
  | u :: _ => if u.isAlpha then some (u % 32) else none
  | [] => none

/-- The unit of the two hexadecimal digits that come next. -/
def hexPair? : List CodeUnit → Option CodeUnit
  | a :: b :: _ => do return (← a.hexValue?) * 16 + (← b.hexValue?)
  | _ => none

/-- The escape in which the letter `u` behind the backslash stands alone. -/
def letterEscape? (u : CodeUnit) : Option ClassEscape :=
  ((controlEscape? u).map .single).or ((Shorthand.ofUnit? u).map .shorthand)

/-- Reads an escape inside brackets; the units follow the backslash, which
stands at `position`. -/
def lexClassEscape (position : Nat) (units : List CodeUnit) : Checked (ClassEscape × Nat) :=
  match units with
  | [] => refuse .badEscape position
  | u :: rest =>
    match letterEscape? u with
    | some e => .ok (e, 1)
    | none =>
      if u = unit 'c' then
        match controlLetter? rest with
        | some v => .ok (.single v, 2)
        | none => refuse .badEscape position
      else if u = unit 'x' then
        match hexPair? rest with
        | some v => .ok (.single v, 3)
        | none => refuse .badEscape position
      else if u = unit 'b' then .ok (.single 8, 1)
      else if u = unit 'B' then refuse .unsupportedFeature position
      else if u.isAlpha || u.isDigit then refuse .badEscape position
      else .ok (.single u, 1)

/-! ## §2 Backreferences -/

/-- What a backreference refers to. -/
inductive Target where
  | number (n : Nat)
  | name (name : Text)
  deriving DecidableEq, Repr

/-- A backreference as written: its target, and the position of its backslash. -/
structure Reference where
  position : Nat
  target : Target
  deriving DecidableEq, Repr

/-- The number that the digits of a backreference denote. Numbers past
`maxRepeatCount` are not told apart: they all stand for the next one. -/
def referenceNumber (digits : List CodeUnit) : Nat :=
  min (decimalValue digits) (maxRepeatCount + 1)

/-- Reads the `<name>` of a named backreference, behind the `k`; `position`
is that of the backslash. -/
def lexNamedTarget (position : Nat) (units : List CodeUnit) : Checked (Target × Nat) :=
  if startsWith '<' units then do
    let (name, n) ← lexGroupName (position + 3) (units.drop 1)
    return (.name name, 1 + n)
  else refuse .badEscape position

/-! ## §3 Escapes outside brackets -/

/-- An escape outside brackets. -/
inductive Escape where
  | ofClass (e : ClassEscape)
  | reference (r : Reference)
  deriving DecidableEq, Repr

/-- Reads an escape outside brackets; the units follow the backslash, which
stands at `position`. -/
def lexEscape (position : Nat) (units : List CodeUnit) : Checked (Escape × Nat) :=
  match units with
  | [] => refuse .badEscape position
  | u :: rest =>
    if u = unit 'b' then refuse .unsupportedFeature position
    else if u = unit 'k' then do
      let (target, n) ← lexNamedTarget position rest
      return (.reference ⟨position, target⟩, 1 + n)
    else if u.isDigit && u != unit '0' then
      let digits := leadingDigits units
      .ok (.reference ⟨position, .number (referenceNumber digits)⟩, digits.length)
    else do
      let (e, n) ← lexClassEscape position units
      return (.ofClass e, n)

end LineRegex
