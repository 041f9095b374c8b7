/-
LineRegex.Pattern.GroupOpener — what stands between `(` and a group's body.

  §1 Openers  — `(`, `(?:`, `(?<name>` and `(?P<name>`.
  §2 Reading  — lookaround, inline flags and the like are unsupported.
-/
import LineRegex.Pattern.Reading

namespace LineRegex

/-! ## §1 Openers -/

/-- The kind of a group. -/
inductive GroupOpener where
  /-- A capturing group without a name. -/
  | numbered
  /-- A capturing group with a name, which stands at the position. -/
  | named (name : Text) (position : Nat)
  /-- A group that captures nothing. -/
  | plain
  deriving DecidableEq, Repr

/-! ## §2 Reading -/

/-- Reads the name of a group behind its `<`, the unit before `position`;
the parenthesis stands at `opening`. -/
def lexNamedOpener (opening position : Nat) (units : List CodeUnit) : Checked (GroupOpener × Nat) :=
  if startsWith '=' units || startsWith '!' units then refuse .unsupportedFeature opening
  else do
    let (name, n) ← lexGroupName position units
    return (.named name position, n)

/-- Reads the opener of a group; the units follow the parenthesis, which
stands at `opening`. -/
def lexGroupOpener (opening : Nat) (units : List CodeUnit) : Checked (GroupOpener × Nat) :=
  if !startsWith '?' units then .ok (.numbered, 0)
  else
    match units.drop 1 with
    | [] => refuse .missingParen opening
    | u :: rest =>
      if u = unit ':' then .ok (.plain, 2)
      else if u = unit '<' then do
        let (o, n) ← lexNamedOpener opening (opening + 3) rest
        return (o, 2 + n)
      else if u = unit 'P' then
        if startsWith '<' rest then do
          let (o, n) ← lexNamedOpener opening (opening + 4) (rest.drop 1)
          return (o, 3 + n)
        else refuse .badGroupName (opening + 3)
      else refuse .unsupportedFeature opening

end LineRegex
