/-
LineRegex.Pattern.Bracket — bracket expressions `[…]` and `[^…]`.

A bracket expression is a sequence of members. A hyphen behind a single
unit joins it with the next member to a range, unless that next unit is
the closing bracket; in any other place a hyphen is a unit like others.

  §1 Members   — single units, ranges, shorthand classes.
  §2 Reading   — one member, then all of them; a defect is reported at the
                 member or, when the expression is empty or unclosed, at
                 the opening bracket.
  §3 Classes   — the normalized union of the members.
-/
import LineRegex.Pattern.Escape

namespace LineRegex

/-! ## §1 Members -/

/-- A member of a bracket expression. -/
inductive Member where
  | single (u : CodeUnit)
  | range (lo hi : CodeUnit)
  | shorthand (s : Shorthand)
  deriving DecidableEq, Repr

/-- The units of a member. -/
def Member.ranges (w : Width) : Member → List UnitRange
  | single u => [.single u]
  | range lo hi => [⟨lo, hi⟩]
  | shorthand s => s.ranges w

/-! ## §2 Reading -/

/-- Reads one unit or escape inside brackets; the unit `u` at `position` is
its first, and the count leaves `u` out. -/
def lexClassAtom (position : Nat) (u : CodeUnit) (units : List CodeUnit) :
    Checked (ClassEscape × Nat) :=
  if u = unit '\\' then lexClassEscape position units
  else .ok (.single u, 0)

/-- The first unit behind a hyphen that makes a range, and what follows it. -/
def rangeEnd? : List CodeUnit → Option (CodeUnit × List CodeUnit)
  | hyphen :: u :: rest =>
    if hyphen = unit '-' && u != unit ']' then some (u, rest) else none
  | _ => none

/-- Reads one member; the unit `u` at `position` is its first, and the count
leaves `u` out. -/
def lexMember (position : Nat) (u : CodeUnit) (units : List CodeUnit) : Checked (Member × Nat) := do
  let (first, n) ← lexClassAtom position u units
  match first, rangeEnd? (units.drop n) with
  | .shorthand s, none => return (.shorthand s, n)
  | .shorthand _, some _ => refuse .badBracketExpression position
  | .single lo, none => return (.single lo, n)
  | .single lo, some (v, rest) =>
    let (last, k) ← lexClassAtom (position + 1 + n + 1) v rest
    match last with
    | .shorthand _ => refuse .badBracketExpression position
    | .single hi =>
      if hi < lo then refuse .badBracketExpression position
      else return (.range lo hi, n + 2 + k)

/-- Reads members up to the closing bracket, which the count includes; the
opening one stands at `opening`. -/
def lexMembers (opening position : Nat) (units : List CodeUnit) : Checked (List Member × Nat) :=
  match units with
  | [] => refuse .badBracketExpression opening
  | u :: rest =>
    if u = unit ']' then .ok ([], 1)
    else
      match lexMember position u rest with
      | .error e => .error e
      | .ok (m, n) =>
        match lexMembers opening (position + 1 + n) (rest.drop n) with
        | .error e => .error e
        | .ok (ms, k) => .ok (m :: ms, 1 + n + k)
termination_by units.length
decreasing_by simp only [List.length_drop, List.length_cons]; omega

/-! ## §3 Classes -/

/-- The class of all units that some member contains, or of all others. -/
def CharClass.ofMembers (w : Width) (negated : Bool) (members : List Member) : CharClass :=
  ⟨UnitRange.normalize (members.flatMap (Member.ranges w)), negated⟩

/-- Reads a bracket expression; the units follow the opening bracket, which
stands at `position`. -/
def lexBracket (w : Width) (position : Nat) (units : List CodeUnit) : Checked (CharClass × Nat) :=
  let negated := startsWith '^' units
  let skipped := if negated then 1 else 0
  match lexMembers position (position + 1 + skipped) (units.drop skipped) with
  | .error e => .error e
  | .ok ([], _) => refuse .badBracketExpression position
  | .ok (members, n) => .ok (.ofMembers w negated members, skipped + n)

end LineRegex
