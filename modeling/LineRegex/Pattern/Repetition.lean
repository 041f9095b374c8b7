/-
LineRegex.Pattern.Repetition — the quantifiers `*`, `+`, `?` and braces.

  §1 Quantifier starts  — the four units that open a quantifier.
  §2 Braces             — `{m}`, `{m,}` and `{m,n}`; any defect is reported
                          at the opening brace.
  §3 Suffixes           — an atom with the quantifier that may follow it.
                          An anchor takes none, and none follows another.
-/
import LineRegex.Pattern.Reading

namespace LineRegex

/-! ## §1 Quantifier starts -/

/-- Whether a unit opens a quantifier. -/
def CodeUnit.isQuantifierStart (u : CodeUnit) : Bool :=
  u == unit '*' || u == unit '+' || u == unit '?' || u == unit '{'

/-- Whether the next unread unit opens a quantifier. -/
def startsQuantifier : List CodeUnit → Bool
  | [] => false
  | u :: _ => u.isQuantifierStart

/-! ## §2 Braces -/

/-- Reads the upper bound and the closing brace of `{m,…}`, behind the comma. -/
def lexUpperBound? (min : Nat) (units : List CodeUnit) : Option (Bounds × Nat) :=
  if startsWith '}' units then some (⟨min, none⟩, 1)
  else
    match lexCount? units with
    | none => none
    | some (max, n) =>
      if startsWith '}' (units.drop n) && min ≤ max then some (⟨min, some max⟩, n + 1)
      else none

/-- Reads the bounds behind an opening brace, up to the closing one. -/
def lexBraces? (units : List CodeUnit) : Option (Bounds × Nat) :=
  match lexCount? units with
  | none => none
  | some (min, n) =>
    if startsWith '}' (units.drop n) then some (⟨min, some min⟩, n + 1)
    else if startsWith ',' (units.drop n) then
      (lexUpperBound? min (units.drop (n + 1))).map fun (bounds, k) => (bounds, n + 1 + k)
    else none

/-- Reads the quantifier that the unit `u` at `position` opens; the count
leaves `u` out. -/
def lexBounds (position : Nat) (u : CodeUnit) (units : List CodeUnit) : Checked (Bounds × Nat) :=
  if u = unit '*' then .ok (⟨0, none⟩, 0)
  else if u = unit '+' then .ok (⟨1, none⟩, 0)
  else if u = unit '?' then .ok (⟨0, some 1⟩, 0)
  else
    match lexBraces? units with
    | none => refuse .badBraceExpression position
    | some found => .ok found

/-! ## §3 Suffixes -/

/-- Reads the quantifier behind an atom, if one follows, and applies it. -/
def lexSuffix {ρ : Type} (position : Nat) (atom : Expr ρ) (units : List CodeUnit) :
    Checked (Expr ρ × Nat) :=
  match units with
  | [] => .ok (atom, 0)
  | u :: rest =>
    if !u.isQuantifierStart then .ok (atom, 0)
    else if atom.isAnchor then refuse .emptyOperand position
    else do
      let (bounds, n) ← lexBounds position u rest
      if startsQuantifier (rest.drop n) then refuse .multipleRepeat (position + 1 + n)
      else return (.quantified atom bounds, 1 + n)

end LineRegex
