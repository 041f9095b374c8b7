/-
LineRegex.Proofs.Grammar.Forms — the smallest parts of a pattern, as written.

A form keeps all that the text shows: `{3}` and `{03}` are two forms of one
quantifier. Each form has its units, a meaning, and a condition under which
it belongs to the grammar. Units are split where the readers split them: the
first one, which decides what is read, and the others behind it.

  §1 Numerals and names
  §2 Quantifiers          — `* + ? {m} {m,} {m,n}`.
  §3 Escapes              — behind the backslash, but for backreferences.
  §4 Bracket expressions  — single units, ranges, and where a hyphen may stand.
  §5 Openings             — `(`, `(?:`, `(?<name>` and `(?P<name>`.
-/
import LineRegex.Pattern.Parser

namespace LineRegex

/-- The letter of a shorthand escape. -/
def Shorthand.letter : Shorthand → CodeUnit
  | digits => unit 'd'
  | words => unit 'w'
  | spaces => unit 's'
  | nonDigits => unit 'D'
  | nonWords => unit 'W'
  | nonSpaces => unit 'S'

namespace Grammar

/-! ## §1 Numerals and names -/

/-- One or more digits. -/
def IsNumeral (ds : List CodeUnit) : Prop := ds ≠ [] ∧ ∀ d ∈ ds, d.isDigit = true

/-- `[A-Za-z_][A-Za-z0-9_]*` -/
def IsName : List CodeUnit → Prop
  | [] => False
  | u :: rest => (u.isAlpha = true ∨ u = unit '_') ∧ ∀ v ∈ rest, v.isWord = true

/-! ## §2 Quantifiers -/

/-- A numeral that braces may hold. -/
def IsCount (ds : List CodeUnit) : Prop := IsNumeral ds ∧ decimalValue ds ≤ maxRepeatCount

inductive Quantifier where
  | star
  | plus
  | optional
  | exactly (m : List CodeUnit)
  | atLeast (m : List CodeUnit)
  | between (m n : List CodeUnit)

namespace Quantifier

def first : Quantifier → CodeUnit
  | star => unit '*'
  | plus => unit '+'
  | optional => unit '?'
  | exactly _ | atLeast _ | between _ _ => unit '{'

def tail : Quantifier → List CodeUnit
  | star | plus | optional => []
  | exactly m => m ++ [unit '}']
  | atLeast m => m ++ [unit ',', unit '}']
  | between m n => m ++ unit ',' :: n ++ [unit '}']

def bounds : Quantifier → Bounds
  | star => ⟨0, none⟩
  | plus => ⟨1, none⟩
  | optional => ⟨0, some 1⟩
  | exactly m => ⟨decimalValue m, some (decimalValue m)⟩
  | atLeast m => ⟨decimalValue m, none⟩
  | between m n => ⟨decimalValue m, some (decimalValue n)⟩

def Valid : Quantifier → Prop
  | star | plus | optional => True
  | exactly m | atLeast m => IsCount m
  | between m n => IsCount m ∧ IsCount n ∧ decimalValue m ≤ decimalValue n

end Quantifier

/-- The units of a quantifier that may be absent. -/
def suffixUnits : Option Quantifier → List CodeUnit
  | none => []
  | some q => q.first :: q.tail

/-- The tree with the quantifier applied, if there is one. -/
def quantify {ρ : Type} (q : Option Quantifier) (e : Expr ρ) : Expr ρ :=
  match q with
  | none => e
  | some q => .quantified e q.bounds

/-! ## §3 Escapes -/

/-- The escapes for control units: `\f \n \r \t \v \0`. -/
inductive Control where
  | formFeed
  | lineFeed
  | carriageReturn
  | tab
  | verticalTab
  | null

namespace Control

def letter : Control → CodeUnit
  | formFeed => unit 'f'
  | lineFeed => unit 'n'
  | carriageReturn => unit 'r'
  | tab => unit 't'
  | verticalTab => unit 'v'
  | null => unit '0'

def value : Control → CodeUnit
  | formFeed => 12
  | lineFeed => 10
  | carriageReturn => 13
  | tab => 9
  | verticalTab => 11
  | null => 0

end Control

/-- What may follow a backslash, backreferences apart. -/
inductive EscapeForm where
  | control (c : Control)
  /-- `\cX` -/
  | letter (u : CodeUnit)
  /-- `\xHH` -/
  | hex (high low : CodeUnit)
  | shorthand (s : Shorthand)
  /-- Any other unit that is neither letter nor digit, for itself. -/
  | identity (u : CodeUnit)
  /-- `\b`, inside brackets only. -/
  | backspace

namespace EscapeForm

def units : EscapeForm → List CodeUnit
  | control c => [c.letter]
  | letter u => [unit 'c', u]
  | hex high low => [unit 'x', high, low]
  | shorthand s => [s.letter]
  | identity u => [u]
  | backspace => [unit 'b']

def meaning : EscapeForm → ClassEscape
  | control c => .single c.value
  | letter u => .single (u % 32)
  | hex high low => .single (high.hexValue?.getD 0 * 16 + low.hexValue?.getD 0)
  | shorthand s => .shorthand s
  | identity u => .single u
  | backspace => .single 8

def Valid : EscapeForm → Prop
  | letter u => u.isAlpha = true
  | hex high low => high.hexValue?.isSome = true ∧ low.hexValue?.isSome = true
  | identity u => u.isAlpha = false ∧ u.isDigit = false
  | control _ | shorthand _ | backspace => True

end EscapeForm

/-! ## §4 Bracket expressions -/

/-- A unit or an escape inside brackets. -/
inductive BracketUnit where
  | plain (u : CodeUnit)
  | escaped (e : EscapeForm)

namespace BracketUnit

def first : BracketUnit → CodeUnit
  | plain u => u
  | escaped _ => unit '\\'

def tail : BracketUnit → List CodeUnit
  | plain _ => []
  | escaped e => e.units

def meaning : BracketUnit → ClassEscape
  | plain u => .single u
  | escaped e => e.meaning

def Valid : BracketUnit → Prop
  | plain u => u ≠ unit '\\' ∧ u ≠ unit ']'
  | escaped e => e.Valid

/-- The unit that an end of a range stands for. -/
def value (a : BracketUnit) : CodeUnit :=
  match a.meaning with
  | .single u => u
  | .shorthand _ => 0

/-- Whether it stands for one unit and not for a class. -/
def IsSingle (a : BracketUnit) : Prop := a.meaning = .single a.value

end BracketUnit

inductive BracketMember where
  | one (a : BracketUnit)
  | range (lo hi : BracketUnit)

namespace BracketMember

def first : BracketMember → CodeUnit
  | one a => a.first
  | range lo _ => lo.first

def tail : BracketMember → List CodeUnit
  | one a => a.tail
  | range lo hi => lo.tail ++ unit '-' :: hi.first :: hi.tail

def member : BracketMember → Member
  | one a =>
    match a.meaning with
    | .single u => .single u
    | .shorthand s => .shorthand s
  | range lo hi => .range lo.value hi.value

def Valid : BracketMember → Prop
  | one a => a.Valid
  | range lo hi => lo.Valid ∧ hi.Valid ∧ lo.IsSingle ∧ hi.IsSingle ∧ lo.value ≤ hi.value

end BracketMember

/-- The units of members one after another. -/
def memberUnits : List BracketMember → List CodeUnit
  | [] => []
  | m :: ms => m.first :: m.tail ++ memberUnits ms

/-- If the members begin with a hyphen, there is nothing else. -/
def HyphenLast (ms : List BracketMember) : Prop :=
  (memberUnits ms).head? = some (unit '-') → ms = [.one (.plain (unit '-'))]

/-- The members are valid, and behind a single unit or a class a hyphen
stands at the end only. -/
def ValidMembers : List BracketMember → Prop
  | [] => True
  | .one a :: ms => a.Valid ∧ HyphenLast ms ∧ ValidMembers ms
  | .range lo hi :: ms => (BracketMember.range lo hi).Valid ∧ ValidMembers ms

/-! ## §5 Openings -/

/-- What stands between `(` and the body of a group. -/
inductive Opening where
  | numbered
  | plain
  /-- `?<name>`, or `?P<name>` when `long`. -/
  | named (long : Bool) (name : List CodeUnit)

namespace Opening

def units : Opening → List CodeUnit
  | numbered => []
  | plain => [unit '?', unit ':']
  | named false name => unit '?' :: unit '<' :: name ++ [unit '>']
  | named true name => unit '?' :: unit 'P' :: unit '<' :: name ++ [unit '>']

def Valid : Opening → Prop
  | named _ name => IsName name
  | numbered | plain => True

/-- How many groups it numbers: one, or none when it does not capture. -/
def groupCount : Opening → Nat
  | plain => 0
  | numbered | named _ _ => 1

/-- The number of the group when `n` groups come before it. -/
def index (n : Nat) : Opening → Option Nat
  | plain => none
  | numbered | named _ _ => some (n + 1)

/-- The name it gives, with the number of the group. -/
def names (n : Nat) : Opening → List (Text × Nat)
  | named _ name => [(name.toArray, n + 1)]
  | numbered | plain => []

end Opening

end Grammar

end LineRegex
