/-
LineRegex.UnitRange — inclusive ranges of code units and sets given by them.

A set of units is written as a list of ranges. The list is in normal form
when it is sorted and a gap of at least one unit lies between neighbours;
`normalize` brings any list there, `complement` stays there.

  §1 Ranges              — membership.
  §2 Normal form         — `normalize` sorts, then merges what overlaps or touches.
  §3 Complement          — the gaps of a normalized list, up to the last unit.
  §4 Shorthand classes   — digits, word units and spaces, and their complements.
  §5 Character classes   — a list of ranges, possibly negated.
-/
import LineRegex.CodeUnit

namespace LineRegex

/-! ## §1 Ranges -/

/-- The units from `lo` to `hi`, both included. -/
structure UnitRange where
  lo : CodeUnit
  hi : CodeUnit
  deriving DecidableEq, Repr

namespace UnitRange

/-- The range of a single unit. -/
def single (u : CodeUnit) : UnitRange := ⟨u, u⟩

/-- Whether a unit lies in the range. -/
def contains (r : UnitRange) (u : CodeUnit) : Bool := r.lo ≤ u && u ≤ r.hi

/-- The order by lower end, then by upper end. -/
def le (r s : UnitRange) : Bool := r.lo < s.lo || r.lo == s.lo && r.hi ≤ s.hi

/-- Whether some range of the list contains the unit. -/
def covers (ranges : List UnitRange) (u : CodeUnit) : Bool := ranges.any (·.contains u)

/-! ## §2 Normal form -/

/-- Merges a sorted list: `last` is the newest range, which grows as long as
the next one overlaps it or begins right behind it. -/
def mergeFrom (last : UnitRange) : List UnitRange → List UnitRange
  | [] => [last]
  | r :: rest =>
    if r.lo ≤ last.hi + 1 then mergeFrom ⟨last.lo, max last.hi r.hi⟩ rest
    else last :: mergeFrom r rest

/-- Merges the ranges of a sorted list that overlap or touch. -/
def merge : List UnitRange → List UnitRange
  | [] => []
  | r :: rest => mergeFrom r rest

/-- The normal form of a list of ranges: sorted, and no two ranges overlap or touch. -/
def normalize (ranges : List UnitRange) : List UnitRange := merge (ranges.mergeSort le)

/-! ## §3 Complement -/

/-- The units from `next` to `maxUnit` that a normalized list leaves out. -/
def complementFrom (maxUnit next : CodeUnit) : List UnitRange → List UnitRange
  | [] => [⟨next, maxUnit⟩]
  | r :: rest =>
    (if next < r.lo then [⟨next, r.lo - 1⟩] else []) ++
      (if r.hi = maxUnit then [] else complementFrom maxUnit (r.hi + 1) rest)

/-- The units of the width that a normalized list leaves out, as a normalized list. -/
def complement (w : Width) (ranges : List UnitRange) : List UnitRange :=
  complementFrom w.maxUnit 0 ranges

end UnitRange

/-! ## §4 Shorthand classes -/

/-- The classes with a one-letter escape. -/
inductive Shorthand where
  | digits
  | words
  | spaces
  | nonDigits
  | nonWords
  | nonSpaces
  deriving DecidableEq, Repr

namespace Shorthand

/-- The class of an escape letter: `d`, `w`, `s`, and upper case for the complements. -/
def ofUnit? (u : CodeUnit) : Option Shorthand :=
  if u = unit 'd' then some digits
  else if u = unit 'w' then some words
  else if u = unit 's' then some spaces
  else if u = unit 'D' then some nonDigits
  else if u = unit 'W' then some nonWords
  else if u = unit 'S' then some nonSpaces
  else none

/-- `0` to `9`. -/
def digitRanges : List UnitRange := [⟨unit '0', unit '9'⟩]

/-- Digits, upper case letters, the underscore and lower case letters. -/
def wordRanges : List UnitRange :=
  [⟨unit '0', unit '9'⟩, ⟨unit 'A', unit 'Z'⟩, .single (unit '_'), ⟨unit 'a', unit 'z'⟩]

/-- Tab, line feed, vertical tab, form feed, carriage return, and the space. -/
def spaceRanges : List UnitRange := [⟨unit '\t', unit '\r'⟩, .single (unit ' ')]

/-- The units of a shorthand class, as a normalized list. -/
def ranges (w : Width) : Shorthand → List UnitRange
  | digits => digitRanges
  | words => wordRanges
  | spaces => spaceRanges
  | nonDigits => UnitRange.complement w digitRanges
  | nonWords => UnitRange.complement w wordRanges
  | nonSpaces => UnitRange.complement w spaceRanges

end Shorthand

/-! ## §5 Character classes -/

/-- A set of units: those of the ranges, or all others when negated. -/
structure CharClass where
  ranges : List UnitRange
  negated : Bool
  deriving DecidableEq, Repr

/-- Whether the class contains the unit. -/
def CharClass.accepts (c : CharClass) (u : CodeUnit) : Bool :=
  UnitRange.covers c.ranges u != c.negated

end LineRegex
