/-
LineRegex.Options — the choices that a search leaves to its caller.

  §1 Modes    — what offsets refer to, and what an exhausted budget leads to.
  §2 Options  — both modes and the budget, with their defaults.
  §3 Caching  — how many compiled patterns are worth keeping.
-/

namespace LineRegex

/-! ## §1 Modes -/

/-- What the offsets of a match are counted from. -/
inductive OffsetMode where
  /-- The beginning of the whole text. -/
  | absolute
  /-- The beginning of the line that the match was found on. -/
  | lineRelative
  deriving DecidableEq, Repr

/-- What a search does when an attempt exceeds its budget. -/
inductive ExceededPolicy where
  /-- Give up on this start position and go on with the next. -/
  | skipPosition
  /-- End the search with what was found so far. -/
  | abort
  deriving DecidableEq, Repr

/-! ## §2 Options -/

/-- The steps that an attempt may take unless the caller says otherwise. -/
def defaultBudget : Nat := 1000000

/-- The choices of a search. -/
structure FindOptions where
  /-- The number of steps allowed for one attempt. -/
  budget : Nat := defaultBudget
  offsets : OffsetMode := .absolute
  onExceeded : ExceededPolicy := .skipPosition
  deriving DecidableEq, Repr

/-! ## §3 Caching -/

/-- The number of compiled patterns kept unless the caller says otherwise. -/
def defaultCacheCapacity : Nat := 128

end LineRegex
