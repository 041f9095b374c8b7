/-
LineRegex.Config — what an application may tune, and how it is written.

  §1 Configurations  — the cache capacity and the options of every search.
  §2 Values          — the texts that denote sizes and modes.
  §3 Environments    — configurations from environment variables.
-/
import LineRegex.CodeUnit
import LineRegex.Options

namespace LineRegex

/-! ## §1 Configurations -/

/-- All that an application may tune. -/
structure Config where
  /-- The number of compiled patterns kept; 0 keeps none. -/
  cacheCapacity : Nat := defaultCacheCapacity
  find : FindOptions := {}
  deriving DecidableEq, Repr

/-! ## §2 Values -/

/-- The largest number that fits into 64 bits. -/
def maxSize : Nat := UInt64.size - 1

/-- The number that a decimal numeral denotes, if it fits into 64 bits. Only
digits are allowed, leading zeros among them. -/
def parseSize (text : Text) : Option Nat :=
  let digits := text.toList
  if digits.isEmpty || !digits.all CodeUnit.isDigit then none
  else
    let n := decimalValue digits
    if n ≤ maxSize then some n else none

/-- The mode of a name: `absolute`, or `line` or `line_relative`. -/
def parseOffsetMode (text : Text) : Option OffsetMode :=
  if text = .ofString "absolute" then some .absolute
  else if text = .ofString "line" || text = .ofString "line_relative" then some .lineRelative
  else none

/-- The policy of a name: `skip` or `skip_position`, or `abort`. -/
def parseExceededPolicy (text : Text) : Option ExceededPolicy :=
  if text = .ofString "skip" || text = .ofString "skip_position" then some .skipPosition
  else if text = .ofString "abort" then some .abort
  else none

/-! ## §3 Environments -/

/-- The values of variables, by name; unset variables have none. -/
abbrev Environment := String → Option Text

/-- The part of a text in front of its first zero unit, which is where the
value of a variable and an argument of a program end. -/
def Text.untilZero (text : Text) : Text := text.takeWhile (· != 0)

/-- A variable, and how a well-formed value of it changes a configuration. -/
structure Variable where
  name : String
  apply : Config → Text → Option Config

/-- The number of compiled patterns kept. -/
def Variable.cacheCapacity : Variable where
  name := "DEEPGREP_CACHE_CAPACITY"
  apply c value := (parseSize value).map fun n => { c with cacheCapacity := n }

/-- The steps allowed for one attempt; there must be some. -/
def Variable.stepBudget : Variable where
  name := "DEEPGREP_STEP_BUDGET"
  apply c value :=
    ((parseSize value).filter (· != 0)).map fun n => { c with find.budget := n }

/-- What offsets are counted from. -/
def Variable.offsets : Variable where
  name := "DEEPGREP_OFFSETS"
  apply c value := (parseOffsetMode value).map fun mode => { c with find.offsets := mode }

/-- What an exhausted budget leads to. -/
def Variable.onExceeded : Variable where
  name := "DEEPGREP_ON_EXCEEDED"
  apply c value := (parseExceededPolicy value).map fun p => { c with find.onExceeded := p }

/-- The variables, in the order in which they are read. -/
def Variable.all : List Variable := [cacheCapacity, stepBudget, offsets, onExceeded]

/-- The warning about a value that is ignored. -/
def Variable.warning (v : Variable) (value : Text) : Text :=
  .join ["ignoring ", v.name, "=\"", value, "\": malformed value"]

namespace Config

/-- Reads one variable; a malformed value changes nothing and adds a warning. -/
def readVariable (env : Environment) (found : Config × List Text) (v : Variable) :
    Config × List Text :=
  match (env v.name).map Text.untilZero with
  | none => found
  | some value =>
    match v.apply found.1 value with
    | some c => (c, found.2)
    | none => (found.1, found.2 ++ [v.warning value])

/-- The configuration that an environment asks for, with the warnings about
values that are ignored. -/
def fromEnvironment (env : Environment) : Config × List Text :=
  Variable.all.foldl (readVariable env) ({}, [])

end Config

end LineRegex
