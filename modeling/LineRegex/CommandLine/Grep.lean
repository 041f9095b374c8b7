/-
LineRegex.CommandLine.Grep — searching files and printing what matches.

Every match is printed on a line of its own. The exit status is 0 if
anything matched, 1 if nothing did, and 2 if the command line or the
pattern was refused or an operand could not be opened. An operand that can
be opened but not be read, such as a directory, is a failure that nothing
handles: it aborts the program.

  §1 Surroundings  — what a program is given, and what it leaves behind.
  §2 Operands      — `-` is standard input, which can be read only once.
  §3 Records       — the line printed for a match.
  §4 Reports       — what is printed for an operand.
  §5 The program   — `grep`.
-/
import LineRegex.CommandLine.Arguments
import LineRegex.Engine
import LineRegex.Render

namespace LineRegex

/-! ## §1 Surroundings -/

/-- What comes of reading a file. -/
inductive Reading where
  | content (text : Text)
  /-- The file cannot be opened. -/
  | unopened
  /-- The file can be opened, but reading it breaks off with an exception, as it does for a
  directory; with the notice that an exception leaves which nobody catches. -/
  | brokenOff (notice : Text)
  deriving DecidableEq, Repr

namespace Reading

/-- The content, if all of it could be read. -/
def content? : Reading → Option Text
  | content text => some text
  | unopened => none
  | brokenOff _ => none

/-- The notice about an exception, if there was one. -/
def notice? : Reading → Option Text
  | content _ => none
  | unopened => none
  | brokenOff notice => some notice

/-- A file with a content can be read, and one without cannot be opened. -/
instance : Coe (Option Text) Reading where
  coe content := (content.map .content).getD .unopened

end Reading

/-- What a program is given besides its arguments. -/
structure Surroundings where
  env : Environment
  files : Text → Reading
  /-- What can be read from standard input. That it cannot be read on is taken for its end. -/
  input : Text

/-- What a program leaves behind. -/
structure Printed where
  exit : Nat
  /-- What has been written to standard output. When the program is aborted, what its buffer
  still holds does not get there. -/
  out : Text
  err : Text
  deriving DecidableEq, Repr

/-! ## §2 Operands -/

/-- The operand that stands for standard input. -/
def standardInput : Text := .ofString "-"

/-- Reads an operand, with what is left of standard input. -/
def readOperand (files : Text → Reading) (input operand : Text) : Reading :=
  if operand = standardInput then .content input else files operand

/-- What is left of standard input behind an operand. -/
def leftBehind (input operand : Text) : Text := if operand = standardInput then #[] else input

/-- The operands with their contents, if they can be read, up to the first one that reading
breaks off on. -/
def contents (files : Text → Reading) (input : Text) : List Text → List (Text × Option Text)
  | [] => []
  | operand :: rest =>
    let reading := readOperand files input operand
    if reading.notice?.isSome then []
    else (operand, reading.content?) :: contents files (leftBehind input operand) rest

/-- The notice about the first operand that reading breaks off on, if there is one. -/
def breakOff? (files : Text → Reading) (operands : List Text) : Option Text :=
  operands.findSome? fun operand => (readOperand files #[] operand).notice?

/-- The name that an operand is reported under. -/
def displayName (operand : Text) : Text :=
  if operand = standardInput then .ofString "(standard input)" else operand

/-! ## §3 Records -/

/-- The record of a match in the named operand. Lines are counted from 1. -/
def record (s : Settings) (name : Text) (m : Match) : Text :=
  if s.onlyMatching then .join [m.text, "\n"]
  else if s.withGroups then
    .join [name, ":", decimalText (m.line + 1), ": ", m.renderWithGroups, "\n"]
  else
    .join [name, ":", decimalText (m.line + 1), ":", decimalText m.whole.start, ": ", m.text, "\n"]

/-- The record of a number of matches in the named operand. -/
def countRecord (name : Text) (count : Nat) : Text := .join [name, ":", decimalText count, "\n"]

/-! ## §4 Reports -/

/-- What the search of an operand yields. -/
structure Report where
  /-- The number of matches, unless the operand could not be read. -/
  found : Option Nat
  out : Text
  err : Text
  deriving DecidableEq, Repr

/-- The notice that positions were given up for lack of budget. -/
def exceededNotice (name : Text) (r : MatchRange) : Text :=
  if r.status = .budgetExceeded then
    .join ["deepgrep: ", name, ": ", r.status.message, ", ", decimalText r.abandoned,
      " start positions skipped\n"]
  else #[]

/-- Searches the content of an operand. -/
def reportMatches (s : Settings) (name : Text) (range : MatchRange) : Report :=
  let (ms, r) := range.start.drain
  { found := some ms.length
    out :=
      if s.countOnly then countRecord name ms.length else .join (ms.map (record s name))
    err := exceededNotice name r }

/-- Searches an operand, if it can be read. -/
def report {w : Width} (e : Engine w) (compiled : Compiled) (s : Settings)
    (operand : Text × Option Text) : Report :=
  match operand.2 with
  | none => ⟨none, #[], .join ["deepgrep: ", operand.1, ": cannot read\n"]⟩
  | some text => reportMatches s (displayName operand.1) (e.matchesOf compiled text)

/-! ## §5 The program -/

/-- How the program is used. -/
def usage : Text :=
  .join ["usage: deepgrep [-c] [-o] [-g] [-v] [--budget N] [--cache N] ",
    "[--abort-on-exceeded] [--line-offsets] PATTERN [FILE...]\n"]

/-- The complaint about a malformed pattern, with a mark below the offending unit. -/
def patternComplaint (pattern : Text) (e : SyntaxError) : Text :=
  .join ["deepgrep: bad pattern: ", e.render, "\n  ", pattern, "\n  ",
    Array.replicate e.position (unit ' '), "^\n"]

/-- What the cache has been used for. -/
def cacheStatistics {w : Width} (c : Cache w) : Text :=
  .join ["cache: ", decimalText c.size, " of ", decimalText c.capacity, " entries, ",
    decimalText c.hits, " hits, ", decimalText c.misses, " misses, ",
    decimalText c.evictions, " evictions\n"]

/-- The exit status of a program that is aborted. -/
def abortStatus : Nat := 134

/-- The exit status after all operands have been searched. -/
def exitStatus (reports : List Report) : Nat :=
  if reports.any (·.found.isNone) then 2
  else if reports.any fun r => r.found.any (0 < ·) then 0
  else 1

/-- Carries out a command. -/
def Command.run (c : Command) (files : Text → Reading) (input : Text) : Printed :=
  match (Engine.new .narrow c.settings.config).compile c.pattern with
  | (.error err, _) => ⟨2, #[], patternComplaint c.pattern err⟩
  | (.ok compiled, e) =>
    let reports := (contents files input c.effectiveOperands).map (report e compiled c.settings)
    let out := .join (reports.map (·.out))
    let err := .join (reports.map (·.err))
    match breakOff? files c.effectiveOperands with
    | some notice => ⟨abortStatus, out, err ++ notice⟩
    | none =>
      let statistics := if c.settings.verbose then cacheStatistics e.cache else #[]
      ⟨exitStatus reports, out, err ++ statistics⟩

/-- The program: the environment first, then the arguments, then the search. -/
def grep (s : Surroundings) (args : List Text) : Printed :=
  let (config, warnings) := Config.fromEnvironment s.env
  let complaints : Text := .join (warnings.map fun w => .join ["deepgrep: ", w, "\n"])
  match Command.ofArguments config args with
  | .error fault => ⟨2, #[], complaints ++ fault.message ++ usage⟩
  | .ok command =>
    let printed := command.run s.files s.input
    { printed with err := complaints ++ printed.err }

end LineRegex
