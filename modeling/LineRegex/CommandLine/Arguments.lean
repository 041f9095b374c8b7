/-
LineRegex.CommandLine.Arguments — the command line `[options] PATTERN [FILE...]`.

    -c                   print the number of matches per file only
    -o                   print the matched text only
    -g                   print capture groups as well
    -v                   print cache statistics
    --budget N           steps allowed for a single match attempt
    --cache N            compiled patterns kept in the cache
    --abort-on-exceeded  stop scanning a file once an attempt runs out of steps
    --line-offsets       report offsets relative to the line
    --                   what follows is the pattern

Options stand in front of the pattern; what follows it are operands, even
if they look like options. A later option overrides an earlier one.

  §1 Settings  — what the options choose.
  §2 Options   — flags, and options with a size.
  §3 Faults    — why a command line is refused.
  §4 Reading   — from arguments to a command.
-/
import LineRegex.Config

namespace LineRegex

/-! ## §1 Settings -/

/-- What the options of a command line choose. -/
structure Settings where
  config : Config
  countOnly : Bool := false
  onlyMatching : Bool := false
  withGroups : Bool := false
  verbose : Bool := false
  deriving DecidableEq, Repr

/-- A command line that can be carried out. -/
structure Command where
  settings : Settings
  pattern : Text
  /-- The files to search. -/
  operands : List Text
  deriving DecidableEq, Repr

/-! ## §2 Options -/

/-- An option without a value. -/
inductive Flag where
  | countOnly
  | onlyMatching
  | withGroups
  | verbose
  | abortOnExceeded
  | lineOffsets
  deriving DecidableEq, Repr

namespace Flag

/-- The flag of an argument. -/
def ofText? (arg : Text) : Option Flag :=
  if arg = .ofString "-c" then some countOnly
  else if arg = .ofString "-o" then some onlyMatching
  else if arg = .ofString "-g" then some withGroups
  else if arg = .ofString "-v" then some verbose
  else if arg = .ofString "--abort-on-exceeded" then some abortOnExceeded
  else if arg = .ofString "--line-offsets" then some lineOffsets
  else none

/-- The settings with a flag set. -/
def apply (s : Settings) : Flag → Settings
  | countOnly => { s with countOnly := true }
  | onlyMatching => { s with onlyMatching := true }
  | withGroups => { s with withGroups := true }
  | verbose => { s with verbose := true }
  | abortOnExceeded => { s with config.find.onExceeded := .abort }
  | lineOffsets => { s with config.find.offsets := .lineRelative }

end Flag

/-- An option whose value is a size. -/
inductive SizeOption where
  | budget
  | cache
  deriving DecidableEq, Repr

namespace SizeOption

/-- The sized option of an argument. -/
def ofText? (arg : Text) : Option SizeOption :=
  if arg = .ofString "--budget" then some budget
  else if arg = .ofString "--cache" then some cache
  else none

/-- The settings with a size set; a budget allows at least one step. -/
def setSize (s : Settings) (n : Nat) : SizeOption → Option Settings
  | budget => if n = 0 then none else some { s with config.find.budget := n }
  | cache => some { s with config.cacheCapacity := n }

end SizeOption

/-! ## §3 Faults -/

/-- Why a command line is refused. -/
inductive ArgumentFault where
  | missingPattern
  | missingValue (option : Text)
  | notANumber (option value : Text)
  | zeroBudget
  | unknownOption (arg : Text)
  deriving DecidableEq, Repr

/-- What is said about a fault, in front of the usage; some faults are left
to the usage alone. -/
def ArgumentFault.message : ArgumentFault → Text
  | missingPattern => #[]
  | missingValue option => .join ["deepgrep: ", option, " needs a value\n"]
  | notANumber option value => .join ["deepgrep: ", option, ": not a number: ", value, "\n"]
  | zeroBudget => #[]
  | unknownOption arg => .join ["deepgrep: unknown option ", arg, "\n"]

/-! ## §4 Reading -/

/-- Whether an argument in front of the pattern has the form of an option. A
hyphen alone has not. -/
def looksLikeOption (arg : Text) : Bool := 1 < arg.size && arg[0]? == some (unit '-')

/-- Reads arguments, with the settings that those in front of them chose. -/
def readArguments (s : Settings) : List Text → Except ArgumentFault Command
  | [] => .error .missingPattern
  | arg :: rest =>
    match Flag.ofText? arg with
    | some flag => readArguments (flag.apply s) rest
    | none =>
      match SizeOption.ofText? arg with
      | some option =>
        match rest with
        | [] => .error (.missingValue arg)
        | value :: rest =>
          match parseSize value with
          | none => .error (.notANumber arg value)
          | some n =>
            match option.setSize s n with
            | none => .error .zeroBudget
            | some s => readArguments s rest
      | none =>
        if arg = .ofString "--" then
          match rest with
          | [] => .error .missingPattern
          | pattern :: operands => .ok ⟨s, pattern, operands⟩
        else if looksLikeOption arg then .error (.unknownOption arg)
        else .ok ⟨s, arg, rest⟩

/-- The command of a command line, on top of a configuration. -/
def Command.ofArguments (config : Config) (args : List Text) : Except ArgumentFault Command :=
  readArguments { config } (args.map Text.untilZero)

/-- The operands in effect: without any, standard input is searched. -/
def Command.effectiveOperands (c : Command) : List Text :=
  if c.operands.isEmpty then [.ofString "-"] else c.operands

end LineRegex
