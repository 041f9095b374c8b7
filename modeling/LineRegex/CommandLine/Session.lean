/-
LineRegex.CommandLine.Session — interactive sessions.

A session asks for one line after another and prints what comes of them.
It ends when there is no further line to read.

  §1 Input      — the lines of standard input.
  §2 Sessions   — a session as a machine that is fed with lines.
  §3 Printing   — prompts, statuses and lists of matches.
  §4 Searching  — a pattern and a target, over and over.
  §5 Replacing  — a pattern, a replacement and a target, over and over.
  §6 Compiling  — a pattern for many targets, compiled through a cache.
-/
import LineRegex.Engine
import LineRegex.Render
import LineRegex.Replace

namespace LineRegex

/-! ## §1 Input -/

/-- Puts a unit in front of the lines of what follows it. -/
def addToLines (u : CodeUnit) : List (List CodeUnit) → List (List CodeUnit)
  | [] => if u = unit '\n' then [[]] else [[u]]
  | line :: rest => if u = unit '\n' then [] :: line :: rest else (u :: line) :: rest

/-- The lines of an input, ended by line feeds; the last one may lack it. -/
def inputLines (input : Text) : List Text :=
  (input.toList.foldr addToLines []).map List.toArray

/-! ## §2 Sessions -/

/-- A dialogue with states `σ`. -/
structure Session (σ : Type) where
  initial : σ
  /-- What is printed before a line is read. -/
  prompt : σ → Text
  /-- The state after a line, and what is printed about it. -/
  feed : σ → Text → σ × Text
  /-- What is printed when the prompt finds no further line. -/
  finish : σ → Text

/-- What a session prints from a state on. -/
def Session.outputFrom {σ : Type} (session : Session σ) (s : σ) : List Text → Text
  | [] => session.prompt s ++ session.finish s
  | line :: rest =>
    let (next, out) := session.feed s line
    session.prompt s ++ out ++ session.outputFrom next rest

/-- What a session prints for an input. -/
def Session.output {σ : Type} (session : Session σ) (input : Text) : Text :=
  session.outputFrom session.initial (inputLines input)

/-! ## §3 Printing -/

/-- A question takes a line of its own. -/
def question (text : String) : Text := .join [text, "\n"]

/-- The warning about a status, unless it is success. -/
def statusWarning (s : Status) : Text :=
  if s = .success then #[] else .join ["warning: ", s.message, "\n"]

/-- Matches with their groups, on one line. -/
def matchList (ms : List Match) : Text :=
  .join [.joinWith ", " (ms.map Match.renderWithGroups), "\n"]

def askPattern : Text := question "input a pattern:"

def askTarget : Text := question "input a target string:"

def askReplacement : Text :=
  question "input a replacement string (\\1 .. \\9 refer to groups):"

def askNextTarget : Text :=
  question "input a target string(input ~ to set a new pattern):"

/-! ## §4 Searching -/

/-- The matches of a pattern in a target. -/
def searchReport (pattern target : Text) : Text :=
  let (status, ms) := findAll .narrow pattern target {}
  .join ["pattern: ", pattern, "\ntarget: ", target, "\n",
    if status.isSyntaxError then .join ["error: ", status.message, "\n"]
    else .join [statusWarning status, decimalText ms.length, " match(es): ", matchList ms]]

/-- Searches one target after another; the state is the pattern, once it is known. -/
def searchSession : Session (Option Text) where
  initial := none
  prompt
    | none => askPattern
    | some _ => askTarget
  feed
    | none, pattern => (some pattern, #[])
    | some pattern, target => (none, searchReport pattern target)
  finish _ := #[]

/-! ## §5 Replacing -/

/-- A target with the matches of a pattern replaced. -/
def replaceReport (pattern template target : Text) : Text :=
  let r := replace .narrow pattern target template maxSize {}
  .join ["pattern: \"", pattern, "\" -> replacement: \"", template, "\"\ntarget: ", target, "\n",
    if r.status.isSyntaxError then .join ["error: ", r.status.message, "\n"]
    else .join [statusWarning r.status, "after replacing ", decimalText r.count,
      " match(es): \n", r.text, "\n"]]

/-- What a replacement is still to be told. -/
inductive ReplaceState where
  | awaitsPattern
  | awaitsReplacement (pattern : Text)
  | awaitsTarget (pattern template : Text)
  deriving DecidableEq, Repr

/-- Replaces in one target after another. -/
def replaceSession : Session ReplaceState where
  initial := .awaitsPattern
  prompt
    | .awaitsPattern => askPattern
    | .awaitsReplacement _ => askReplacement
    | .awaitsTarget _ _ => askTarget
  feed
    | .awaitsPattern, pattern => (.awaitsReplacement pattern, #[])
    | .awaitsReplacement pattern, template => (.awaitsTarget pattern template, #[])
    | .awaitsTarget pattern template, target =>
      (.awaitsPattern, replaceReport pattern template target)
  finish _ := #[]

/-! ## §6 Compiling -/

/-- What a compiled pattern does with a target: matching the whole of it, and
searching it. -/
def targetReport {w : Width} (e : Engine w) (compiled : Compiled) (target : Text) : Text :=
  let full := (compiled.pattern.fullMatch e.config.find.budget target).verdict
  let (status, ms) := e.findCompiled compiled target
  .join [statusWarning full.status,
    match full.matched? with
    | some m => .join ["full match: ", m.renderWithGroups, "\n"]
    | none => "no full match\n",
    statusWarning status, "matches: ", matchList ms]

/-- What is said about a pattern that has been compiled. -/
def compiledNotice (c : Compiled) : Text :=
  .join ["pattern: ", c.source, ", ", decimalText c.pattern.groupCount, " group(s)\n"]

/-- What is said at the end about the use of the cache. -/
def cacheSummary {w : Width} (c : Cache w) : Text :=
  .join ["cache: ", decimalText c.hits, " hits, ", decimalText c.misses, " misses\n"]

/-- Compiles a pattern, or says what is wrong with it. -/
def compileLine (e : Engine .narrow) (pattern : Text) :
    (Engine .narrow × Option Compiled) × Text :=
  match e.compile pattern with
  | (.error err, e) => ((e, none), .join ["error: ", err.render, "\n"])
  | (.ok compiled, e) => ((e, some compiled), compiledNotice compiled)

/-- Compiles patterns and tries each on targets, until a tilde ends them. The
state is the engine, with the pattern in use. -/
def compileSession (config : Config) : Session (Engine .narrow × Option Compiled) where
  initial := (.new .narrow config, none)
  prompt
    | (_, none) => askPattern
    | (_, some _) => askNextTarget
  feed
    | (e, none), pattern => compileLine e pattern
    | (e, some compiled), target =>
      if target = .ofString "~" then ((e, none), #[])
      else ((e, some compiled), targetReport e compiled target)
  finish
    | (e, none) => cacheSummary e.cache
    | (e, some _) => askPattern ++ cacheSummary e.cache

/-- The compiling session with the configuration of an environment. -/
def compileSessionIn (env : Environment) : Session (Engine .narrow × Option Compiled) :=
  compileSession (Config.fromEnvironment env).1

end LineRegex
