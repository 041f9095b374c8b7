/-
LineRegex.Matcher.Work — the single steps of a match attempt.

An attempt is a list of work that remains to be done, a cursor into the
line, and the captures so far. One step takes the first item of the list
and either fails or has an effect: it moves the cursor, records a capture,
puts new work in front, and may offer an alternative to return to.

  §1 Work     — the kinds of items.
  §2 Effects  — what an item does, as a function of line, cursor and captures.
-/
import LineRegex.Match

namespace LineRegex

/-! ## §1 Work -/

/-- Whether as many repetitions as allowed are complete. -/
def Bounds.isReached (b : Bounds) (count : Nat) : Bool := b.max.any (· ≤ count)

/-- One thing that remains to be done. -/
inductive Work where
  /-- Match the tree at the cursor. -/
  | visit (r : Regex)
  /-- Capture from `start` up to the cursor for the group. -/
  | close (group start : Nat)
  /-- Decide about another repetition, after `count` of them. -/
  | iterate (body : Regex) (bounds : Bounds) (count : Nat)
  /-- The repetition number `count`, which began at `start`, is complete. -/
  | iterated (body : Regex) (bounds : Bounds) (count start : Nat)
  /-- Match `first`, or else one of `others`. -/
  | branch (first : Regex) (others : List Regex)

/-! ## §2 Effects -/

/-- What a step does when it does not fail. -/
structure Effect where
  /-- Where the cursor stands afterwards. -/
  cursor : Nat
  /-- The group that captures, and its span. -/
  record : Option (Nat × Span) := none
  /-- Work to do instead of `push`, from where the step began, if what
  follows fails. -/
  fork : Option (List Work) := none
  /-- Work that comes before all that remained. -/
  push : List Work := []

/-- Consumes one unit if there is one and it is accepted. -/
def consumeIf (accepts : CodeUnit → Bool) (text : Text) (cursor : Nat) : Option Effect :=
  match text[cursor]? with
  | some u => if accepts u then some { cursor := cursor + 1 } else none
  | none => none

/-- Consumes nothing if the condition holds. -/
def proceedIf (condition : Bool) (cursor : Nat) : Option Effect :=
  if condition then some { cursor } else none

/-- Consumes the units `captured` if they come next. -/
def consumeText (captured line : Text) (cursor : Nat) : Option Effect :=
  if line.extract cursor (cursor + captured.size) = captured then
    some { cursor := cursor + captured.size }
  else none

section Leaves

-- A leaf moves the cursor and nothing else, so what keeps such effects keeps its effect.
variable {f : Effect → Effect} (hf : ∀ c, f { cursor := c } = { cursor := c })
include hf

theorem map_consumeIf (accepts : CodeUnit → Bool) (text : Text) (cursor : Nat) :
    (consumeIf accepts text cursor).map f = consumeIf accepts text cursor := by
  unfold consumeIf
  split
  · split
    · exact congrArg some (hf (cursor + 1))
    · rfl
  · rfl

theorem map_proceedIf (condition : Bool) (cursor : Nat) :
    (proceedIf condition cursor).map f = proceedIf condition cursor := by
  unfold proceedIf
  split
  · exact congrArg some (hf cursor)
  · rfl

theorem map_consumeText (captured line : Text) (cursor : Nat) :
    (consumeText captured line cursor).map f = consumeText captured line cursor := by
  unfold consumeText
  split
  · exact congrArg some (hf (cursor + captured.size))
  · rfl

end Leaves

/-- Tries the first branch and leaves the others as the alternative. -/
def tryBranch (first : Regex) (others : List Regex) (cursor : Nat) : Effect :=
  { cursor
    fork :=
      match others with
      | [] => none
      | next :: rest => some [.branch next rest]
    push := [.visit first] }

namespace Work

/-- The effect of matching a tree. -/
def visitEffect (line : Text) (cursor : Nat) (captures : Captures) : Regex → Option Effect
  | .unit u => consumeIf (· == u) line cursor
  | .charClass c => consumeIf c.accepts line cursor
  | .any => consumeIf (!·.isLineTerminator) line cursor
  | .anchor .lineStart => proceedIf (cursor == 0) cursor
  | .anchor .lineEnd => proceedIf (cursor == line.size) cursor
  | .group none body => some { cursor, push := [visit body] }
  | .group (some g) body => some { cursor, push := [visit body, close g cursor] }
  | .backreference g =>
    match captures.span g with
    | none => none
    | some s => consumeText (s.slice line) line cursor
  | .concat items => some { cursor, push := items.map visit }
  | .alternation [] => none
  | .alternation (first :: others) => some (tryBranch first others cursor)
  | .quantified body bounds => some { cursor, push := [iterate body bounds 0] }

/-- The effect of deciding about another repetition: as many as possible
come first, and stopping is the alternative once there are enough. -/
def iterateEffect (cursor : Nat) (body : Regex) (bounds : Bounds) (count : Nat) : Effect :=
  if bounds.isReached count then { cursor }
  else
    { cursor
      fork := if bounds.min ≤ count then some [] else none
      push := [visit body, iterated body bounds (count + 1) cursor] }

/-- The effect of a complete repetition. One that consumed nothing would go
on forever, so beyond the minimum it is the last. -/
def iteratedEffect (cursor : Nat) (body : Regex) (bounds : Bounds) (count start : Nat) : Effect :=
  if cursor = start && bounds.min < count then { cursor }
  else { cursor, push := [iterate body bounds count] }

/-- The effect of an item, or nothing when it fails. -/
def effect (line : Text) (cursor : Nat) (captures : Captures) : Work → Option Effect
  | visit r => visitEffect line cursor captures r
  | close g start => some { cursor, record := some (g, ⟨start, cursor⟩) }
  | iterate body bounds count => some (iterateEffect cursor body bounds count)
  | iterated body bounds count start => some (iteratedEffect cursor body bounds count start)
  | branch first others => some (tryBranch first others cursor)

end Work

/-- The captures after a step. -/
def Effect.captured (e : Effect) (captures : Captures) : Captures :=
  match e.record with
  | none => captures
  | some (g, s) => captures.record g (some s)

end LineRegex
