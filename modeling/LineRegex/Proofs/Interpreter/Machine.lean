/-
LineRegex.Proofs.Interpreter.Machine — an attempt that looks up all it works with.

Work need not carry the trees that it is about. With the nodes of the pattern in a list, a
place says which node is meant, a number which group or branch, and a link which cell comes
next; the node itself, the slot of the group, the branch and the cell are looked up when they
are needed. Here a look-up that finds nothing, or nothing of the kind that is expected, is
not passed over: the whole attempt comes to a `Misaccess`.

  §1 Accesses  — `Accessing`, and the things that are looked up.
  §2 States    — `PlacedWork`, `Interpreter`.
  §3 Changes   — putting work in front, leaving an alternative behind, going back to it.
  §4 Items     — what each item of work does, and each kind of node.
  §5 Turns     — one after another, from the beginning of an attempt.
-/
import LineRegex.Pattern.Arena
import LineRegex.Proofs.Restoring

namespace LineRegex

/-! ## §1 Accesses -/

/-- What was looked up in vain. -/
inductive Misaccess where
  /-- A cell at the link. -/
  | cell (link : Nat)
  /-- A node at the place. -/
  | node (place : Nat)
  /-- A node at the place, of the kind that the item is about. -/
  | kind (place : Nat)
  /-- The branch with that number, counted from 0, of the alternation at the place. -/
  | branch (place number : Nat)
  /-- A slot for the group. -/
  | slot (group : Nat)
  /-- A unit at the position. -/
  | unit (position : Nat)
  /-- The units of the span. -/
  | span (s : Span)
  deriving DecidableEq, Repr

/-- A result that is there if all that it takes is found. -/
abbrev Accessing := Except Misaccess

/-- What was looked up, if it was found. -/
def lookUp {α : Type} (missing : Misaccess) : Option α → Accessing α
  | some a => .ok a
  | none => .error missing

/-- The node at a place. -/
def nodeAt (nodes : List Node) (place : Nat) : Accessing Node := lookUp (.node place) nodes[place]?

/-- The index and the body of the group at a place. -/
def groupAt (nodes : List Node) (place : Nat) : Accessing (Option Nat × Nat) := do
  match ← nodeAt nodes place with
  | .group index body => return (index, body)
  | _ => .error (.kind place)

/-- The body and the bounds of the quantifier at a place. -/
def quantifierAt (nodes : List Node) (place : Nat) : Accessing (Nat × Bounds) := do
  match ← nodeAt nodes place with
  | .quantified body bounds => return (body, bounds)
  | _ => .error (.kind place)

/-- The branches of the alternation at a place. -/
def branchesAt (nodes : List Node) (place : Nat) : Accessing (List Nat) := do
  match ← nodeAt nodes place with
  | .alternation branches => return branches
  | _ => .error (.kind place)

/-- The units of a span, or as many of them as there are. The span must run forwards and
begin in the text. -/
def unitsAt (text : Text) (s : Span) : Accessing Text :=
  if s.start ≤ s.stop ∧ s.start ≤ text.size then .ok (s.slice text) else .error (.span s)

/-! ## §2 States -/

/-- One thing that remains to be done, about the node at a place. -/
inductive PlacedWork where
  /-- Match the node at the cursor. -/
  | visit (place : Nat)
  /-- Capture from `start` up to the cursor for the group. -/
  | close (place start : Nat)
  /-- Decide about another repetition, after `count` of them. -/
  | iterate (place count : Nat)
  /-- The repetition number `count`, which began at `start`, is complete. -/
  | iterated (place count start : Nat)
  /-- Match the branch with that number, or else one behind it. -/
  | branch (place number : Nat)

/-- An item of work and the cell of the next one. -/
structure PlacedCell where
  work : PlacedWork
  next : Option Nat

/-- An attempt at some point of its course. -/
structure Interpreter where
  cells : Array PlacedCell
  /-- The cell of the first item of work. -/
  next : Option Nat
  cursor : Nat
  /-- The spans of the groups, each at its number; the slot 0 belongs to the whole match. -/
  slots : Array (Option Span)
  /-- Groups and the spans they had before they were overwritten, newest last. -/
  undo : Array (Nat × Option Span)
  /-- The alternatives, newest first. -/
  choices : List Choice

namespace Interpreter

/-- The state in which nothing but matching the root of the pattern remains. -/
def initial (p : Pattern) (start : Nat) : Interpreter where
  cells := #[⟨.visit p.rootPlace, none⟩]
  next := some 0
  cursor := start
  slots := Array.replicate (p.groupCount + 1) none
  undo := #[]
  choices := []

/-- What going back to the state takes, as long as cells and log do not get shorter. -/
def now (s : Interpreter) : Choice := ⟨s.next, s.cursor, s.undo.size, s.cells.size⟩

/-! ## §3 Changes -/

/-- Puts an item in front of all that remains. -/
def push (s : Interpreter) (work : PlacedWork) : Interpreter :=
  { s with cells := s.cells.push ⟨work, s.next⟩, next := some s.cells.size }

/-- Leaves an alternative behind that does all that remains. -/
def leave (s : Interpreter) : Interpreter := { s with choices := s.now :: s.choices }

/-- Leaves an alternative behind that does the item and then all that remains. -/
def fork (s : Interpreter) (work : PlacedWork) : Interpreter :=
  { (s.push work).leave with next := s.next }

/-- Sets the span of a group and logs the one it had. -/
def capture (s : Interpreter) (group : Nat) (span : Span) : Accessing Interpreter := do
  let old ← lookUp (.slot group) s.slots[group]?
  return { s with
    undo := s.undo.push (group, old)
    slots := s.slots.setIfInBounds group (some span) }

/-- Undoes the newest changes until the log has `size` entries. -/
def undoTo (size : Nat) (undo : Array (Nat × Option Span)) (slots : Array (Option Span)) :
    Accessing (Array (Nat × Option Span) × Array (Option Span)) :=
  if h : size < undo.size then
    let (group, span) := undo.back
    if group < slots.size then undoTo size undo.pop (slots.setIfInBounds group span)
    else .error (.slot group)
  else .ok (undo, slots)
termination_by undo.size
decreasing_by simp only [Array.size_pop]; omega

/-- Goes back to the newest alternative, if one is left. -/
def backtrack (s : Interpreter) : Accessing (Option Interpreter) :=
  match s.choices with
  | [] => .ok none
  | choice :: choices => do
    let (undo, slots) ← undoTo choice.undoSize s.undo s.slots
    return some {
      cells := s.cells.shrink choice.cellCount
      next := choice.next
      cursor := choice.cursor
      slots, undo, choices }

/-! ## §4 Items -/

/-- Consumes one unit if there is one and it is accepted. -/
def consumeIf (text : Text) (accepts : CodeUnit → Bool) (s : Interpreter) :
    Accessing (Option Interpreter) :=
  if s.cursor < text.size then do
    let u ← lookUp (.unit s.cursor) text[s.cursor]?
    return if accepts u then some { s with cursor := s.cursor + 1 } else none
  else return none

/-- Consumes nothing if the condition holds. -/
def proceedIf (condition : Bool) (s : Interpreter) : Option Interpreter :=
  if condition then some s else none

/-- Consumes what a group captured last, if it did and that comes next. -/
def consumeCaptured (text : Text) (group : Nat) (s : Interpreter) :
    Accessing (Option Interpreter) := do
  match ← lookUp (.slot group) s.slots[group]? with
  | none => return none
  | some span => do
    let captured ← unitsAt text span
    let stop := s.cursor + captured.size
    let ahead ← unitsAt text ⟨s.cursor, stop⟩
    return if ahead = captured then some { s with cursor := stop } else none

/-- Tries a branch and leaves those behind it as the alternative. -/
def tryBranch (nodes : List Node) (place number : Nat) (s : Interpreter) :
    Accessing Interpreter := do
  let branches ← branchesAt nodes place
  let chosen ← lookUp (.branch place number) branches[number]?
  let s := if number + 1 < branches.length then s.fork (.branch place (number + 1)) else s
  return s.push (.visit chosen)

/-- Decides about another repetition: as many as possible come first, and stopping is the
alternative once there are enough. -/
def iterate (nodes : List Node) (place count : Nat) (s : Interpreter) :
    Accessing Interpreter := do
  let (body, bounds) ← quantifierAt nodes place
  if bounds.isReached count then return s
  else
    let s := if bounds.min ≤ count then s.leave else s
    return (s.push (.iterated place (count + 1) s.cursor)).push (.visit body)

/-- Ends a repetition. One that consumed nothing would go on forever, so beyond the minimum
it is the last. -/
def iterated (nodes : List Node) (place count start : Nat) (s : Interpreter) :
    Accessing Interpreter := do
  let (_, bounds) ← quantifierAt nodes place
  return if s.cursor = start && bounds.min < count then s else s.push (.iterate place count)

/-- Ends a group that captures. -/
def close (nodes : List Node) (place start : Nat) (s : Interpreter) : Accessing Interpreter := do
  let (index, _) ← groupAt nodes place
  let group ← lookUp (.kind place) index
  s.capture group ⟨start, s.cursor⟩

/-- Matches the node at a place. -/
def visit (nodes : List Node) (text : Text) (place : Nat) (s : Interpreter) :
    Accessing (Option Interpreter) := do
  match ← nodeAt nodes place with
  | .unit u => s.consumeIf text (· == u)
  | .charClass c => s.consumeIf text c.accepts
  | .any => s.consumeIf text (!·.isLineTerminator)
  | .anchor .lineStart => return s.proceedIf (s.cursor == 0)
  | .anchor .lineEnd => return s.proceedIf (s.cursor == text.size)
  | .group index body =>
    let s := if index.isSome then s.push (.close place s.cursor) else s
    return some (s.push (.visit body))
  | .backreference group => s.consumeCaptured text group
  | .concat items => return some (items.foldr (fun item s => s.push (.visit item)) s)
  | .alternation _ => return some (← s.tryBranch nodes place 0)
  | .quantified _ _ => return some (s.push (.iterate place 0))

/-- The state after an item, or nothing when it fails. -/
def execute (nodes : List Node) (text : Text) (s : Interpreter) :
    PlacedWork → Accessing (Option Interpreter)
  | .visit place => s.visit nodes text place
  | .close place start => return some (← s.close nodes place start)
  | .iterate place count => return some (← s.iterate nodes place count)
  | .iterated place count start => return some (← s.iterated nodes place count start)
  | .branch place number => return some (← s.tryBranch nodes place number)

/-! ## §5 Turns -/

/-- The spans of the capturing groups alone. -/
def captures (s : Interpreter) : Captures := s.slots.extract 1

/-- One turn: the next item takes effect, or fails and hands over to the newest alternative. -/
def turn (nodes : List Node) (text : Text) (s : Interpreter) : Accessing (Turn Interpreter) :=
  match s.next with
  | none => return .rest ⟨s.cursor, s.captures⟩ (← s.backtrack)
  | some link => do
    let cell ← lookUp (.cell link) s.cells[link]?
    let s := { s with next := cell.next }
    match ← s.execute nodes text cell.work with
    | some t => return .work (some t)
    | none => return .work (← s.backtrack)

/-- A turn of the machine that gives up where a look-up finds nothing. -/
def turnOrGiveUp (nodes : List Node) (text : Text) (s : Interpreter) : Turn Interpreter :=
  match s.turn nodes text with
  | .ok t => t
  | .error _ => .work none

end Interpreter

/-- The state of an attempt after a number of turns, if there are so many when nothing is
accepted. Behind the end of the text there is no position to begin at. -/
def Pattern.interpreterAfter (p : Pattern) (text : Text) (start : Nat) :
    Nat → Accessing (Option Interpreter)
  | 0 => .ok (if text.size < start then none else some (.initial p start))
  | n + 1 => do
    match ← p.interpreterAfter text start n with
    | none => return none
    | some s => return (← s.turn p.nodes text).next?

end LineRegex
