/-
LineRegex.Pattern.Draft — a pattern that has been read in part.

A draft holds, for the group being read and for each group around it, the
branches and items that are complete so far. Reading a bar, an opening or
a closing parenthesis, or a complete item takes one draft to the next.

  §1 Levels  — the branches and items of one group.
  §2 Drafts  — a level for the innermost group and a frame for each open one.
  §3 Steps   — what bars, parentheses and items do to a draft.
  §4 Ends    — a draft without open groups becomes a pattern once every
               backreference is found to name a group.
-/
import LineRegex.Pattern.Escape
import LineRegex.Pattern.GroupOpener

namespace LineRegex

/-! ## §1 Levels -/

/-- The content of one group as far as it has been read, newest first. -/
structure Level where
  /-- The branches in front of the last bar. -/
  branches : List (Expr Reference)
  /-- The items behind the last bar. -/
  items : List (Expr Reference)

namespace Level

/-- A level of which nothing has been read. -/
def empty : Level := ⟨[], []⟩

/-- Adds an item at the end of the last branch. -/
def push (l : Level) (item : Expr Reference) : Level := { l with items := item :: l.items }

/-- Ends the last branch and begins the next. -/
def nextBranch (l : Level) : Level := ⟨.inSequence l.items.reverse :: l.branches, []⟩

/-- The tree of the whole level. -/
def tree (l : Level) : Expr Reference := .oneOf l.nextBranch.branches.reverse

end Level

/-! ## §2 Drafts -/

/-- The largest number of groups that may be open at once. -/
def maxNestingDepth : Nat := 256

/-- A group that has been opened and not yet closed. -/
structure Frame where
  /-- The position of the opening parenthesis. -/
  opening : Nat
  /-- The number of the group, if it captures. -/
  index : Option Nat
  /-- The level that the group is an item of. -/
  outer : Level

/-- A pattern read in part. -/
structure Draft where
  /-- The content of the innermost open group. -/
  level : Level
  /-- The open groups, innermost first. -/
  frames : List Frame
  groupCount : Nat
  names : NameTable

namespace Draft

/-- The draft before anything has been read. -/
def empty : Draft := ⟨.empty, [], 0, []⟩

/-! ## §3 Steps -/

/-- Adds an item to the innermost group. -/
def push (d : Draft) (item : Expr Reference) : Draft := { d with level := d.level.push item }

/-- Begins the next branch of the innermost group. -/
def nextBranch (d : Draft) : Draft := { d with level := d.level.nextBranch }

/-- Opens a group that does not change the names. -/
def enter (d : Draft) (opening : Nat) (index : Option Nat) : Draft :=
  { d with
    level := .empty
    frames := ⟨opening, index, d.level⟩ :: d.frames }

/-- Opens a group; capturing groups take the next number, and a name may be
given only once. -/
def openGroup (d : Draft) (opening : Nat) : GroupOpener → Checked Draft
  | .plain => .ok (d.enter opening none)
  | .numbered =>
    let index := d.groupCount + 1
    .ok { d.enter opening (some index) with groupCount := index }
  | .named name position =>
    let index := d.groupCount + 1
    if (d.names.find? name).isSome then refuse .badGroupName position
    else .ok { d.enter opening (some index) with
      groupCount := index
      names := d.names.insert name index }

/-- Closes the innermost group: its tree, and the draft that awaits it as an item. -/
def closeGroup? (d : Draft) : Option (Expr Reference × Draft) :=
  match d.frames with
  | [] => none
  | f :: frames => some (.group f.index d.level.tree, { d with level := f.outer, frames })

/-! ## §4 Ends -/

/-- The number of the group that a reference names; it may stand anywhere in
the pattern. -/
def groupOf (groupCount : Nat) (names : NameTable) (r : Reference) : Checked Nat :=
  match r.target with
  | .number n =>
    if 1 ≤ n && n ≤ groupCount then .ok n else refuse .badBackreference r.position
  | .name name =>
    match names.find? name with
    | some n => .ok n
    | none => refuse .badBackreference r.position

/-- The pattern of a draft that has been read to its end. -/
def finish (d : Draft) : Checked Pattern :=
  match d.frames with
  | f :: _ => refuse .missingParen f.opening
  | [] => do
    let root ← d.level.tree.resolve (groupOf d.groupCount d.names)
    return { root, groupCount := d.groupCount, names := d.names }

end Draft

end LineRegex
