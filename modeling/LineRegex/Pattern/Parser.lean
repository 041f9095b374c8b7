/-
LineRegex.Pattern.Parser — from a text to the pattern it spells.

    alternation ::= sequence ('|' sequence)*
    sequence    ::= item*
    item        ::= atom quantifier?
    quantifier  ::= '*' | '+' | '?' | '{m}' | '{m,}' | '{m,n}'
    atom        ::= unit | escape | bracket | '.' | '^' | '$' | group
    group       ::= '(' alternation ')', with an opener behind the '('

The parser reads from left to right and keeps the open groups in a draft,
so nesting costs no recursion and the first fault in reading order wins.

  §1 Atoms     — everything an item can be but a group.
  §2 Patterns  — `Draft.read` reads to the end, `parse` is the whole way.
-/
import LineRegex.Pattern.Bracket
import LineRegex.Pattern.Draft
import LineRegex.Pattern.Repetition

namespace LineRegex

/-! ## §1 Atoms -/

/-- The tree of an escape outside brackets. -/
def Escape.toExpr (w : Width) : Escape → Expr Reference
  | .ofClass (.single u) => .unit u
  | .ofClass (.shorthand s) => .charClass ⟨s.ranges w, false⟩
  | .reference r => .backreference r

/-- Reads an atom that is no group; the unit `u` at `position` is its first,
and the count leaves `u` out. -/
def lexAtom (w : Width) (position : Nat) (u : CodeUnit) (units : List CodeUnit) :
    Checked (Expr Reference × Nat) :=
  if u = unit '[' then do
    let (c, n) ← lexBracket w position units
    return (.charClass c, n)
  else if u = unit '\\' then do
    let (e, n) ← lexEscape position units
    return (e.toExpr w, n)
  else if u = unit '.' then .ok (.any, 0)
  else if u = unit '^' then .ok (.anchor .lineStart, 0)
  else if u = unit '$' then .ok (.anchor .lineEnd, 0)
  else .ok (.unit u, 0)

/-! ## §2 Patterns -/

/-- Reads the units, which begin at `position`, into the draft. -/
def Draft.read (w : Width) (position : Nat) (units : List CodeUnit) (d : Draft) :
    Checked Draft :=
  match units with
  | [] => .ok d
  | u :: rest =>
    if u = unit '|' then Draft.read w (position + 1) rest d.nextBranch
    else if u = unit '(' then
      if maxNestingDepth ≤ d.frames.length then refuse .nestingTooDeep position
      else do
        let (opener, n) ← lexGroupOpener position rest
        let d ← d.openGroup position opener
        Draft.read w (position + 1 + n) (rest.drop n) d
    else if u = unit ')' then
      match d.closeGroup? with
      | none => refuse .missingParen position
      | some (group, d) => do
        let (item, n) ← lexSuffix (position + 1) group rest
        Draft.read w (position + 1 + n) (rest.drop n) (d.push item)
    else if u.isQuantifierStart then refuse .emptyOperand position
    else do
      let (atom, n) ← lexAtom w position u rest
      let (item, k) ← lexSuffix (position + 1 + n) atom (rest.drop n)
      Draft.read w (position + 1 + n + k) (rest.drop (n + k)) (d.push item)
termination_by units.length
decreasing_by all_goals simp only [List.length_drop, List.length_cons]; omega

/-- The pattern that a text spells, or the first fault in it. -/
def parse (w : Width) (source : Text) : Checked Pattern := do
  let d ← Draft.empty.read w 0 source.toList
  d.finish

/-- Parses a text and keeps it with its pattern. -/
def compile (w : Width) (source : Text) : Checked Compiled := do
  return { source, pattern := ← parse w source }

end LineRegex
