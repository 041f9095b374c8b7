/-
LineRegex.Match — what a successful attempt hands out.

  §1 Spans     — half-open intervals of positions.
  §2 Captures  — the span of every capturing group, as far as it is set.
  §3 Matches   — the whole span and the captures, with the text they refer to.
-/
import LineRegex.Pattern

namespace LineRegex

/-! ## §1 Spans -/

/-- The positions from `start` up to, and without, `stop`. -/
structure Span where
  start : Nat
  stop : Nat
  deriving DecidableEq, Repr

namespace Span

/-- The number of positions of a span. -/
def length (s : Span) : Nat := s.stop - s.start

/-- Moves a span to the right. -/
def shift (s : Span) (n : Nat) : Span := ⟨s.start + n, s.stop + n⟩

/-- The units of a text that a span marks. -/
def slice (s : Span) (t : Text) : Text := t.extract s.start s.stop

end Span

/-! ## §2 Captures -/

/-- The spans of the capturing groups: group `g + 1` has the slot `g`. -/
abbrev Captures := Array (Option Span)

namespace Captures

/-- No group has captured anything. -/
def unset (groupCount : Nat) : Captures := Array.replicate groupCount none

/-- The span of a group, if it is set; there is no group 0. -/
def span (slots : Captures) (group : Nat) : Option Span :=
  match group with
  | 0 => none
  | g + 1 => slots[g]?.join

/-- Sets or unsets the span of a group. -/
def record (slots : Captures) (group : Nat) (s : Option Span) : Captures :=
  match group with
  | 0 => slots
  | g + 1 => slots.setIfInBounds g s

/-- Going back to the span that a group had restores the captures. -/
theorem record_span (slots : Captures) (group : Nat) (s : Option Span) :
    (slots.record group s).record group (slots.span group) = slots := by
  cases group with
  | zero => rfl
  | succ g =>
    simp only [record, span]
    by_cases h : g < slots.size
    · simp [Array.setIfInBounds, h]
    · simp [Array.setIfInBounds, h]

end Captures

/-! ## §3 Matches -/

/-- A successful attempt. -/
structure Match where
  /-- The text that the spans refer to: one line, or all that was searched. -/
  subject : Text
  /-- The number of the line, counted from 0. -/
  line : Nat
  /-- What the pattern as a whole matched. -/
  whole : Span
  captures : Captures
  names : NameTable

namespace Match

/-- The spans of the whole match and of every group. -/
def spans (m : Match) : List (Option Span) := some m.whole :: m.captures.toList

/-- The span of a group, if it took part in the match; group 0 is the whole match. -/
def span (m : Match) (group : Nat) : Option Span :=
  match group with
  | 0 => some m.whole
  | g + 1 => m.captures.span (g + 1)

/-- The text of a group, if it took part in the match. -/
def group (m : Match) (group : Nat) : Option Text := (m.span group).map (·.slice m.subject)

/-- The text of a named group, if there is one and it took part in the match. -/
def groupNamed (m : Match) (name : Text) : Option Text := (m.names.find? name).bind m.group

/-- The text of the whole match. -/
def text (m : Match) : Text := m.whole.slice m.subject

/-- Whether the match consumed nothing. -/
def isEmpty (m : Match) : Bool := m.whole.start == m.whole.stop

/-- Two matches are the same when line, spans and matched text agree; the
rest of the subject and the names do not count. -/
instance : BEq Match where
  beq m n := m.line == n.line && m.spans == n.spans && m.text == n.text

end Match

end LineRegex
