/-
LineRegex.Replace — replacing the matches in a text.

  §1 Templates    — what a replacement stands for at a match.
  §2 Splicing     — the text with its matches replaced, all else kept.
  §3 Replacement  — at most a given number of matches, from the left.
-/
import LineRegex.Search

namespace LineRegex

/-! ## §1 Templates -/

/-- The units that a template stands for at a match: a backslash and a digit
stand for the text of that group, or for nothing if it is unset; a backslash
and any other unit for that unit; a backslash at the very end for itself. -/
def expand (m : Match) : List CodeUnit → List CodeUnit
  | [] => []
  | [u] => [u]
  | u :: v :: rest =>
    if u = unit '\\' then
      (if v.isDigit then ((m.group (v - unit '0')).getD #[]).toList else [v]) ++ expand m rest
    else u :: expand m (v :: rest)

/-! ## §2 Splicing -/

/-- Appends to `out` the rest of a text from `copied` on, with the matches
replaced. -/
def spliceFrom (text : Text) (template : List CodeUnit) (out : Text) (copied : Nat) :
    List Match → Text
  | [] => out ++ text.extract copied text.size
  | m :: ms =>
    spliceFrom text template
      (out ++ text.extract copied m.whole.start ++ (expand m template).toArray) m.whole.stop ms

/-- A text with the given matches replaced. -/
def splice (text : Text) (template : List CodeUnit) (ms : List Match) : Text :=
  spliceFrom text template #[] 0 ms

/-! ## §3 Replacement -/

/-- What a replacement yields. -/
structure Replacement where
  status : Status
  /-- The number of matches replaced. -/
  count : Nat
  text : Text

/-- Replaces at most `count` matches. The status covers the search up to the
match behind the last one replaced. -/
def Pattern.replace (p : Pattern) (text template : Text) (count : Nat) (o : FindOptions) :
    Replacement :=
  let (ms, r) := (MatchRange.new p text { o with offsets := .absolute }).start.take count
  ⟨r.status, ms.length, splice text template.toList ms⟩

/-- Replaces at most `count` matches; a malformed pattern leaves the text as it is. -/
def replace (w : Width) (pattern text template : Text) (count : Nat) (o : FindOptions) :
    Replacement :=
  match parse w pattern with
  | .error e => ⟨.syntaxError e.fault, 0, text⟩
  | .ok p => p.replace text template count o

end LineRegex
