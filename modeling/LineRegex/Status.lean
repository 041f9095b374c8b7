/-
LineRegex.Status — why a pattern is refused, and how an operation ended.

  §1 Syntax faults   — the ten reasons to refuse a pattern.
  §2 Syntax errors   — a fault with the position of the offending unit.
  §3 Statuses        — success, a syntax fault, or an exhausted step budget.
  §4 Status codes    — the numbering of statuses. A number outside it
                       has no wording and counts as a syntax fault.
-/

namespace LineRegex

/-! ## §1 Syntax faults -/

/-- A reason to refuse a pattern. -/
inductive SyntaxFault where
  /-- A quantifier stands where something to repeat is expected. -/
  | emptyOperand
  /-- A quantifier directly follows a quantifier. -/
  | multipleRepeat
  /-- An escape sequence is incomplete or reserved. -/
  | badEscape
  /-- A parenthesis has no counterpart. -/
  | missingParen
  /-- A bracket expression is empty, unclosed, or has a bad member. -/
  | badBracketExpression
  /-- The bounds in braces are malformed, too large, or out of order. -/
  | badBraceExpression
  /-- A backreference names no group of the pattern. -/
  | badBackreference
  /-- A group name is malformed or given twice. -/
  | badGroupName
  /-- Groups are nested deeper than the limit. -/
  | nestingTooDeep
  /-- The pattern uses a construct outside this dialect. -/
  | unsupportedFeature
  deriving DecidableEq, Repr

/-- The wording of a fault. -/
def SyntaxFault.message : SyntaxFault → String
  | emptyOperand => "nothing to repeat"
  | multipleRepeat => "multiple repeat"
  | badEscape => "bad escape"
  | missingParen => "missing parentheses"
  | badBracketExpression => "bad bracket expression"
  | badBraceExpression => "bad brace expression"
  | badBackreference => "backreference to undefined group"
  | badGroupName => "bad group name"
  | nestingTooDeep => "groups are nested too deeply"
  | unsupportedFeature => "unsupported features"

/-! ## §2 Syntax errors -/

/-- A malformed pattern: the fault, and the index of the offending unit. -/
structure SyntaxError where
  fault : SyntaxFault
  position : Nat
  deriving DecidableEq, Repr

/-! ## §3 Statuses -/

/-- How an operation ended. -/
inductive Status where
  | success
  | syntaxError (fault : SyntaxFault)
  /-- Some match attempt used up its step budget. -/
  | budgetExceeded
  deriving DecidableEq, Repr

namespace Status

/-- The wording of a status. -/
def message : Status → String
  | success => "successed"
  | syntaxError fault => fault.message
  | budgetExceeded => "step budget exceeded"

/-- Whether the pattern was refused. -/
def isSyntaxError : Status → Bool
  | syntaxError _ => true
  | _ => false

/-! ## §4 Status codes -/

/-- The statuses in the order of their codes. -/
def all : List Status :=
  [success,
   syntaxError .emptyOperand, syntaxError .multipleRepeat, syntaxError .badEscape,
   syntaxError .missingParen, syntaxError .badBracketExpression,
   syntaxError .badBraceExpression, syntaxError .badBackreference,
   syntaxError .badGroupName, syntaxError .nestingTooDeep,
   syntaxError .unsupportedFeature,
   budgetExceeded]

/-- The status of a code, if the code is assigned. -/
def ofCode? : Int → Option Status
  | .ofNat n => all[n]?
  | .negSucc _ => none

end Status

/-- A number that stands for a status; unassigned numbers are allowed. -/
structure StatusCode where
  value : Int
  deriving DecidableEq, Repr

namespace StatusCode

/-- The wording of a code, empty when the code is unassigned. -/
def message (c : StatusCode) : String := ((Status.ofCode? c.value).map Status.message).getD ""

/-- Whether the code reports a refused pattern; unassigned codes do. -/
def isSyntaxError (c : StatusCode) : Bool :=
  ((Status.ofCode? c.value).map Status.isSyntaxError).getD true

/-- Whether the code reports anything but success. -/
def isError (c : StatusCode) : Bool := Status.ofCode? c.value != some .success

end StatusCode

end LineRegex
