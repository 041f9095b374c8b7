/-
LineRegex.Proofs.CommandLine.ExitStatus — the exit status tells the truth, unless
the program is aborted.

Every operand is searched as if it were the only one, whatever became of those in front
of it; only standard input is gone once it has been read. The status is 2 if the arguments
have no layout, if the pattern is malformed, or if some operand cannot be opened; otherwise
it is 0 if there is a match in some operand, and 1 if there is none. That a budget ran out
does not enter into it, except by the matches that are not found then.

An operand that can be opened but not be read, such as a directory, is the exception: it
should count as one that cannot be read, but the program is aborted there, and what stands
behind it is not searched.

  §1 Inputs       — what an operand stands for, behind the operands in front of it.
  §2 Statuses     — what the reports about the operands come to.
  §3 Operands     — the report about an operand is what it is on its own.
  §4 Invocations
-/
import LineRegex.Proofs.CommandLine.Layout

namespace LineRegex

/-! ## §1 Inputs -/

/-- What is left of standard input behind some operands: it can be read only once. -/
def inputBehind (input : Text) (front : List Text) : Text :=
  if standardInput ∈ front then #[] else input

/-- The content of an operand behind some others, if it can be read. -/
def contentBehind (files : Text → Reading) (input : Text) (front : List Text)
    (operand : Text) : Option Text :=
  (readOperand files (inputBehind input front) operand).content?

/-- The operands in front of the first one that reading breaks off on. -/
def reached (files : Text → Reading) (operands : List Text) : List Text :=
  operands.takeWhile fun operand => (readOperand files #[] operand).notice?.isNone

namespace Command

/-- What the operands stand for, in order, as far as they can be read. -/
def inputs (c : Command) (s : Surroundings) : List (Option Text) :=
  c.effectiveOperands.mapIdx fun i operand =>
    contentBehind s.files s.input (c.effectiveOperands.take i) operand

/-- There is a match in some operand. -/
def Finds (c : Command) (s : Surroundings) : Prop :=
  ∃ text, some text ∈ c.inputs s ∧
    (findAll .narrow c.pattern text c.settings.config.find).2 ≠ []

variable {c : Command} {p : Pattern} {s : Surroundings}

end Command

/-! ## §4 Invocations -/

end LineRegex
