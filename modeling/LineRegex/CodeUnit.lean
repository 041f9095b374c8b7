/-
LineRegex.CodeUnit — code units, texts, and the units that carry a meaning.

A pattern and a text are sequences of code units: bytes, or unsigned 32-bit
numbers. Every comparison is numeric, so a unit is a natural number, and
the one thing that depends on the width is where the domain of units ends.

  §1 Units and texts    — `CodeUnit`, `Text`, `Width.maxUnit`; strings spell texts,
                          and texts are joined.
  §2 Classes of units   — digits, letters, word units, hex digits and line
                          terminators. All of them are ASCII by definition,
                          whatever the width.
  §3 Decimal numerals   — reading and writing natural numbers.
-/

namespace LineRegex

/-! ## §1 Units and texts -/

/-- One element of a pattern or of a text. -/
abbrev CodeUnit := Nat

/-- A finite sequence of code units. Positions and lengths count units. -/
abbrev Text := Array CodeUnit

/-- The two sizes of code units: bytes, and unsigned 32-bit numbers. -/
inductive Width where
  | narrow
  | wide
  deriving DecidableEq, Repr

/-- The largest unit of a width; the domain of units is `0 .. maxUnit`. -/
def Width.maxUnit : Width → CodeUnit
  | .narrow => 255
  | .wide => 4294967295

/-- The unit of a character; used for ASCII characters only. -/
abbrev unit (c : Char) : CodeUnit := c.toNat

/-- Different characters have different units. -/
@[simp] theorem unit_inj {c d : Char} : unit c = unit d ↔ c = d := Char.toNat_inj

namespace Text

/-- The text that spells a string, one unit per character. -/
def ofString (s : String) : Text := (s.toList.map unit).toArray

/-- A string stands for the text it spells. -/
instance : Coe String Text := ⟨ofString⟩

/-- The texts one after another. -/
def join (parts : List Text) : Text := parts.foldl (· ++ ·) #[]

/-- The texts one after another, with a separator between neighbours. -/
def joinWith (separator : Text) : List Text → Text
  | [] => #[]
  | part :: parts => parts.foldl (fun out p => out ++ separator ++ p) part

end Text

/-! ## §2 Classes of units -/

namespace CodeUnit

/-- A decimal digit, `0` to `9`. -/
def isDigit (u : CodeUnit) : Bool := unit '0' ≤ u && u ≤ unit '9'

/-- An ASCII letter. -/
def isAlpha (u : CodeUnit) : Bool :=
  unit 'a' ≤ u && u ≤ unit 'z' || unit 'A' ≤ u && u ≤ unit 'Z'

/-- A word unit: an ASCII letter, a digit or an underscore. -/
def isWord (u : CodeUnit) : Bool := u.isDigit || u.isAlpha || u == unit '_'

/-- A unit that ends a line: line feed or carriage return. -/
def isLineTerminator (u : CodeUnit) : Bool := u == unit '\n' || u == unit '\r'

/-- The value of a hexadecimal digit of either case. -/
def hexValue? (u : CodeUnit) : Option Nat :=
  if u.isDigit then some (u - unit '0')
  else if unit 'a' ≤ u && u ≤ unit 'f' then some (u - unit 'a' + 10)
  else if unit 'A' ≤ u && u ≤ unit 'F' then some (u - unit 'A' + 10)
  else none

/-- Every hexadecimal digit is worth less than sixteen. -/
theorem hexValue?_lt {u : CodeUnit} {v : Nat} (h : u.hexValue? = some v) : v < 16 := by
  have h0 : unit '0' = 48 := rfl
  have h9 : unit '9' = 57 := rfl
  have ha : unit 'a' = 97 := rfl
  have hf : unit 'f' = 102 := rfl
  have hA : unit 'A' = 65 := rfl
  have hF : unit 'F' = 70 := rfl
  simp only [hexValue?, isDigit, Bool.and_eq_true, decide_eq_true_eq] at h
  grind

end CodeUnit

/-! ## §3 Decimal numerals -/

/-- The number that a run of decimal digits denotes, most significant digit first. -/
def decimalValue (digits : List CodeUnit) : Nat :=
  digits.foldl (fun n d => n * 10 + (d - unit '0')) 0

/-- The decimal numeral of a number, without leading zeros. -/
def decimalText (n : Nat) : Text := ((Nat.toDigits 10 n).map unit).toArray

end LineRegex
