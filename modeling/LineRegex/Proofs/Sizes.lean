/-
LineRegex.Proofs.Sizes — a size is read from the decimal numerals that fit.

Digits are read one by one into a word of 64 bits. A word that has run over stays
lost, but the reading goes on to the end of the digits, however many there are, and
reports where it stopped. A text gives a size if the reading has come to its end, past
one digit at least, with the word intact. So the sizes are the decimal numerals of the
numbers that a word holds, with any number of zeros in front, and nothing else.

  §1 Words     — one more digit in a word.
  §2 Readings  — a reading takes the digits in front, and their value if it fits.
  §3 Sizes     — a size by way of a reading is the size that is looked for.
  §4 Numerals  — the positional value of digits.
-/
import Mathlib.Data.Nat.Digits.Defs
import LineRegex.Config
import LineRegex.Proofs.PrintedForms

namespace LineRegex

open Grammar (IsNumeral)

/-! ## §1 Words -/

/-- The word of a number, if one holds it. -/
def word? (n : Nat) : Option UInt64 := if n ≤ maxSize then some (.ofNat n) else none

/-- The word of a digit. -/
def digitWord (u : CodeUnit) : UInt64 := .ofNat (u - unit '0')

/-- A word with one more digit behind it, unless the word would run over. -/
def appendDigit? (word digit : UInt64) : Option UInt64 :=
  if (.ofNat maxSize - digit) / 10 < word then none else some (word * 10 + digit)

theorem word?_eq_some_iff {n : Nat} {word : UInt64} : word? n = some word ↔ word.toNat = n := by
  unfold word? maxSize
  constructor
  · intro h
    split at h
    · rename_i hn
      cases h
      exact UInt64.toNat_ofNat_of_lt' (Nat.lt_of_le_pred (by decide) hn)
    · cases h
  · rintro rfl
    rw [if_pos (Nat.le_sub_one_of_lt word.toNat_lt_size), UInt64.ofNat_toNat]

theorem word?_eq_none_iff {n : Nat} : word? n = none ↔ maxSize < n := by
  unfold word?
  split <;> simp_all

theorem toNat_digitWord {u : CodeUnit} (hu : u.isDigit = true) :
    (digitWord u).toNat = u - unit '0' ∧ u - unit '0' ≤ 9 := by
  simp only [CodeUnit.isDigit, Bool.and_eq_true, decide_eq_true_eq] at hu
  have hle : u - unit '0' ≤ 9 := Nat.sub_le_sub_right hu.2 (unit '0')
  exact ⟨UInt64.toNat_ofNat_of_lt' (Nat.lt_of_le_of_lt hle (by decide)), hle⟩

/-- The test in front of the arithmetic lets through what fits, and nothing else. -/
theorem appendDigit?_eq {word digit : UInt64} (hdigit : digit.toNat ≤ 9) :
    appendDigit? word digit = word? (word.toNat * 10 + digit.toNat) := by
  have hword := word.toNat_lt
  have hmax : (UInt64.ofNat maxSize).toNat = maxSize := by decide
  have hsize : maxSize = 2 ^ 64 - 1 := rfl
  have hdifference : (UInt64.ofNat maxSize - digit).toNat = maxSize - digit.toNat := by
    rw [UInt64.toNat_sub_of_le _ _ (UInt64.le_iff_toNat_le.mpr (by omega)), hmax]
  have htest : (UInt64.ofNat maxSize - digit) / 10 < word ↔
      maxSize < word.toNat * 10 + digit.toNat := by
    rw [UInt64.lt_iff_toNat_lt, UInt64.toNat_div, hdifference]
    show (maxSize - digit.toNat) / 10 < word.toNat ↔ _
    omega
  unfold appendDigit?
  split
  · rename_i hover
    exact (word?_eq_none_iff.mpr (htest.mp hover)).symm
  · rename_i hfits
    refine (word?_eq_some_iff.mpr ?_).symm
    rw [htest, Nat.not_lt] at hfits
    rw [UInt64.toNat_add, UInt64.toNat_mul]
    show ((word.toNat * 10) % 2 ^ 64 + digit.toNat) % 2 ^ 64 = _
    omega

/-- A word that is lost corresponds to a number that is too large, and stays so. -/
theorem word?_bind_appendDigit? (n : Nat) {u : CodeUnit} (hu : u.isDigit = true) :
    ((word? n).bind fun word => appendDigit? word (digitWord u)) =
      word? (n * 10 + (u - unit '0')) := by
  obtain ⟨hdigit, hle⟩ := toNat_digitWord hu
  cases hword : word? n with
  | none =>
    rw [word?_eq_none_iff] at hword
    have hover : maxSize < n * 10 + (u - unit '0') := by omega
    exact (word?_eq_none_iff.mpr hover).symm
  | some word =>
    rw [word?_eq_some_iff] at hword
    rw [Option.bind_some, appendDigit?_eq (hdigit ▸ hle), hdigit, hword]

/-! ## §2 Readings -/

/-- Why a reading found no number. -/
inductive NumberFault where
  | noDigits
  | tooLarge
  deriving DecidableEq, Repr

/-- What a reading found, and the position of the first unit that it did not take. -/
structure NumberReading where
  found : Except NumberFault UInt64
  stop : Nat

/-- Reads the digits in front into a word that holds what was read before, unless it
has run over; the word behind them, and their number. -/
def readDigits (word : Option UInt64) : List CodeUnit → Option UInt64 × Nat
  | [] => (word, 0)
  | u :: us =>
    if u.isDigit then
      let (word, count) := readDigits (word.bind fun w => appendDigit? w (digitWord u)) us
      (word, count + 1)
    else (word, 0)

/-- Reads a number from the beginning of a text. -/
def readNumber (text : Text) : NumberReading :=
  match readDigits (some 0) text.toList with
  | (_, 0) => ⟨.error .noDigits, 0⟩
  | (none, count + 1) => ⟨.error .tooLarge, count + 1⟩
  | (some word, count + 1) => ⟨.ok word, count + 1⟩

/-- By induction on the units: the word is that of the number read so far. -/
theorem readDigits_eq (n : Nat) (us : List CodeUnit) :
    readDigits (word? n) us =
      (word? ((leadingDigits us).foldl (fun n d => n * 10 + (d - unit '0')) n),
        (leadingDigits us).length) := by
  induction us generalizing n with
  | nil => rfl
  | cons u us ih =>
    unfold leadingDigits at ih ⊢
    rw [readDigits, List.takeWhile_cons]
    split
    · rename_i hu
      rw [word?_bind_appendDigit? n hu, ih]
      rfl
    · rfl

/-- A reading takes all the digits in front, whether a word holds their value or not. -/
theorem stop_readNumber (text : Text) :
    (readNumber text).stop = (leadingDigits text.toList).length := by
  unfold readNumber
  rw [show some (0 : UInt64) = word? 0 from rfl, readDigits_eq 0]
  cases leadingDigits text.toList with
  | nil => rfl
  | cons d ds => split <;> simp_all

/-- A reading finds the value of the digits in front, if there are any and a word holds it. -/
theorem found_readNumber_eq_ok_iff {text : Text} {word : UInt64} :
    (readNumber text).found = .ok word ↔
      leadingDigits text.toList ≠ [] ∧ word.toNat = decimalValue (leadingDigits text.toList) := by
  unfold readNumber
  rw [show some (0 : UInt64) = word? 0 from rfl, readDigits_eq 0, ← decimalValue]
  cases leadingDigits text.toList with
  | nil => simp
  | cons d ds =>
    cases hvalue : word? (decimalValue (d :: ds)) with
    | none =>
      have hnone : word.toNat ≠ decimalValue (d :: ds) := by
        rw [Ne, ← word?_eq_some_iff, hvalue]
        simp
      simpa using hnone
    | some found =>
      rw [word?_eq_some_iff] at hvalue
      simp [← hvalue, UInt64.toNat_inj, eq_comm]

/-! ## §3 Sizes -/

/-- The size that a text gives: the number found, if the reading has found one and has
come to the end of the text. -/
def sizeRead? (text : Text) : Option UInt64 :=
  let reading := readNumber text
  match reading.found with
  | .error _ => none
  | .ok word => if reading.stop ≠ text.size ∨ text.isEmpty then none else some word

theorem leadingDigits_of_all {us : List CodeUnit} (h : ∀ u ∈ us, u.isDigit = true) :
    leadingDigits us = us :=
  List.takeWhile_eq_self_iff.mpr h

/-- The digits in front are as many as the units only if all of these are digits. -/
theorem isDigit_of_length_leadingDigits {us : List CodeUnit}
    (h : (leadingDigits us).length = us.length) : ∀ u ∈ us, u.isDigit = true :=
  List.takeWhile_eq_self_iff.mp ((List.takeWhile_prefix _).eq_of_length h)

theorem sizeRead?_eq_some_iff {text : Text} {word : UInt64} :
    sizeRead? text = some word ↔
      IsNumeral text.toList ∧ decimalValue text.toList = word.toNat := by
  have hsize : sizeRead? text = some word ↔
      (readNumber text).found = .ok word ∧ (readNumber text).stop = text.size ∧ text ≠ #[] := by
    unfold sizeRead?
    generalize readNumber text = reading
    obtain ⟨found, stop⟩ := reading
    cases found with
    | error fault => simp
    | ok found =>
      rw [Option.ite_none_left_eq_some, Option.some.injEq, Except.ok.injEq, Array.isEmpty_iff,
        not_or, Decidable.not_not, and_comm]
  rw [hsize, found_readNumber_eq_ok_iff, stop_readNumber, ← Array.length_toList]
  constructor
  · rintro ⟨⟨hne, hword⟩, hstop, -⟩
    have hdigits := isDigit_of_length_leadingDigits hstop
    rw [leadingDigits_of_all hdigits] at hne hword
    exact ⟨⟨hne, hdigits⟩, hword.symm⟩
  · rintro ⟨⟨hne, hdigits⟩, hword⟩
    rw [leadingDigits_of_all hdigits]
    exact ⟨⟨hne, hword.symm⟩, rfl, fun h => hne (congrArg Array.toList h)⟩

theorem parseSize_eq_some_iff {text : Text} {n : Nat} :
    parseSize text = some n ↔
      IsNumeral text.toList ∧ decimalValue text.toList = n ∧ n ≤ maxSize := by
  obtain ⟨us⟩ := text
  have hnumeral : IsNumeral us ↔ ¬(us.isEmpty || !us.all CodeUnit.isDigit) = true := by
    simp [IsNumeral]
  rw [hnumeral, parseSize, Option.ite_none_left_eq_some]
  refine and_congr_right fun _ => ?_
  rw [Option.ite_none_right_eq_some, Option.some.injEq, and_comm]
  exact and_congr_right fun hvalue => hvalue ▸ Iff.rfl

/-- Reading a text in words gives the size that the text has in exact arithmetic. -/
theorem parseSize_eq_sizeRead? (text : Text) :
    parseSize text = (sizeRead? text).map UInt64.toNat := by
  refine Option.ext fun n => ?_
  rw [parseSize_eq_some_iff, Option.map_eq_some_iff]
  constructor
  · rintro ⟨hnumeral, hvalue, hn⟩
    obtain ⟨word, hword⟩ : ∃ word, word? n = some word := ⟨_, if_pos hn⟩
    rw [word?_eq_some_iff] at hword
    exact ⟨word, sizeRead?_eq_some_iff.mpr ⟨hnumeral, hvalue.trans hword.symm⟩, hword⟩
  · rintro ⟨word, hword, rfl⟩
    obtain ⟨hnumeral, hvalue⟩ := sizeRead?_eq_some_iff.mp hword
    exact ⟨hnumeral, hvalue, Nat.le_sub_one_of_lt word.toNat_lt_size⟩

/-! ## §4 Numerals -/

/-- Digits read from the left have the value that their places give them. -/
theorem decimalValue_eq_ofDigits (ds : List CodeUnit) :
    decimalValue ds = Nat.ofDigits 10 (ds.map (· - unit '0')).reverse := by
  rw [Nat.ofDigits_eq_foldr, List.foldr_reverse, List.foldl_map, decimalValue]
  simp [Nat.mul_comm, Nat.add_comm]

/-- Zeros in front change no value. -/
theorem decimalValue_zeros (zeros : Nat) (ds : List CodeUnit) :
    decimalValue (List.replicate zeros (unit '0') ++ ds) = decimalValue ds := by
  induction zeros with
  | zero => rfl
  | succ zeros ih => rw [List.replicate_succ, List.cons_append]; exact ih

theorem isNumeral_zeros {ds : List CodeUnit} (hds : ds ≠ []) (zeros : Nat) :
    IsNumeral (List.replicate zeros (unit '0') ++ ds) ↔ IsNumeral ds := by
  have hzero : ∀ d ∈ List.replicate zeros (unit '0'), CodeUnit.isDigit d = true := by
    intro d hd
    rw [List.eq_of_mem_replicate hd]
    rfl
  constructor
  · rintro ⟨-, hdigits⟩
    exact ⟨hds, fun d hd => hdigits d (List.mem_append_right _ hd)⟩
  · rintro ⟨-, hdigits⟩
    exact ⟨List.append_ne_nil_of_right_ne_nil _ hds,
      fun d hd => (List.mem_append.mp hd).elim (hzero d) (hdigits d)⟩

theorem isNumeral_iff {text : Text} :
    IsNumeral text.toList ↔ text ≠ #[] ∧ ∀ u ∈ text, unit '0' ≤ u ∧ u ≤ unit '9' := by
  simp [IsNumeral, CodeUnit.isDigit]

/-- A size is read from exactly the decimal numerals that a word of 64 bits holds, with
any number of zeros in front, and it is their value: what the reading in words comes to
is what the positional value of the digits says. So the numeral of every word is read as
that word, and a text with anything but digits in it gives no size. -/
theorem parseSize_decodes (text : Text) :
    parseSize text = (sizeRead? text).map UInt64.toNat ∧
    (∀ n, parseSize text = some n ↔
      (text ≠ #[] ∧ ∀ u ∈ text, unit '0' ≤ u ∧ u ≤ unit '9') ∧
        Nat.ofDigits 10 (text.toList.map (· - unit '0')).reverse = n ∧ n ≤ 2 ^ 64 - 1) ∧
    (∀ zeros, text ≠ #[] →
      parseSize (Array.replicate zeros (unit '0') ++ text) = parseSize text) ∧
    (∀ u ∈ text, ¬(unit '0' ≤ u ∧ u ≤ unit '9') → parseSize text = none) ∧
    ∀ word : UInt64, parseSize (decimalText word.toNat) = some word.toNat := by
  have hsome (n : Nat) : parseSize text = some n ↔
      (text ≠ #[] ∧ ∀ u ∈ text, unit '0' ≤ u ∧ u ≤ unit '9') ∧
        Nat.ofDigits 10 (text.toList.map (· - unit '0')).reverse = n ∧ n ≤ 2 ^ 64 - 1 := by
    rw [parseSize_eq_some_iff, isNumeral_iff, decimalValue_eq_ofDigits]
    rfl
  refine ⟨parseSize_eq_sizeRead? text, hsome, fun zeros hne => ?_, fun u hu hdigit => ?_,
    fun word => ?_⟩
  · have hne' : text.toList ≠ [] := fun h => hne (Array.toList_inj.mp h)
    refine Option.ext fun n => ?_
    rw [parseSize_eq_some_iff, parseSize_eq_some_iff, Array.toList_append, Array.toList_replicate,
      isNumeral_zeros hne', decimalValue_zeros]
  · refine Option.eq_none_iff_forall_ne_some.mpr fun n hn => ?_
    exact hdigit (((hsome n).mp hn).1.2 u hu)
  · exact parseSize_eq_some_iff.mpr ⟨isNumeral_decimalText _, decimalValue_decimalText _,
      Nat.le_sub_one_of_lt word.toNat_lt_size⟩

/-- The numeral of the largest word, with two zeros in front; that of the number behind it;
and one with a unit too many. -/
theorem parseSize_largest :
    parseSize "0018446744073709551615" = some 18446744073709551615 ∧
      parseSize "18446744073709551616" = none ∧ parseSize "18446744073709551615x" = none := by
  have hlargest : parseSize "18446744073709551615" = some 18446744073709551615 :=
    ((parseSize_decodes _).2.1 _).mpr ⟨by decide, by decide, by decide⟩
  refine ⟨?_, ?_, ?_⟩
  · rw [← hlargest]
    exact (parseSize_decodes "18446744073709551615").2.2.1 2 (by decide)
  · refine Option.eq_none_iff_forall_ne_some.mpr fun n hn => ?_
    obtain ⟨-, hvalue, hle⟩ := ((parseSize_decodes _).2.1 n).mp hn
    have hbehind : Nat.ofDigits 10
        ((Text.ofString "18446744073709551616").toList.map (· - unit '0')).reverse = 2 ^ 64 := by
      decide
    omega
  · exact (parseSize_decodes "18446744073709551615x").2.2.2.1 (unit 'x')
      (Array.mem_toList_iff.mp (by decide)) (by decide)

end LineRegex
