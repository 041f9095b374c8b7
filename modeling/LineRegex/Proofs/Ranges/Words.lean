/-
LineRegex.Proofs.Ranges.Words — lists of ranges in machine arithmetic.

A unit is a word of 8 or of 32 bits, and adding to a word or subtracting from it
wraps around at the ends of the domain. Ranges of words are sorted, merged in
place, and complemented with a lower bound that runs along the list. None of this
wraps around where it matters: read as units, the words that come out are what
exact arithmetic on natural numbers gives.

  §1 Words         — the words of a width, their successors and predecessors.
  §2 Ranges        — ranges of words, and the ranges of units that they are.
  §3 Normalizing   — sorting, and merging in place.
  §4 Complementing
-/
import Mathlib.Data.List.Basic
import LineRegex.UnitRange

namespace LineRegex

/-! ## §1 Words -/

/-- The number of bits of a unit. -/
def Width.bits : Width → Nat
  | .narrow => 8
  | .wide => 32

/-- A unit as the machine has it, a number modulo the number of units. -/
abbrev Word (w : Width) := BitVec w.bits

namespace Word

variable {w : Width}

/-- The word of the last unit. -/
def last (w : Width) : Word w := .allOnes w.bits

theorem toNat_last (w : Width) : (last w).toNat = w.maxUnit := by
  cases w <;> rfl

theorem toNat_zero (w : Width) : (0 : Word w).toNat = 0 := by
  cases w <;> rfl

theorem toNat_one (w : Width) : (1 : Word w).toNat = 1 := by
  cases w <;> rfl

theorem toNat_le (x : Word w) : x.toNat ≤ w.maxUnit := by
  cases w <;> exact Nat.le_of_lt_succ x.isLt

theorem eq_last_iff {x : Word w} : x = last w ↔ x.toNat = w.maxUnit := by
  rw [← toNat_last, BitVec.toNat_inj]

theorem toNat_ofNat_of_le {u : CodeUnit} (h : u ≤ w.maxUnit) :
    (BitVec.ofNat w.bits u).toNat = u := by
  cases w <;> exact Nat.mod_eq_of_lt (Nat.lt_succ_of_le h)

/-- The predecessor of a word wraps around at 0 only. -/
theorem toNat_pred {x : Word w} (h : 0 < x.toNat) : (x - 1).toNat = x.toNat - 1 := by
  have hle : (1 : Word w) ≤ x := by rwa [BitVec.le_def, toNat_one]
  rw [BitVec.toNat_sub_of_le hle, toNat_one]

/-- The successor of a word wraps around at the last one only. -/
theorem toNat_succ {x : Word w} (h : x.toNat < w.maxUnit) : (x + 1).toNat = x.toNat + 1 := by
  cases w <;> exact BitVec.toNat_add_of_lt (Nat.succ_lt_succ h)

end Word

/-! ## §2 Ranges -/

/-- The words from `lo` to `hi`, both included. -/
structure WordRange (w : Width) where
  lo : Word w
  hi : Word w
  deriving DecidableEq, Repr

namespace WordRange

variable {w : Width}

/-- The range as a range of units. -/
def units (r : WordRange w) : UnitRange := ⟨r.lo.toNat, r.hi.toNat⟩

/-- The words of a range of units. -/
def ofUnits (w : Width) (r : UnitRange) : WordRange w := ⟨.ofNat w.bits r.lo, .ofNat w.bits r.hi⟩

/-- Ranges within the width are not changed by writing them as words. -/
theorem map_units_ofUnits {ranges : List UnitRange}
    (h : ∀ r ∈ ranges, r.lo ≤ w.maxUnit ∧ r.hi ≤ w.maxUnit) :
    (ranges.map (ofUnits w)).map units = ranges := by
  rw [List.map_map]
  refine (List.map_congr_left fun r hr => ?_).trans (List.map_id ranges)
  obtain ⟨hlo, hhi⟩ := h r hr
  simp only [Function.comp_apply, ofUnits, units, Word.toNat_ofNat_of_le hlo,
    Word.toNat_ofNat_of_le hhi, id]

/-! ## §3 Normalizing -/

/-- The order by lower end, then by upper end. -/
def le (r s : WordRange w) : Bool := r.lo < s.lo || r.lo == s.lo && r.hi ≤ s.hi

/-- Whether `r` overlaps `last` or begins right behind it. The predecessor of 0 is
the last word, but a range that begins at 0 overlaps whatever stands in front of it. -/
def joins (last r : WordRange w) : Bool := r.lo ≤ last.hi || r.lo - 1 == last.hi

/-- The range `last`, grown to reach as far as `r`. -/
def grow (last r : WordRange w) : WordRange w :=
  ⟨last.lo, if last.hi < r.hi then r.hi else last.hi⟩

/-- Merges in place: the places up to `out` hold what has been merged, the last
of them still growing; the ranges from `i` on are still to be read. -/
def mergeInPlace (ranges : Array (WordRange w)) (out i : Nat) (h : out < i) :
    Array (WordRange w) :=
  if hi : i < ranges.size then
    if ranges[out].joins ranges[i] then
      mergeInPlace (ranges.set out (ranges[out].grow ranges[i])) out (i + 1)
        (Nat.lt_succ_of_lt h)
    else
      mergeInPlace (ranges.set (out + 1) ranges[i]) (out + 1) (i + 1) (Nat.succ_lt_succ h)
  else ranges.take (out + 1)
termination_by ranges.size - i

/-- The normal form of a list of ranges: sorted, then merged in place. -/
def normalize (ranges : List (WordRange w)) : List (WordRange w) :=
  if ranges.isEmpty then []
  else (mergeInPlace (ranges.mergeSort le).toArray 0 1 Nat.zero_lt_one).toList

theorem le_units (r s : WordRange w) : le r s = UnitRange.le r.units s.units := by
  have hlo : (r.lo == s.lo) = (r.lo.toNat == s.lo.toNat) := by
    rw [Bool.eq_iff_iff, beq_iff_eq, beq_iff_eq, BitVec.toNat_inj]
  rw [le, hlo]
  rfl

theorem le_or_pred_eq_iff {lo hi : Nat} (h : 0 < lo) : lo ≤ hi ∨ lo - 1 = hi ↔ lo ≤ hi + 1 := by
  omega

/-- The test for ranges that overlap or touch never depends on the predecessor of 0. -/
theorem joins_iff {last r : WordRange w} :
    last.joins r = true ↔ r.units.lo ≤ last.units.hi + 1 := by
  simp only [joins, Bool.or_eq_true, decide_eq_true_eq, beq_iff_eq, BitVec.le_def,
    ← BitVec.toNat_inj, units]
  rcases Nat.eq_zero_or_pos r.lo.toNat with hzero | hpos
  · simp [hzero]
  · rw [Word.toNat_pred hpos]
    exact le_or_pred_eq_iff hpos

theorem units_grow (last r : WordRange w) :
    (last.grow r).units = ⟨last.units.lo, max last.units.hi r.units.hi⟩ := by
  simp only [grow, units, BitVec.lt_def, UnitRange.mk.injEq, true_and]
  split
  · rename_i hlt
    exact (Nat.max_eq_right (Nat.le_of_lt hlt)).symm
  · rename_i hle
    exact (Nat.max_eq_left (Nat.le_of_not_lt hle)).symm

/-- Merging in place leaves the ranges in front of `out` as they are and merges the
range at `out` with those still to be read. -/
theorem units_mergeInPlace (ranges : Array (WordRange w)) (out i : Nat) (h : out < i)
    (hi : i ≤ ranges.size) :
    (mergeInPlace ranges out i h).toList.map units =
      (ranges.toList.take out).map units ++
        UnitRange.mergeFrom ranges[out].units ((ranges.toList.drop i).map units) := by
  have hupTo (ranges : Array (WordRange w)) (out : Nat) (h : out < ranges.size) :
      ranges.toList.take (out + 1) = ranges.toList.take out ++ [ranges[out]] := by
    rw [← List.take_append_getElem (by simpa using h), Array.getElem_toList]
  have hfrom (ranges : Array (WordRange w)) (i : Nat) (h : i < ranges.size) :
      ranges.toList.drop i = ranges[i] :: ranges.toList.drop (i + 1) := by
    rw [List.drop_eq_getElem_cons (by simpa using h), Array.getElem_toList]
  fun_induction mergeInPlace ranges out i h with
  | case1 ranges out i h hlt hjoin ih =>
    rw [ih (by rwa [Array.size_set]), hfrom ranges i hlt, List.map_cons, UnitRange.mergeFrom,
      if_pos (joins_iff.mp hjoin), ← units_grow]
    simp [List.take_set_of_le, List.drop_set_of_lt, Nat.lt_succ_of_lt h]
  | case2 ranges out i h hlt hjoin ih =>
    rw [ih (by rwa [Array.size_set]), hfrom ranges i hlt, List.map_cons, UnitRange.mergeFrom,
      if_neg (mt joins_iff.mpr hjoin)]
    simp [List.take_set_of_le, List.drop_set_of_lt, Nat.succ_lt_succ h, hupTo ranges out (by omega)]
  | case3 ranges out i h hend =>
    have hread : ranges.toList.drop i = [] := List.drop_of_length_le (by simpa using hend)
    rw [hread, List.map_nil, UnitRange.mergeFrom]
    simp [hupTo ranges out (by omega)]

theorem units_merge {ranges : List (WordRange w)} (h : 0 < ranges.length) :
    (mergeInPlace ranges.toArray 0 1 Nat.zero_lt_one).toList.map units =
      UnitRange.merge (ranges.map units) := by
  rw [units_mergeInPlace _ 0 1 Nat.zero_lt_one h]
  cases ranges with
  | nil => exact absurd h (Nat.lt_irrefl 0)
  | cons r rest => simp [UnitRange.merge]

/-- Sorting words sorts the units, and merging them in place merges the units. -/
theorem units_normalize (ranges : List (WordRange w)) :
    (normalize ranges).map units = UnitRange.normalize (ranges.map units) := by
  have hsort : (ranges.mergeSort le).map units = (ranges.map units).mergeSort UnitRange.le :=
    List.map_mergeSort fun r _ s _ => le_units r s
  rw [UnitRange.normalize, ← hsort, normalize]
  cases ranges with
  | nil => simp [UnitRange.merge]
  | cons first others =>
    have hlength : 0 < ((first :: others).mergeSort le).length := by
      simp [List.length_mergeSort]
    rw [List.isEmpty_cons, if_neg Bool.false_ne_true, units_merge hlength]

/-! ## §4 Complementing -/

/-- The words from `next` on that a normalized list leaves out: the gap in front of
each range, and what is behind the last one unless that reaches the last word. -/
def complementFrom (next : Word w) : List (WordRange w) → List (WordRange w)
  | [] => [⟨next, .last w⟩]
  | r :: rest =>
    (if next < r.lo then [⟨next, r.lo - 1⟩] else []) ++
      if r.hi = .last w then [] else complementFrom (r.hi + 1) rest

/-- The words that a normalized list leaves out. -/
def complement (ranges : List (WordRange w)) : List (WordRange w) := complementFrom 0 ranges

theorem units_complementFrom (next : Word w) (ranges : List (WordRange w)) :
    (complementFrom next ranges).map units =
      UnitRange.complementFrom w.maxUnit next.toNat (ranges.map units) := by
  induction ranges generalizing next with
  | nil => simp [complementFrom, UnitRange.complementFrom, units, Word.toNat_last]
  | cons r rest ih =>
    have hgap : (if next < r.lo then [⟨next, r.lo - 1⟩] else []).map units =
        if next.toNat < r.lo.toNat then [⟨next.toNat, r.lo.toNat - 1⟩] else [] := by
      split
      · rename_i hlt
        have hpos : 0 < r.lo.toNat := Nat.zero_lt_of_lt hlt
        rw [if_pos (BitVec.lt_def.mp hlt), List.map_singleton, units, Word.toNat_pred hpos]
      · rename_i hle
        rw [if_neg (mt BitVec.lt_def.mpr hle)]
        rfl
    rw [complementFrom, List.map_append, hgap, List.map_cons, UnitRange.complementFrom]
    refine congrArg _ ?_
    by_cases hlast : r.hi = .last w
    · have hunits : r.units.hi = w.maxUnit := Word.eq_last_iff.mp hlast
      rw [if_pos hlast, if_pos hunits, List.map_nil]
    · have hunits : r.units.hi ≠ w.maxUnit := mt Word.eq_last_iff.mpr hlast
      have hsucc : (r.hi + 1).toNat = r.units.hi + 1 :=
        Word.toNat_succ (Nat.lt_of_le_of_ne (Word.toNat_le r.hi) hunits)
      rw [if_neg hlast, if_neg hunits, ih, hsucc]

/-- No bound of a complement wraps around. -/
theorem units_complement (ranges : List (WordRange w)) :
    (complement ranges).map units = UnitRange.complement w (ranges.map units) := by
  rw [complement, units_complementFrom, UnitRange.complement, Word.toNat_zero]

end WordRange

end LineRegex
