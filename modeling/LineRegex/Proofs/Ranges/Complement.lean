/-
LineRegex.Proofs.Ranges.Complement — the units that a normal list leaves out.

The complement walks along the list with the first unit not dealt with yet. From
there on it covers what the list does not, in normal form, and being a normal list
it is determined by that: taking the complement twice gives back the list.

  §1 Walking     — what is left out from a unit on.
  §2 Complements — what a normal list leaves out of the width, gap by gap.
  §3 Exactness
-/
import LineRegex.Proofs.Ranges.Canonical

namespace LineRegex

namespace UnitRange

/-! ## §1 Walking -/

/-- A normal list whose ranges begin at `next` at the earliest, within the units up
to `limit`. -/
structure IsAhead (limit next : CodeUnit) (ranges : List UnitRange) : Prop where
  normal : IsNormal ranges
  within : ∀ r ∈ ranges, r.hi ≤ limit
  ahead : ∀ r ∈ ranges, next ≤ r.lo
  next_le : next ≤ limit

/-- Behind a range that does not reach the limit there is a unit to go on from. -/
theorem IsAhead.behind {limit next : CodeUnit} {r : UnitRange} {rest : List UnitRange}
    (h : IsAhead limit next (r :: rest)) (hlast : r.hi ≠ limit) :
    IsAhead limit (r.hi + 1) rest where
  normal := h.normal.tail
  within _ hs := h.within _ (List.mem_cons_of_mem r hs)
  ahead _ hs := Nat.le_of_lt (List.rel_of_pairwise_cons h.normal.2 hs)
  next_le := Nat.lt_of_le_of_ne (h.within r List.mem_cons_self) hlast

/-- The units between the bound and the next range. -/
theorem covers_gap {next lo u : CodeUnit} :
    covers (if next < lo then [⟨next, lo - 1⟩] else []) u = true ↔ next ≤ u ∧ u < lo := by
  split
  · simp only [covers_iff, List.mem_singleton, exists_eq_left]
    grind
  · simp only [covers_iff, List.not_mem_nil, false_and, exists_false]
    grind

/-- From the bound on, the units up to the limit are covered that the list leaves out. -/
theorem covers_complementFrom {limit next : CodeUnit} {ranges : List UnitRange}
    (h : IsAhead limit next ranges) (u : CodeUnit) :
    covers (complementFrom limit next ranges) u = true ↔
      next ≤ u ∧ u ≤ limit ∧ ¬covers ranges u = true := by
  induction ranges generalizing next with
  | nil => simp [complementFrom, covers_iff]
  | cons r rest ih =>
    have hproper : r.lo ≤ r.hi := h.normal.1 r List.mem_cons_self
    have hwithin : r.hi ≤ limit := h.within r List.mem_cons_self
    have hahead : next ≤ r.lo := h.ahead r List.mem_cons_self
    have hrest : covers rest u = true → r.hi + 1 < u := by
      intro hcovers
      obtain ⟨s, hs, hlo, -⟩ := covers_iff.mp hcovers
      exact Nat.lt_of_lt_of_le (List.rel_of_pairwise_cons h.normal.2 hs) hlo
    have hbehind : covers (if r.hi = limit then [] else complementFrom limit (r.hi + 1) rest) u =
        true ↔ r.hi + 1 ≤ u ∧ u ≤ limit ∧ ¬covers rest u = true := by
      split
      · rename_i hlast
        simp only [covers_iff, List.not_mem_nil, false_and, exists_false, false_iff]
        grind
      · rename_i hlast
        exact ih (h.behind hlast)
    rw [complementFrom, covers_append, covers_cons, Bool.or_eq_true, Bool.or_eq_true, covers_gap,
      hbehind, contains_iff]
    grind

/-- The gaps come out in order: each lies behind the bound and in front of the next
range, which the gaps after it lie behind. -/
theorem isNormal_complementFrom {limit next : CodeUnit} {ranges : List UnitRange}
    (h : IsAhead limit next ranges) :
    IsNormal (complementFrom limit next ranges) ∧
      ∀ c ∈ complementFrom limit next ranges, next ≤ c.lo := by
  induction ranges generalizing next with
  | nil => simpa [complementFrom, IsNormal] using h.next_le
  | cons r rest ih =>
    have hproper : r.lo ≤ r.hi := h.normal.1 r List.mem_cons_self
    have hahead : next ≤ r.lo := h.ahead r List.mem_cons_self
    obtain ⟨hnormal, hlower⟩ :
        IsNormal (if r.hi = limit then [] else complementFrom limit (r.hi + 1) rest) ∧
        ∀ c ∈ (if r.hi = limit then [] else complementFrom limit (r.hi + 1) rest),
          r.hi + 1 ≤ c.lo := by
      split
      · exact ⟨⟨by simp, .nil⟩, by simp⟩
      · rename_i hlast
        exact ih (h.behind hlast)
    have hfront := fun c hc => Nat.lt_of_le_of_lt hproper (hlower c hc)
    have hnext := fun c hc => Nat.le_of_lt (Nat.lt_of_le_of_lt hahead (hfront c hc))
    rw [complementFrom]
    split
    · rename_i hgap
      have hend : r.lo - 1 + 1 = r.lo := Nat.succ_pred_eq_of_pos (Nat.zero_lt_of_lt hgap)
      refine ⟨⟨List.forall_mem_cons.mpr ⟨Nat.le_pred_of_lt hgap, hnormal.1⟩,
        .cons (fun c hc => ?_) hnormal.2⟩, List.forall_mem_cons.mpr ⟨Nat.le_refl _, hnext⟩⟩
      rw [hend]
      exact hfront c hc
    · exact ⟨hnormal, hnext⟩

/-! ## §2 Complements -/

/-- The range begins at 0 or right behind a range of the list, and ends at the last
unit of the width or right in front of one. -/
def FillsGap (w : Width) (ranges : List UnitRange) (c : UnitRange) : Prop :=
  (c.lo = 0 ∨ ∃ r ∈ ranges, r.hi + 1 = c.lo) ∧
    (c.hi = w.maxUnit ∨ ∃ r ∈ ranges, c.hi + 1 = r.lo)

section Complements

variable {w : Width} {ranges : List UnitRange} (hnormal : IsNormal ranges)
  (hwithin : ∀ r ∈ ranges, r.hi ≤ w.maxUnit)

include hnormal hwithin

theorem isAhead_zero : IsAhead w.maxUnit 0 ranges where
  normal := hnormal
  within := hwithin
  ahead _ _ := Nat.zero_le _
  next_le := Nat.zero_le _

/-- The complement covers the units of the width that the list leaves out. -/
theorem covers_complement (u : CodeUnit) :
    covers (complement w ranges) u = true ↔ u ≤ w.maxUnit ∧ ¬covers ranges u = true := by
  rw [complement, covers_complementFrom (isAhead_zero hnormal hwithin)]
  exact and_iff_right (Nat.zero_le u)

theorem isNormal_complement : IsNormal (complement w ranges) :=
  (isNormal_complementFrom (isAhead_zero hnormal hwithin)).1

theorem within_complement : ∀ c ∈ complement w ranges, c.hi ≤ w.maxUnit := by
  intro c hc
  have hproper : c.lo ≤ c.hi := (isNormal_complement hnormal hwithin).1 c hc
  have hcovers : covers (complement w ranges) c.hi = true :=
    covers_iff.mpr ⟨c, hc, hproper, Nat.le_refl _⟩
  exact ((covers_complement hnormal hwithin c.hi).mp hcovers).1

/-- A range of the complement is a longest run of units that the list leaves out, so
the units next to it are covered, by ranges that end and begin there. -/
theorem fillsGap_of_mem_complement {c : UnitRange} (hc : c ∈ complement w ranges) :
    FillsGap w ranges c := by
  have hrun := (isNormal_complement hnormal hwithin).isRun hc
  simp only [covers_complement hnormal hwithin] at hrun
  have hmax : c.hi ≤ w.maxUnit := within_complement hnormal hwithin c hc
  constructor
  · refine or_iff_not_imp_left.mpr fun hlo => ?_
    obtain ⟨u, hu⟩ : ∃ u, u + 1 = c.lo := ⟨c.lo - 1, Nat.succ_pred_eq_of_ne_zero hlo⟩
    have hulimit : u ≤ w.maxUnit := by grind [hrun.proper]
    obtain ⟨r, hr, hrlo, hrhi⟩ :=
      covers_iff.mp (not_not.mp fun hout => hrun.before u hu ⟨hulimit, hout⟩)
    refine ⟨r, hr, hu ▸ congrArg (· + 1) (Nat.le_antisymm (Nat.le_of_not_lt fun hlt => ?_) hrhi)⟩
    have hcovers : covers ranges c.lo = true := covers_iff.mpr ⟨r, hr, by grind, by grind⟩
    exact (hrun.inside c.lo (Nat.le_refl _) hrun.proper).2 hcovers
  · refine or_iff_not_imp_left.mpr fun hhi => ?_
    have hlimit : c.hi + 1 ≤ w.maxUnit := Nat.lt_of_le_of_ne hmax hhi
    obtain ⟨r, hr, hrlo, hrhi⟩ :=
      covers_iff.mp (not_not.mp fun hout => hrun.behind ⟨hlimit, hout⟩)
    refine ⟨r, hr, Nat.le_antisymm (Nat.le_of_not_lt fun hlt => ?_) hrlo⟩
    have hcovers : covers ranges c.hi = true :=
      covers_iff.mpr ⟨r, hr, Nat.le_of_lt_succ hlt, Nat.le_of_succ_le hrhi⟩
    exact (hrun.inside c.hi hrun.proper (Nat.le_refl _)).2 hcovers

/-- Taking the complement twice gives back the list: both lists are normal and
cover the same units. -/
theorem complement_complement : complement w (complement w ranges) = ranges := by
  have hcnormal : IsNormal (complement w ranges) := isNormal_complement hnormal hwithin
  have hcwithin := within_complement hnormal hwithin
  refine (isNormal_complement hcnormal hcwithin).eq_of_covers hnormal fun u => ?_
  rw [Bool.eq_iff_iff, covers_complement hcnormal hcwithin, covers_complement hnormal hwithin,
    not_and, not_not]
  exact ⟨fun h => h.2 h.1, fun h => ⟨le_of_covers hwithin h, fun _ => h⟩⟩

end Complements

/-! ## §3 Exactness -/

/-- The complement of a normal list of ranges of a width is exact and an involution:
it is normal, every unit of the width lies in one of the two lists and not in both,
its ranges fill the gaps of the list, and its own complement is the list. The
machine's arithmetic yields it without wrapping around. -/
theorem complement_exact (w : Width) {ranges : List UnitRange} (hnormal : IsNormal ranges)
    (hwithin : ∀ r ∈ ranges, r.hi ≤ w.maxUnit) :
    IsNormal (complement w ranges) ∧
    (∀ c ∈ complement w ranges, c.hi ≤ w.maxUnit ∧ FillsGap w ranges c) ∧
    (∀ u ≤ w.maxUnit, covers (complement w ranges) u = !covers ranges u) ∧
    complement w (complement w ranges) = ranges ∧
    (WordRange.complement (ranges.map (.ofUnits w))).map WordRange.units = complement w ranges := by
  refine ⟨isNormal_complement hnormal hwithin, ?_, ?_, complement_complement hnormal hwithin, ?_⟩
  · intro c hc
    exact ⟨within_complement hnormal hwithin c hc, fillsGap_of_mem_complement hnormal hwithin hc⟩
  · intro u hu
    rw [Bool.eq_iff_iff, covers_complement hnormal hwithin, and_iff_right hu, Bool.not_eq_true']
    exact Bool.eq_false_iff.symm
  · rw [WordRange.units_complement, WordRange.map_units_ofUnits]
    intro r hr
    exact ⟨Nat.le_trans (hnormal.1 r hr) (hwithin r hr), hwithin r hr⟩

/-- A list that reaches both ends of the width, and the two that leave out nothing
and everything. -/
theorem complement_exact_bothEnds :
    (complement .narrow [⟨0, 9⟩, ⟨20, 20⟩, ⟨200, 255⟩] = [⟨10, 19⟩, ⟨21, 199⟩] ∧
      complement .narrow [⟨10, 19⟩, ⟨21, 199⟩] = [⟨0, 9⟩, ⟨20, 20⟩, ⟨200, 255⟩]) ∧
    complement .narrow (complement .narrow []) = [] ∧
    complement .wide (complement .wide [⟨0, Width.wide.maxUnit⟩]) = [⟨0, Width.wide.maxUnit⟩] := by
  have hnormal : IsNormal [⟨0, 9⟩, ⟨20, 20⟩, ⟨200, 255⟩] := by
    unfold IsNormal
    decide
  have hempty : IsNormal [] := ⟨by simp, .nil⟩
  have hfull : IsNormal [⟨0, Width.wide.maxUnit⟩] := by
    unfold IsNormal
    decide
  have hcomplement : complement .narrow [⟨0, 9⟩, ⟨20, 20⟩, ⟨200, 255⟩] =
      [⟨10, 19⟩, ⟨21, 199⟩] := by decide
  obtain ⟨-, -, -, hback, -⟩ := complement_exact .narrow hnormal (by decide)
  obtain ⟨-, -, -, hbackEmpty, -⟩ := complement_exact .narrow hempty (by simp)
  obtain ⟨-, -, -, hbackFull, -⟩ := complement_exact .wide hfull (by simp)
  exact ⟨⟨hcomplement, hcomplement ▸ hback⟩, hbackEmpty, hbackFull⟩

end UnitRange

end LineRegex
