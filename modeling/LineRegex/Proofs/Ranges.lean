/-
LineRegex.Proofs.Ranges — the normal form of lists of ranges.

  §1 Units        — which units a range contains and a list covers.
  §2 Normal lists — sorted, with a gap of at least one unit between neighbours.
  §3 Normalizing  — a normal list is left as it is, and any other becomes one.
  §4 Shorthands   — the ranges of shorthand classes are normal.
-/
import LineRegex.UnitRange

namespace LineRegex

namespace UnitRange

/-! ## §1 Units -/

theorem eq_of_ends {r s : UnitRange} (hlo : r.lo = s.lo) (hhi : r.hi = s.hi) : r = s := by
  cases r
  cases s
  cases hlo
  cases hhi
  rfl

theorem contains_iff {r : UnitRange} {u : CodeUnit} :
    r.contains u = true ↔ r.lo ≤ u ∧ u ≤ r.hi := by
  simp only [contains, Bool.and_eq_true, decide_eq_true_eq]

theorem covers_iff {ranges : List UnitRange} {u : CodeUnit} :
    covers ranges u = true ↔ ∃ r ∈ ranges, r.lo ≤ u ∧ u ≤ r.hi := by
  simp only [covers, List.any_eq_true, contains_iff]

theorem covers_cons (r : UnitRange) (ranges : List UnitRange) (u : CodeUnit) :
    covers (r :: ranges) u = (r.contains u || covers ranges u) := List.any_cons

theorem covers_append (ranges others : List UnitRange) (u : CodeUnit) :
    covers (ranges ++ others) u = (covers ranges u || covers others u) := List.any_append

/-! ## §2 Normal lists -/

/-- No range is empty, and each begins behind a gap after those before it. -/
def IsNormal (ranges : List UnitRange) : Prop :=
  (∀ r ∈ ranges, r.lo ≤ r.hi) ∧ ranges.Pairwise fun r s => r.hi + 1 < s.lo

theorem IsNormal.tail {r : UnitRange} {ranges : List UnitRange} (h : IsNormal (r :: ranges)) :
    IsNormal ranges :=
  ⟨fun s hs => h.1 s (List.mem_cons_of_mem r hs), h.2.tail⟩

/-! ## §3 Normalizing -/

theorem mergeFrom_of_isNormal {r : UnitRange} {ranges : List UnitRange}
    (h : IsNormal (r :: ranges)) : mergeFrom r ranges = r :: ranges := by
  induction ranges generalizing r with
  | nil => rfl
  | cons s ranges ih =>
    have hgap : r.hi + 1 < s.lo := List.rel_of_pairwise_cons h.2 (List.mem_cons_self ..)
    rw [mergeFrom, if_neg (Nat.not_le.mpr hgap), ih h.tail]

theorem merge_of_isNormal {ranges : List UnitRange} (h : IsNormal ranges) :
    merge ranges = ranges := by
  cases ranges with
  | nil => rfl
  | cons r ranges => exact mergeFrom_of_isNormal h

/-- A normal list is its own normal form. -/
theorem normalize_of_isNormal {ranges : List UnitRange} (h : IsNormal ranges) :
    normalize ranges = ranges := by
  have hsorted : ranges.Pairwise fun r s => le r s = true := by
    refine h.2.imp_of_mem fun {r s} hr _ hgap => ?_
    have hr : r.lo ≤ r.hi := h.1 r hr
    have hlt : r.lo < s.lo := Nat.lt_of_le_of_lt hr (Nat.lt_of_succ_lt hgap)
    simp [le, hlt]
  rw [normalize, List.mergeSort_of_pairwise hsorted, merge_of_isNormal h]

theorem le_iff {r s : UnitRange} :
    le r s = true ↔ r.lo < s.lo ∨ r.lo = s.lo ∧ r.hi ≤ s.hi := by
  simp [le]

theorem lo_le_of_le {r s : UnitRange} (h : le r s = true) : r.lo ≤ s.lo := by
  rcases le_iff.mp h with hlt | ⟨heq, -⟩
  · exact Nat.le_of_lt hlt
  · exact Nat.le_of_eq heq

theorem le_antisymm {r s : UnitRange} (hrs : le r s = true) (hsr : le s r = true) : r = s := by
  have hlo : r.lo = s.lo := Nat.le_antisymm (lo_le_of_le hrs) (lo_le_of_le hsr)
  have hhi : r.hi = s.hi := by
    rw [le_iff] at hrs hsr
    grind
  exact eq_of_ends hlo hhi

theorem sorted_mergeSort (ranges : List UnitRange) :
    (ranges.mergeSort le).Pairwise fun r s => le r s = true := by
  have htrans : ∀ r s t : UnitRange, le r s = true → le s t = true → le r t = true := by
    intro r s t hrs hst
    rw [le_iff] at *
    grind
  have htotal : ∀ r s : UnitRange, (le r s || le s r) = true := by
    intro r s
    rw [Bool.or_eq_true, le_iff, le_iff]
    grind
  exact List.pairwise_mergeSort htrans htotal ranges

/-- Sorting puts the ranges in the order of their lower ends. -/
theorem pairwise_mergeSort (ranges : List UnitRange) :
    (ranges.mergeSort le).Pairwise fun r s => r.lo ≤ s.lo :=
  (sorted_mergeSort ranges).imp lo_le_of_le

theorem mergeFrom_ne_nil (last : UnitRange) (ranges : List UnitRange) :
    mergeFrom last ranges ≠ [] := by
  fun_induction mergeFrom last ranges with
  | case1 => exact List.cons_ne_nil _ _
  | case2 last r rest _ ih => exact ih
  | case3 => exact List.cons_ne_nil _ _

/-- Merging sorted ranges makes them normal, and none begins in front of the first. -/
theorem isNormal_mergeFrom {last : UnitRange} {ranges : List UnitRange}
    (hproper : ∀ r ∈ last :: ranges, r.lo ≤ r.hi)
    (hsorted : (last :: ranges).Pairwise fun r s => r.lo ≤ s.lo) :
    IsNormal (mergeFrom last ranges) ∧ ∀ r ∈ mergeFrom last ranges, last.lo ≤ r.lo := by
  fun_induction mergeFrom last ranges with
  | case1 last => simpa [IsNormal] using hproper
  | case2 last r rest _ ih =>
    obtain ⟨hlast, hr, hrest⟩ : last.lo ≤ last.hi ∧ r.lo ≤ r.hi ∧ ∀ s ∈ rest, s.lo ≤ s.hi := by
      simpa using hproper
    obtain ⟨hfront, -, hbehind⟩ : (∀ s ∈ r :: rest, last.lo ≤ s.lo) ∧
        (∀ s ∈ rest, r.lo ≤ s.lo) ∧ rest.Pairwise fun r s => r.lo ≤ s.lo := by
      simpa using hsorted
    have hgrown : last.lo ≤ max last.hi r.hi := Nat.le_trans hlast (Nat.le_max_left ..)
    refine ih (List.forall_mem_cons.mpr ⟨hgrown, hrest⟩) (.cons ?_ hbehind)
    intro s hs
    exact hfront s (List.mem_cons_of_mem r hs)
  | case3 last r rest hgap ih =>
    obtain ⟨hfront, hbehind⟩ := List.pairwise_cons.mp hsorted
    obtain ⟨hnormal, hlower⟩ := ih (List.forall_mem_cons.mp hproper).2 hbehind
    have hlast : last.lo ≤ last.hi := hproper last List.mem_cons_self
    refine ⟨⟨List.forall_mem_cons.mpr ⟨hlast, hnormal.1⟩, .cons ?_ hnormal.2⟩, ?_⟩
    · intro s hs
      exact Nat.lt_of_lt_of_le (Nat.lt_of_not_le hgap) (hlower s hs)
    · refine List.forall_mem_cons.mpr ⟨Nat.le_refl _, fun s hs => ?_⟩
      exact Nat.le_trans (hfront r List.mem_cons_self) (hlower s hs)

/-- The normal form of ranges that are not empty is normal. -/
theorem isNormal_normalize {ranges : List UnitRange} (hproper : ∀ r ∈ ranges, r.lo ≤ r.hi) :
    IsNormal (normalize ranges) := by
  have hsorted := pairwise_mergeSort ranges
  rw [normalize]
  cases hmerge : ranges.mergeSort le with
  | nil => exact ⟨by simp [merge], .nil⟩
  | cons r rest =>
    rw [hmerge] at hsorted
    refine (isNormal_mergeFrom ?_ hsorted).1
    intro s hs
    exact hproper s (List.mem_mergeSort.mp (hmerge ▸ hs))

theorem normalize_ne_nil {ranges : List UnitRange} (h : ranges ≠ []) : normalize ranges ≠ [] := by
  rw [normalize]
  cases hmerge : ranges.mergeSort le with
  | nil =>
    have hlength : (ranges.mergeSort le).length = ranges.length := List.length_mergeSort ranges
    rw [hmerge] at hlength
    exact absurd (List.length_eq_zero_iff.mp hlength.symm) h
  | cons r rest => exact mergeFrom_ne_nil r rest

end UnitRange

/-! ## §4 Shorthands -/

namespace Shorthand

theorem isNormal_ranges (w : Width) (s : Shorthand) : UnitRange.IsNormal (s.ranges w) := by
  unfold UnitRange.IsNormal
  cases w <;> cases s <;> decide

theorem ranges_ne_nil (w : Width) (s : Shorthand) : s.ranges w ≠ [] := by
  cases w <;> cases s <;> decide

end Shorthand

end LineRegex
