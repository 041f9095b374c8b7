/-
LineRegex.Proofs.Ranges.Canonical — the normal form of a set of units.

A list of ranges stands for the units that it covers. Its normal form covers the
same units, and a normal list is determined by the units it covers: its members
are the longest runs of them. So the normal form depends on the set alone, however
it was written, and normalizing decides whether two lists stand for the same set.

  §1 Runs        — the members of a normal list are the runs of covered units.
  §2 Coverage    — sorting and merging keep the units that are covered.
  §3 Canonicity
-/
import Mathlib.Data.List.Pairwise
import LineRegex.Proofs.Ranges
import LineRegex.Proofs.Ranges.Words

namespace LineRegex

namespace UnitRange

/-! ## §1 Runs -/

/-- The range is a longest run of units with the property. -/
structure IsRun (P : CodeUnit → Prop) (r : UnitRange) : Prop where
  proper : r.lo ≤ r.hi
  inside : ∀ u, r.lo ≤ u → u ≤ r.hi → P u
  behind : ¬P (r.hi + 1)
  before : ∀ u, u + 1 = r.lo → ¬P u

/-- A run that shares a unit with another does not end in front of its end. -/
theorem IsRun.hi_le {P : CodeUnit → Prop} {r s : UnitRange} (hr : IsRun P r)
    (hs : IsRun P s) {u : CodeUnit} (hru : u ≤ r.hi) (hsu : s.lo ≤ u) : s.hi ≤ r.hi := by
  refine Nat.le_of_not_lt fun hlt => hr.behind (hs.inside (r.hi + 1) ?_ hlt)
  exact Nat.le_succ_of_le (Nat.le_trans hsu hru)

/-- A run that shares a unit with another does not begin behind its beginning. -/
theorem IsRun.lo_le {P : CodeUnit → Prop} {r s : UnitRange} (hr : IsRun P r)
    (hs : IsRun P s) {u : CodeUnit} (hru : r.lo ≤ u) (hsu : u ≤ s.hi) : r.lo ≤ s.lo := by
  refine Nat.le_of_not_lt fun hlt => ?_
  obtain ⟨v, hv⟩ : ∃ v, v + 1 = r.lo := ⟨r.lo - 1, Nat.succ_pred_eq_of_pos (Nat.zero_lt_of_lt hlt)⟩
  exact hr.before v hv (hs.inside v (by grind) (by grind))

/-- Two runs that share a unit are the same. -/
theorem IsRun.eq {P : CodeUnit → Prop} {r s : UnitRange} (hr : IsRun P r)
    (hs : IsRun P s) {u : CodeUnit} (hru : r.lo ≤ u ∧ u ≤ r.hi)
    (hsu : s.lo ≤ u ∧ u ≤ s.hi) : r = s := by
  have hlo : r.lo = s.lo := Nat.le_antisymm (hr.lo_le hs hru.1 hsu.2) (hs.lo_le hr hsu.1 hru.2)
  have hhi : r.hi = s.hi := Nat.le_antisymm (hs.hi_le hr hsu.2 hru.1) (hr.hi_le hs hru.2 hsu.1)
  exact eq_of_ends hlo hhi

/-- Two members of a normal list are the same, or a gap lies between them. -/
theorem IsNormal.eq_or_gap {ranges : List UnitRange} (h : IsNormal ranges) {r s : UnitRange}
    (hr : r ∈ ranges) (hs : s ∈ ranges) : r = s ∨ r.hi + 1 < s.lo ∨ s.hi + 1 < r.lo := by
  have hsymm : Std.Symm fun r s : UnitRange => r = s ∨ r.hi + 1 < s.lo ∨ s.hi + 1 < r.lo :=
    ⟨fun r s h => h.imp Eq.symm Or.symm⟩
  have hpairwise : ranges.Pairwise fun r s => r = s ∨ r.hi + 1 < s.lo ∨ s.hi + 1 < r.lo :=
    h.2.imp fun hgap => .inr (.inl hgap)
  exact hpairwise.forall_of_forall (fun r _ => .inl rfl) hr hs

theorem IsNormal.isRun {ranges : List UnitRange} (h : IsNormal ranges) {r : UnitRange}
    (hr : r ∈ ranges) : IsRun (covers ranges · = true) r where
  proper := h.1 r hr
  inside u hlo hhi := covers_iff.mpr ⟨r, hr, hlo, hhi⟩
  behind hcovered := by
    obtain ⟨s, hs, hlo, hhi⟩ := covers_iff.mp hcovered
    have hproper : r.lo ≤ r.hi := h.1 r hr
    rcases h.eq_or_gap hr hs with rfl | hgap | hgap <;> grind
  before u hu hcovered := by
    obtain ⟨s, hs, hlo, hhi⟩ := covers_iff.mp hcovered
    have hproper : r.lo ≤ r.hi := h.1 r hr
    rcases h.eq_or_gap hr hs with rfl | hgap | hgap <;> grind

/-- The members of a normal list are the runs of the units that it covers. -/
theorem IsNormal.mem_iff_isRun {ranges : List UnitRange} (h : IsNormal ranges) {r : UnitRange} :
    r ∈ ranges ↔ IsRun (covers ranges · = true) r := by
  refine ⟨h.isRun, fun hrun => ?_⟩
  obtain ⟨s, hs, hlo, hhi⟩ := covers_iff.mp (hrun.inside r.lo (Nat.le_refl _) hrun.proper)
  rwa [hrun.eq (h.isRun hs) ⟨Nat.le_refl _, hrun.proper⟩ ⟨hlo, hhi⟩]

/-- A normal list is determined by the units that it covers. -/
theorem IsNormal.eq_of_covers {ranges others : List UnitRange} (h : IsNormal ranges)
    (hothers : IsNormal others) (hcovers : ∀ u, covers ranges u = covers others u) :
    ranges = others := by
  have hmem (r : UnitRange) : r ∈ ranges ↔ r ∈ others := by
    rw [h.mem_iff_isRun, hothers.mem_iff_isRun, funext hcovers]
  have hnodup {ranges : List UnitRange} (h : IsNormal ranges) : ranges.Nodup := by
    refine h.2.imp_of_mem fun {r s} hr _ hgap heq => ?_
    subst heq
    exact absurd (h.1 r hr) (by grind)
  refine List.Perm.eq_of_pairwise (fun r s hr hs hrs hsr => ?_) h.2 hothers.2
    ((List.perm_ext_iff_of_nodup (hnodup h) (hnodup hothers)).mpr hmem)
  have hr : r.lo ≤ r.hi := h.1 r hr
  have hs : s.lo ≤ s.hi := hothers.1 s hs
  grind

/-! ## §2 Coverage -/

/-- Ranges that overlap or touch make one range of the units of both. -/
theorem contains_join {last r : UnitRange} (hlo : last.lo ≤ r.lo) (hjoin : r.lo ≤ last.hi + 1)
    (u : CodeUnit) :
    contains ⟨last.lo, max last.hi r.hi⟩ u = (last.contains u || r.contains u) := by
  rw [Bool.eq_iff_iff, Bool.or_eq_true, contains_iff, contains_iff, contains_iff]
  grind

theorem covers_mergeFrom {last : UnitRange} {ranges : List UnitRange}
    (hsorted : (last :: ranges).Pairwise fun r s => r.lo ≤ s.lo) (u : CodeUnit) :
    covers (mergeFrom last ranges) u = covers (last :: ranges) u := by
  fun_induction mergeFrom last ranges with
  | case1 last => rfl
  | case2 last r rest hjoin ih =>
    obtain ⟨hfront, hbehind⟩ := List.pairwise_cons.mp hsorted
    have hgrown : (⟨last.lo, max last.hi r.hi⟩ :: rest).Pairwise fun r s : UnitRange =>
        r.lo ≤ s.lo :=
      .cons (fun s hs => hfront s (List.mem_cons_of_mem r hs)) hbehind.tail
    rw [ih hgrown, covers_cons, contains_join (hfront r List.mem_cons_self) hjoin, covers_cons,
      covers_cons, Bool.or_assoc]
  | case3 last r rest hgap ih =>
    rw [covers_cons, ih hsorted.tail, covers_cons last]

/-- The normal form covers the units that the list covers. -/
theorem covers_normalize (ranges : List UnitRange) (u : CodeUnit) :
    covers (normalize ranges) u = covers ranges u := by
  have hsort : covers (ranges.mergeSort le) u = covers ranges u :=
    (List.mergeSort_perm ranges le).any_eq
  have hsorted := pairwise_mergeSort ranges
  rw [← hsort, normalize]
  cases hmerge : ranges.mergeSort le with
  | nil => rfl
  | cons r rest =>
    rw [hmerge] at hsorted
    exact covers_mergeFrom hsorted u

theorem le_of_covers {limit u : CodeUnit} {ranges : List UnitRange} (h : ∀ r ∈ ranges, r.hi ≤ limit)
    (hcovers : covers ranges u = true) : u ≤ limit := by
  obtain ⟨r, hr, -, hhi⟩ := covers_iff.mp hcovers
  exact Nat.le_trans hhi (h r hr)

/-- Lists within a limit cover the same units when they agree up to the limit. -/
theorem covers_eq_of_le {limit : CodeUnit} {ranges others : List UnitRange}
    (h : ∀ r ∈ ranges, r.hi ≤ limit) (hothers : ∀ r ∈ others, r.hi ≤ limit)
    (hcovers : ∀ u ≤ limit, covers ranges u = covers others u) (u : CodeUnit) :
    covers ranges u = covers others u := by
  by_cases hu : u ≤ limit
  · exact hcovers u hu
  · rw [Bool.of_not_eq_true (mt (le_of_covers h) hu),
      Bool.of_not_eq_true (mt (le_of_covers hothers) hu)]

/-! ## §3 Canonicity -/

/-- The normal form of ranges of a width is the canonical form of the set of units
that they cover: it covers the same units, it is normal and stays within the width,
it is its own normal form, and two lists have the same normal form just when they
cover the same units. Sorting and merging in place in the machine's arithmetic
yields that form. -/
theorem normalize_canonical (w : Width) {ranges : List UnitRange}
    (h : ∀ r ∈ ranges, r.lo ≤ r.hi ∧ r.hi ≤ w.maxUnit) :
    (∀ u, covers (normalize ranges) u = covers ranges u) ∧
    IsNormal (normalize ranges) ∧
    (∀ r ∈ normalize ranges, r.hi ≤ w.maxUnit) ∧
    normalize (normalize ranges) = normalize ranges ∧
    (∀ others : List UnitRange, (∀ r ∈ others, r.lo ≤ r.hi ∧ r.hi ≤ w.maxUnit) →
      (normalize others = normalize ranges ↔
        ∀ u ≤ w.maxUnit, covers others u = covers ranges u)) ∧
    (WordRange.normalize (ranges.map (.ofUnits w))).map WordRange.units = normalize ranges := by
  have hnormal : IsNormal (normalize ranges) := isNormal_normalize fun r hr => (h r hr).1
  refine ⟨covers_normalize ranges, hnormal, ?_, normalize_of_isNormal hnormal, ?_, ?_⟩
  · intro r hr
    have hcovers := (hnormal.isRun hr).inside r.hi (hnormal.1 r hr) (Nat.le_refl _)
    rw [covers_normalize] at hcovers
    exact le_of_covers (fun s hs => (h s hs).2) hcovers
  · intro others hothers
    constructor
    · intro heq u _
      rw [← covers_normalize others, heq, covers_normalize]
    · intro hcovers
      refine IsNormal.eq_of_covers (isNormal_normalize fun r hr => (hothers r hr).1) hnormal
        fun u => ?_
      rw [covers_normalize, covers_normalize]
      exact covers_eq_of_le (fun r hr => (hothers r hr).2) (fun r hr => (h r hr).2) hcovers u
  · rw [WordRange.units_normalize, WordRange.map_units_ofUnits]
    intro r hr
    exact ⟨Nat.le_trans (h r hr).1 (h r hr).2, (h r hr).2⟩

/-- Ranges out of order, touching, repeated and reaching both ends of the width, and
another way to write their units. -/
theorem normalize_canonical_outOfOrder :
    normalize [⟨5, 9⟩, ⟨0, 3⟩, ⟨4, 4⟩, ⟨200, 255⟩, ⟨0, 3⟩] = [⟨0, 9⟩, ⟨200, 255⟩] ∧
    normalize [⟨200, 220⟩, ⟨210, 255⟩, ⟨0, 9⟩] =
      normalize [⟨5, 9⟩, ⟨0, 3⟩, ⟨4, 4⟩, ⟨200, 255⟩, ⟨0, 3⟩] ∧
    (WordRange.normalize ([⟨5, 9⟩, ⟨0, 3⟩, ⟨4, 4⟩, ⟨200, 255⟩, ⟨0, 3⟩].map
      (.ofUnits .narrow))).map WordRange.units = [⟨0, 9⟩, ⟨200, 255⟩] := by
  have hnormalize : normalize [⟨5, 9⟩, ⟨0, 3⟩, ⟨4, 4⟩, ⟨200, 255⟩, ⟨0, 3⟩] =
      [⟨0, 9⟩, ⟨200, 255⟩] := by
    simp [normalize, List.mergeSort, List.MergeSort.Internal.splitInTwo, le, merge, mergeFrom]
  obtain ⟨-, -, -, -, hothers, hwords⟩ := @normalize_canonical .narrow
    [⟨5, 9⟩, ⟨0, 3⟩, ⟨4, 4⟩, ⟨200, 255⟩, ⟨0, 3⟩] (by decide)
  refine ⟨hnormalize, ?_, hwords.trans hnormalize⟩
  exact (hothers [⟨200, 220⟩, ⟨210, 255⟩, ⟨0, 9⟩] (by decide)).mpr (by decide +kernel)

end UnitRange

end LineRegex
