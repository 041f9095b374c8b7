/-
LineRegex.Proofs.Width.Clipping — classes cut off at the last unit of a width.

Where a wide class reaches beyond the last narrow unit, the narrow class of the
same members ends there and is otherwise the same, range by range: sorting,
merging and complementing all go the same way up to the limit.

  §1 Ranges      — a clipped range has the same units up to the limit.
  §2 Normal form — clipping commutes with normalizing.
  §3 Classes     — the shorthands, and classes given by members.
-/
import Mathlib.Data.List.Basic
import LineRegex.Pattern.Bracket
import LineRegex.Proofs.Ranges

namespace LineRegex

namespace UnitRange

/-! ## §1 Ranges -/

/-- The part of a range up to a limit. -/
def clip (limit : CodeUnit) (r : UnitRange) : UnitRange := ⟨r.lo, min r.hi limit⟩

variable {limit : CodeUnit}

theorem clip_eq_self {r : UnitRange} (h : r.hi ≤ limit) : r.clip limit = r := by
  rw [clip, Nat.min_eq_left h]

theorem contains_clip {u : CodeUnit} (hu : u ≤ limit) (r : UnitRange) :
    (r.clip limit).contains u = r.contains u := by
  rw [Bool.eq_iff_iff, contains_iff, contains_iff]
  exact and_congr_right fun _ => Nat.le_min.trans (and_iff_left hu)

/-- Up to the limit, clipped ranges cover the same units. -/
theorem covers_map_clip {u : CodeUnit} (hu : u ≤ limit) (ranges : List UnitRange) :
    covers (ranges.map (clip limit)) u = covers ranges u := by
  rw [covers, List.any_map]
  exact congrArg ranges.any (funext fun r => contains_clip hu r)

/-! ## §2 Normal form -/

theorem le_clip {r s : UnitRange} (h : le r s = true) :
    le (r.clip limit) (s.clip limit) = true := by
  rw [le_iff] at *
  rcases h with hlt | ⟨heq, hle⟩
  · exact .inl hlt
  · exact .inr ⟨heq, Nat.le_min.mpr
      ⟨Nat.le_trans (Nat.min_le_left ..) hle, Nat.min_le_right ..⟩⟩

/-- Sorting and clipping commute: there is one sorted list of the clipped ranges. -/
theorem mergeSort_map_clip (ranges : List UnitRange) :
    (ranges.map (clip limit)).mergeSort le = (ranges.mergeSort le).map (clip limit) := by
  have hsorted : ((ranges.mergeSort le).map (clip limit)).Pairwise fun r s => le r s = true := by
    rw [List.pairwise_map]
    exact (sorted_mergeSort ranges).imp le_clip
  have hperm : ((ranges.map (clip limit)).mergeSort le).Perm
      ((ranges.mergeSort le).map (clip limit)) :=
    (List.mergeSort_perm _ _).trans ((List.mergeSort_perm ranges _).map (clip limit)).symm
  exact hperm.eq_of_pairwise (fun r s _ _ hrs hsr => le_antisymm hrs hsr)
    (sorted_mergeSort _) hsorted

/-- A range that begins up to the limit joins a clipped one as it joins the one unclipped. -/
theorem lo_le_clip_iff {lo hi limit : Nat} (h : lo ≤ limit) :
    lo ≤ min hi limit + 1 ↔ lo ≤ hi + 1 := by
  omega

theorem mergeFrom_map_clip (last : UnitRange) {ranges : List UnitRange}
    (h : ∀ r ∈ ranges, r.lo ≤ limit) :
    mergeFrom (last.clip limit) (ranges.map (clip limit)) =
      (mergeFrom last ranges).map (clip limit) := by
  fun_induction mergeFrom last ranges with
  | case1 last => rfl
  | case2 last r rest hjoin ih =>
    obtain ⟨hr, hrest⟩ := List.forall_mem_cons.mp h
    have hjoin' : (r.clip limit).lo ≤ (last.clip limit).hi + 1 := (lo_le_clip_iff hr).mpr hjoin
    have hgrown : (⟨(last.clip limit).lo, max (last.clip limit).hi (r.clip limit).hi⟩ : UnitRange) =
        clip limit ⟨last.lo, max last.hi r.hi⟩ :=
      congrArg (UnitRange.mk last.lo) (Nat.min_max_distrib_right ..).symm
    rw [List.map_cons, mergeFrom, if_pos hjoin', hgrown]
    exact ih hrest
  | case3 last r rest hgap ih =>
    obtain ⟨hr, hrest⟩ := List.forall_mem_cons.mp h
    have hgap' : ¬(r.clip limit).lo ≤ (last.clip limit).hi + 1 := mt (lo_le_clip_iff hr).mp hgap
    rw [List.map_cons, mergeFrom, if_neg hgap', ih hrest]
    rfl

/-- The normal form of clipped ranges is the clipped normal form, unless a range
lies beyond the limit as a whole. -/
theorem normalize_map_clip {ranges : List UnitRange} (h : ∀ r ∈ ranges, r.lo ≤ limit) :
    normalize (ranges.map (clip limit)) = (normalize ranges).map (clip limit) := by
  rw [normalize, mergeSort_map_clip, normalize]
  have hsorted : ∀ r ∈ ranges.mergeSort le, r.lo ≤ limit := by
    intro r hr
    exact h r (List.mem_mergeSort.mp hr)
  cases hmerge : ranges.mergeSort le with
  | nil => rfl
  | cons r rest =>
    rw [hmerge] at hsorted
    exact mergeFrom_map_clip r (List.forall_mem_cons.mp hsorted).2

end UnitRange

/-! ## §3 Classes -/

/-- The class without the units of its ranges beyond a limit. -/
def CharClass.clip (limit : CodeUnit) (c : CharClass) : CharClass :=
  { c with ranges := c.ranges.map (·.clip limit) }

/-- Up to the limit, a clipped class accepts the same units. -/
theorem CharClass.accepts_clip {limit u : CodeUnit} (hu : u ≤ limit) (c : CharClass) :
    (c.clip limit).accepts u = c.accepts u := by
  rw [accepts, accepts, clip, UnitRange.covers_map_clip hu]

theorem Shorthand.ranges_narrow (s : Shorthand) :
    s.ranges .narrow = (s.ranges .wide).map (·.clip Width.narrow.maxUnit) := by
  cases s <;> rfl

theorem Shorthand.lo_le_of_mem_ranges (s : Shorthand) :
    ∀ r ∈ s.ranges .wide, r.lo ≤ Width.narrow.maxUnit := by
  cases s <;> decide

/-- The units that the member names are narrow. -/
def Member.IsNarrow : Member → Prop
  | single u => u ≤ Width.narrow.maxUnit
  | range lo hi => lo ≤ Width.narrow.maxUnit ∧ hi ≤ Width.narrow.maxUnit
  | shorthand _ => True

theorem Member.ranges_narrow {m : Member} (h : m.IsNarrow) :
    m.ranges .narrow = (m.ranges .wide).map (·.clip Width.narrow.maxUnit) ∧
      ∀ r ∈ m.ranges .wide, r.lo ≤ Width.narrow.maxUnit := by
  cases m with
  | single u =>
    have hclip : (UnitRange.single u).clip Width.narrow.maxUnit = .single u :=
      UnitRange.clip_eq_self h
    exact ⟨congrArg ([·]) hclip.symm, List.forall_mem_singleton.mpr h⟩
  | range lo hi =>
    have hclip : (⟨lo, hi⟩ : UnitRange).clip Width.narrow.maxUnit = ⟨lo, hi⟩ :=
      UnitRange.clip_eq_self h.2
    exact ⟨congrArg ([·]) hclip.symm, List.forall_mem_singleton.mpr h.1⟩
  | shorthand s => exact ⟨s.ranges_narrow, s.lo_le_of_mem_ranges⟩

/-- The narrow class of narrow members is the wide one, clipped. -/
theorem CharClass.ofMembers_narrow (negated : Bool) {members : List Member}
    (h : ∀ m ∈ members, m.IsNarrow) :
    ofMembers .narrow negated members =
      (ofMembers .wide negated members).clip Width.narrow.maxUnit := by
  have hranges : members.flatMap (Member.ranges .narrow) =
      (members.flatMap (Member.ranges .wide)).map (·.clip Width.narrow.maxUnit) := by
    rw [List.map_flatMap]
    exact List.flatMap_congr fun m hm => (Member.ranges_narrow (h m hm)).1
  have hlower : ∀ r ∈ members.flatMap (Member.ranges .wide), r.lo ≤ Width.narrow.maxUnit := by
    intro r hr
    obtain ⟨m, hm, hr⟩ := List.mem_flatMap.mp hr
    exact (Member.ranges_narrow (h m hm)).2 r hr
  rw [ofMembers, hranges, UnitRange.normalize_map_clip hlower]
  rfl

end LineRegex
