/-
LineRegex.Proofs.Recognition — attempts decide the language of their pattern.

For a parsed pattern without backreferences an attempt that keeps to its
budget succeeds exactly if the tree spans some part of the text that begins
there, and what it finds is such a part. That bounds are in order, which the
machine relies on, comes from the grammar.

  §1 Bounds       — the bounds in parsed patterns are in order.
  §2 Recognition
-/
import LineRegex.Proofs.Grammar.References
import LineRegex.Proofs.Grammar.Shape
import LineRegex.Proofs.Language

namespace LineRegex

open Grammar

/-! ## §1 Bounds -/

theorem Expr.WellShaped.orderedBounds {r : Regex} (h : r.WellShaped) : r.OrderedBounds := by
  cases r with
  | quantified body bounds => exact fun m hm => (h.2.2 m hm).1
  | unit | charClass | any | anchor | group | backreference | concat | alternation => trivial

/-- The bounds in a parsed pattern are in order. -/
theorem orderedBounds_of_parse {w : Width} {source : Text} {p : Pattern}
    (h : parse w source = .ok p) : p.root.Everywhere Expr.OrderedBounds := by
  obtain ⟨a, ha, -, rfl⟩ := exists_patternRead_of_parse h
  exact (a.wellShaped_branches w _ 0 0 ha.valid).imp fun _ => Expr.WellShaped.orderedBounds

/-! ## §2 Recognition -/

namespace Pattern

variable {p : Pattern} {text : Text} {start : Nat}

/-- The outcomes of a pattern end exactly where its tree matches up to. -/
theorem exists_outcome_iff (hback : p.root.Everywhere Expr.NotBackreference)
    (hordered : p.root.Everywhere Expr.OrderedBounds) (j : Nat) :
    (∃ e ∈ p.outcomes text start, e.cursor = j) ↔ p.root.Spans text start j :=
  Expr.reaches_outcomes_iff text hback hordered ⟨start, Captures.unset p.groupCount⟩ j

theorem exists_outcome_of_match {accepts : Endpoint → Bool} {budget : Nat} {m : Match}
    (hstart : start ≤ text.size)
    (h : (p.attempt accepts budget text start).verdict = .matched m) :
    ∃ e ∈ p.outcomes text start, accepts e = true ∧ p.matchTo text start e = m := by
  have hbudget : (p.attempt accepts budget text start).verdict ≠ .exceeded := by rw [h]; nofun
  rw [(p.verdict_attempt accepts budget hstart).resolve_left hbudget,
    Verdict.ofOption_eq_matched_iff, Option.map_eq_some_iff] at h
  obtain ⟨e, hfind, hm⟩ := h
  exact ⟨e, List.mem_of_find?_eq_some hfind, List.find?_some hfind, hm⟩

/-- What matches the whole of a text spans it. -/
theorem whole_of_fullMatch {budget : Nat} {m : Match}
    (h : (p.fullMatch budget text).verdict = .matched m) : m.whole = ⟨0, text.size⟩ := by
  obtain ⟨e, -, haccepted, rfl⟩ := exists_outcome_of_match (Nat.zero_le _) h
  have hend : e.cursor = text.size := beq_iff_eq.mp haccepted
  rw [← hend]
  rfl

/-- An attempt within its budget succeeds exactly if there is an accepted outcome. -/
theorem exists_match_iff {accepts : Endpoint → Bool} {budget : Nat} (hstart : start ≤ text.size)
    (hbudget : (p.attempt accepts budget text start).verdict ≠ .exceeded) :
    (∃ m, (p.attempt accepts budget text start).verdict = .matched m) ↔
      ∃ e ∈ p.outcomes text start, accepts e = true := by
  constructor
  · rintro ⟨m, hm⟩
    obtain ⟨e, he, haccept, -⟩ := exists_outcome_of_match hstart hm
    exact ⟨e, he, haccept⟩
  · rintro ⟨e, he, haccept⟩
    have hfound : ((p.outcomes text start).find? accepts).isSome = true :=
      List.find?_isSome.mpr ⟨e, he, haccept⟩
    obtain ⟨e', he'⟩ := Option.isSome_iff_exists.mp hfound
    rw [(p.verdict_attempt accepts budget hstart).resolve_left hbudget, he']
    exact ⟨p.matchTo text start e', rfl⟩

/-- For a parsed pattern without backreferences, attempts that keep to their
budget are sound and complete: `matchAt` succeeds if and only if the tree
matches from `start` up to some position, and stops at such a position;
`fullMatch` succeeds if and only if the tree matches the whole text. -/
theorem matchAt_fullMatch_iff_spans {w : Width} {source : Text} (hparse : parse w source = .ok p)
    (hback : p.root.Everywhere Expr.NotBackreference) (budget : Nat) (hstart : start ≤ text.size) :
    ((p.matchAt budget text start).verdict ≠ .exceeded →
      ((∃ m, (p.matchAt budget text start).verdict = .matched m) ↔
        ∃ j, p.root.Spans text start j) ∧
      ∀ m, (p.matchAt budget text start).verdict = .matched m →
        m.whole.start = start ∧ p.root.Spans text start m.whole.stop) ∧
    ((p.fullMatch budget text).verdict ≠ .exceeded →
      ((∃ m, (p.fullMatch budget text).verdict = .matched m) ↔
        p.root.Spans text 0 text.size)) := by
  have hordered := orderedBounds_of_parse hparse
  constructor
  · intro hbudget
    constructor
    · rw [matchAt, exists_match_iff hstart hbudget]
      constructor
      · rintro ⟨e, he, -⟩
        exact ⟨e.cursor, (exists_outcome_iff hback hordered e.cursor).mp ⟨e, he, rfl⟩⟩
      · rintro ⟨j, hj⟩
        obtain ⟨e, he, -⟩ := (exists_outcome_iff hback hordered j).mpr hj
        exact ⟨e, he, rfl⟩
    · intro m hm
      obtain ⟨e, he, -, rfl⟩ := exists_outcome_of_match hstart hm
      exact ⟨rfl, (exists_outcome_iff hback hordered e.cursor).mp ⟨e, he, rfl⟩⟩
  · intro hbudget
    rw [fullMatch, exists_match_iff (Nat.zero_le _) hbudget,
      ← exists_outcome_iff hback hordered text.size]
    simp

/-- `(^|a){2,}` -/
def startsOrUnits : Pattern where
  root := .quantified (.group (some 1) (.alternation [.anchor .lineStart, .unit 97])) ⟨2, none⟩
  groupCount := 1
  names := []

/-- Repetitions that consume nothing do not keep it from matching `aa` as a whole. -/
theorem fullMatch_startsOrUnits :
    parse .narrow "(^|a)\x7b2,\x7d" = .ok startsOrUnits ∧
      (startsOrUnits.fullMatch 100 #[97, 97]).verdict ≠ .exceeded ∧
      startsOrUnits.root.Spans #[97, 97] 0 2 := by
  have hparse : parse .narrow "(^|a)\x7b2,\x7d" = .ok startsOrUnits := by cbv
  have hback : startsOrUnits.root.Everywhere Expr.NotBackreference := by
    simp [startsOrUnits, Expr.Everywhere, Expr.EverywhereAll, Expr.NotBackreference]
  have hfull : ∃ m, (startsOrUnits.fullMatch 100 #[97, 97]).verdict = .matched m :=
    ⟨⟨#[97, 97], 0, ⟨0, 2⟩, #[some ⟨1, 2⟩], []⟩, by cbv⟩
  have hbudget : (startsOrUnits.fullMatch 100 #[97, 97]).verdict ≠ .exceeded := by
    obtain ⟨m, hm⟩ := hfull
    simp [hm]
  have hspans := matchAt_fullMatch_iff_spans hparse hback 100
    (show 0 ≤ Array.size #[97, 97] from Nat.zero_le _)
  exact ⟨hparse, hbudget, (hspans.2 hbudget).mp hfull⟩

end Pattern

end LineRegex
