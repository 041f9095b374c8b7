/-
LineRegex.Proofs.Width.Agreement — narrow and wide units give the same answers.

A text of narrow units shows a class nothing of what lies beyond them, so the
narrow and the wide pattern match it alike. A range asks its pattern for attempts
and for nothing else, so patterns that match the lines of a text alike make
ranges that go the same way, and searching and replacing come to the same.

  §1 Scans      — patterns that match lines alike scan them alike.
  §2 Ranges     — a range with another pattern that matches alike.
  §3 Searches   — all matches, the first match, replacement.
  §4 Agreement
-/
import LineRegex.Proofs.Replacing
import LineRegex.Proofs.Width.Matching
import LineRegex.Proofs.Width.Parsing

namespace LineRegex

/-! ## §1 Scans -/

/-- Attempts with the two patterns have the same outcome on every one of the lines. -/
def Pattern.MatchesAlike (p q : Pattern) (ls : List Line) : Prop :=
  ∀ line ∈ ls, ∀ budget start, p.matchAt budget line.units start = q.matchAt budget line.units start

section Scans

variable {p q : Pattern}

theorem scanLine_congr {o : FindOptions} {line : Text}
    (h : ∀ start, p.matchAt o.budget line start = q.matchAt o.budget line start)
    (cursor : Nat) (tally : Tally) :
    scanLine q o line cursor tally = scanLine p o line cursor tally := by
  fun_induction scanLine p o line cursor tally with
  | case1 cursor tally hc => rw [scanLine, if_pos hc]
  | case2 cursor tally hc m hm =>
    rw [h] at hm
    rw [scanLine, if_neg hc, hm]
  | case3 cursor tally hc hm ih =>
    rw [h] at hm
    rw [scanLine, if_neg hc, hm]
    exact ih
  | case4 cursor tally hc hm ho =>
    rw [h] at hm
    rw [scanLine, if_neg hc, hm, ho]
  | case5 cursor tally hc hm ho ih =>
    rw [h] at hm
    rw [scanLine, if_neg hc, hm, ho]
    exact ih

theorem scanLines_congr (o : FindOptions) (text : Text) (cursor : Nat) (tally : Tally)
    {ls : List Line} (h : p.MatchesAlike q ls) :
    scanLines q o text cursor tally ls = scanLines p o text cursor tally ls := by
  induction ls generalizing cursor tally with
  | nil => rfl
  | cons line rest ih =>
    obtain ⟨hline, hrest⟩ := List.forall_mem_cons.mp h
    rw [scanLines, scanLines, scanLine_congr (hline o.budget)]
    split
    · rfl
    · exact ih _ _ hrest
    · rfl

/-- A scan does not go back to lines behind it. -/
theorem lines_scanLines_subset (p : Pattern) (o : FindOptions) (text : Text)
    (cursor : Nat) (tally : Tally) (ls : List Line) :
    (scanLines p o text cursor tally ls).lines ⊆ ls := by
  induction ls generalizing cursor tally with
  | nil => exact List.Subset.refl []
  | cons line rest ih =>
    rw [scanLines]
    split
    · exact List.Subset.refl _
    · exact List.subset_cons_of_subset line (ih _ _)
    · exact List.nil_subset _

end Scans

/-! ## §2 Ranges -/

namespace MatchRange

/-- The range with another pattern. -/
def withPattern (q : Pattern) (r : MatchRange) : MatchRange := { r with pattern := q }

/-- The pattern matches what is left to scan as that of the range does. -/
def Alike (q : Pattern) (r : MatchRange) : Prop := r.pattern.MatchesAlike q r.progress.lines

variable {q : Pattern} {r : MatchRange}

theorem Alike.advance (h : r.Alike q) : r.advance.Alike q :=
  fun line hline => h line (lines_scanLines_subset _ _ _ _ _ _ hline)

theorem advance_withPattern (h : r.Alike q) :
    (r.withPattern q).advance = r.advance.withPattern q := by
  have hscan := scanLines_congr r.options r.text r.progress.cursor r.progress.tally h
  unfold MatchRange.advance withPattern
  rw [hscan]

theorem start_withPattern (h : r.Alike q) : (r.withPattern q).start = r.start.withPattern q := by
  have hstarted : (r.withPattern q).started = r.started := rfl
  unfold MatchRange.start
  rw [hstarted, advance_withPattern h]
  split <;> rfl

theorem Alike.start (h : r.Alike q) : r.start.Alike q := by
  unfold MatchRange.start
  split
  · exact h
  · exact h.advance

theorem iterate_withPattern (h : r.Alike q) (k : Nat) :
    MatchRange.advance^[k] (r.withPattern q) = (MatchRange.advance^[k] r).withPattern q := by
  induction k generalizing r with
  | zero => rfl
  | succ k ih =>
    rw [Function.iterate_succ_apply, Function.iterate_succ_apply, advance_withPattern h,
      ih h.advance]

theorem RunsTo.withPattern {e : MatchRange} {ms : List Match} (hrun : r.RunsTo ms e)
    (h : r.Alike q) : (r.withPattern q).RunsTo ms (e.withPattern q) := by
  induction hrun with
  | atEnd hnone => exact .atEnd hnone
  | next hm _ ih =>
    refine .next hm ?_
    rw [advance_withPattern h]
    exact ih h.advance

theorem drain_withPattern (h : r.Alike q) :
    (r.withPattern q).drain = (r.drain.1, r.drain.2.withPattern q) := by
  have hrun := r.runsTo_drain.withPattern h
  obtain ⟨hms, hend⟩ := (r.withPattern q).runsTo_drain.unique hrun
  exact Prod.ext hms hend

theorem take_withPattern (h : r.Alike q) (count : Nat) :
    (r.withPattern q).take count = ((r.take count).1, (r.take count).2.withPattern q) := by
  have hrun := r.runsTo_drain
  rw [(hrun.withPattern h).take_eq, hrun.take_eq, iterate_withPattern h]

end MatchRange

/-! ## §3 Searches -/

namespace Pattern

variable {p q : Pattern} {text : Text}

theorem MatchesAlike.new (h : p.MatchesAlike q (lines text)) (o : FindOptions) :
    (MatchRange.new p text o).Alike q := h

theorem MatchesAlike.start_eq (h : p.MatchesAlike q (lines text)) (o : FindOptions) :
    (MatchRange.new q text o).start = (MatchRange.new p text o).start.withPattern q :=
  MatchRange.start_withPattern (h.new o)

/-- Patterns that match the lines of a text alike find the same matches in it. -/
theorem MatchesAlike.findAll_eq (h : p.MatchesAlike q (lines text)) (o : FindOptions) :
    q.findAll text o = p.findAll text o := by
  unfold findAll
  rw [h.start_eq, MatchRange.drain_withPattern (h.new o).start]
  rfl

theorem MatchesAlike.search_eq (h : p.MatchesAlike q (lines text)) (o : FindOptions) :
    q.search text o = p.search text o := by
  unfold search
  rw [h.start_eq]
  rfl

theorem MatchesAlike.replace_eq (h : p.MatchesAlike q (lines text)) (template : Text)
    (count : Nat) (o : FindOptions) :
    q.replace text template count o = p.replace text template count o := by
  unfold replace
  rw [h.start_eq, MatchRange.take_withPattern (h.new _).start]
  rfl

end Pattern

/-! ## §4 Agreement -/

/-- Narrow units do not show how far a class reaches beyond them. -/
theorem sameOn_narrowed {text : Text} (h : IsNarrow text.toList) : SameOn text .narrowed :=
  fun c u hu => c.accepts_clip (h u (Array.mem_toList_iff.mpr hu))

/-- On a pattern and a text of narrow units the two widths agree. They reject the
pattern with the same error, or their trees are the same except for the classes,
and these cover the same narrow units. Every attempt has the same outcome, with
the same steps, and searching and replacing give the same answers. -/
theorem narrow_agrees_with_wide {pattern text : Text} (hpattern : IsNarrow pattern.toList)
    (htext : IsNarrow text.toList) (template : Text) (budget count : Nat) (o : FindOptions) :
    parse .narrow pattern = Pattern.mapClasses .narrowed <$> parse .wide pattern ∧
    (∀ c : CharClass, c.narrowed.negated = c.negated ∧ ∀ u ≤ Width.narrow.maxUnit,
      UnitRange.covers c.narrowed.ranges u = UnitRange.covers c.ranges u) ∧
    (∀ p q, parse .narrow pattern = .ok p → parse .wide pattern = .ok q →
      (∀ start, p.matchAt budget text start = q.matchAt budget text start) ∧
      p.fullMatch budget text = q.fullMatch budget text) ∧
    fullMatch .narrow pattern text budget = fullMatch .wide pattern text budget ∧
    findAll .narrow pattern text o = findAll .wide pattern text o ∧
    search .narrow pattern text o = search .wide pattern text o ∧
    replace .narrow pattern text template count o = replace .wide pattern text template count o := by
  have hparse := parse_narrow hpattern
  have hattempt (q : Pattern) (accepts : Endpoint → Bool) (start : Nat) :=
    q.attempt_mapClasses (sameOn_narrowed htext) accepts budget start
  have halike (q : Pattern) : q.MatchesAlike (q.mapClasses .narrowed) (lines text) := by
    intro line hline b start
    have hsame : SameOn line.units .narrowed :=
      fun c u hu => sameOn_narrowed htext c u (mem_text_of_mem_line hline hu)
    exact (q.attempt_mapClasses hsame _ b start).symm
  refine ⟨hparse, fun c => ⟨rfl, fun u hu => UnitRange.covers_map_clip hu c.ranges⟩, ?_, ?_⟩
  · intro p q hp hq
    rw [hq] at hparse
    obtain rfl : p = q.mapClasses .narrowed := Except.ok.inj (hp.symm.trans hparse)
    exact ⟨hattempt q _, hattempt q _ 0⟩
  · unfold LineRegex.fullMatch LineRegex.findAll LineRegex.search LineRegex.replace
    rw [hparse]
    cases parse .wide pattern with
    | error e => exact ⟨rfl, rfl, rfl, rfl⟩
    | ok q =>
      refine ⟨?_, (halike q).findAll_eq o, (halike q).search_eq o,
        (halike q).replace_eq template count o⟩
      exact congrArg (fun v : Verdict Match => (v.status, v.matched?))
        (congrArg Outcome.verdict (hattempt q _ 0))

/-- The narrow class of `\D` ends at 255 and the wide one at 4294967295, which the
units `1` and `é`, the unit 233, do not show. -/
theorem agreement_nonDigit :
    IsNarrow ("\\D" : Text).toList ∧ IsNarrow ("1é" : Text).toList ∧
      ∃ p q, parse .narrow "\\D" = .ok p ∧ parse .wide "\\D" = .ok q ∧
        p.root.charClass? = some ⟨[⟨0, 47⟩, ⟨58, 255⟩], false⟩ ∧
        q.root.charClass? = some ⟨[⟨0, 47⟩, ⟨58, 4294967295⟩], false⟩ ∧
        p.matchAt 5 "1é" 1 = q.matchAt 5 "1é" 1 ∧
        findAll .narrow "\\D" "1é" {} = findAll .wide "\\D" "1é" {} := by
  have hpattern : IsNarrow ("\\D" : Text).toList := by decide
  have htext : IsNarrow ("1é" : Text).toList := by decide
  obtain ⟨-, -, hmatches, -, hfound, -, -⟩ :=
    narrow_agrees_with_wide hpattern htext #[] 5 0 {}
  refine ⟨hpattern, htext, _, _, by cbv, by cbv, rfl, rfl, ?_, hfound⟩
  exact (hmatches _ _ (by cbv) (by cbv)).1 1

end LineRegex
