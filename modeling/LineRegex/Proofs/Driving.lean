/-
LineRegex.Proofs.Driving — a range gives the same matches however it is driven.

Starting, advancing and reading a range may come in any order, as long as
nothing is advanced before it is started. Only the number of advances counts:
it is the place, in the list that a search yields, of the match the range shows.

  §1 Calls     — what one can do with a range.
  §2 Settled   — a range that shows no match has none ahead, and stays so.
  §3 Advances  — where a range is after a number of advances.
  §4 Driving   — any calls come to a number of advances from the start.
  §5 Searches  — the first match, and what is given up in front of it.
-/
import LineRegex.Proofs.Aborting
import LineRegex.Proofs.Increments

namespace LineRegex

/-! ## §1 Calls -/

/-- What one can do with a range. Looking at the current match, the status or
the number of positions given up is a `read`. -/
inductive RangeCall where
  | start
  | advance
  /-- The same, written behind the iterator. -/
  | postAdvance
  | read
  deriving DecidableEq, Repr

namespace RangeCall

/-- Whether the call goes on to the next match. -/
def isAdvance : RangeCall → Bool
  | advance | postAdvance => true
  | start | read => false

/-- Nothing is advanced before the first start. -/
def AdvancesFollowStart (calls : List RangeCall) : Prop :=
  ∀ call ∈ calls.takeWhile (· != start), call.isAdvance = false

instance (calls : List RangeCall) : Decidable (AdvancesFollowStart calls) :=
  inferInstanceAs (Decidable (∀ call ∈ calls.takeWhile (· != start), call.isAdvance = false))

end RangeCall

namespace MatchRange

/-- The range behind a call. -/
def perform (r : MatchRange) : RangeCall → MatchRange
  | .start => r.start
  | .advance | .postAdvance => r.advance
  | .read => r

/-- The range behind calls, in order. -/
def performAll (r : MatchRange) (calls : List RangeCall) : MatchRange := calls.foldl perform r

/-! ## §2 Settled -/

/-- A range that shows no match has none ahead. -/
def Settled (r : MatchRange) : Prop := r.current = none → r.ahead = []

theorem settled_advance (r : MatchRange) : r.advance.Settled := by
  obtain ⟨-, -, -, hend⟩ := r.ahead_advance
  exact hend

theorem settled_start (p : Pattern) (text : Text) (o : FindOptions) :
    (new p text o).start.Settled := settled_advance (new p text o)

/-- No call takes back that a position was given up. -/
theorem abandoned_le_perform (r : MatchRange) (call : RangeCall) :
    r.abandoned ≤ (r.perform call).abandoned := by
  have hadvance : r.abandoned ≤ r.advance.abandoned := by
    obtain ⟨k, hk, -, -⟩ := r.ahead_advance
    omega
  cases call with
  | start =>
    rw [perform, start]
    split
    · exact Nat.le_refl _
    · exact hadvance
  | advance | postAdvance => exact hadvance
  | read => exact Nat.le_refl _

/-- Whatever is done with a range, its status goes with the number of positions given up. -/
theorem Consistent.performAll {r : MatchRange} (h : r.Consistent) (calls : List RangeCall) :
    (r.performAll calls).Consistent := by
  induction calls generalizing r with
  | nil => exact h
  | cons call calls ih =>
    refine ih (r := r.perform call) ?_
    cases call with
    | start => exact h.start
    | advance | postAdvance => exact h.advance
    | read => exact h

/-! ## §3 Advances -/

section Advances

variable {r : MatchRange}

theorem Consistent.iterate (h : r.Consistent) (k : Nat) :
    (MatchRange.advance^[k] r).Consistent := by
  induction k with
  | zero => exact h
  | succ k ih =>
    rw [Function.iterate_succ_apply']
    exact ih.advance

theorem settled_iterate (h : r.Settled) (k : Nat) : (advance^[k] r).Settled := by
  cases k with
  | zero => exact h
  | succ k =>
    rw [Function.iterate_succ_apply']
    exact settled_advance _

/-- After `k` advances a range shows the match number `k` of those it drains to. -/
theorem current_iterate (h : r.Settled) (k : Nat) :
    (advance^[k] r).current = r.drain.1[k]? := by
  rw [(r.drain_eq h).1]
  induction k generalizing r with
  | zero =>
    cases hcurrent : r.current with
    | some m => simp [hcurrent]
    | none => simp [hcurrent, h hcurrent]
  | succ k ih =>
    rw [Function.iterate_succ_apply, ih r.settled_advance, ← r.matches_advance]
    cases hcurrent : r.current with
    | some m => simp
    | none => simp [h hcurrent]

/-- Positions given up so far and ahead make up the same number throughout. -/
theorem abandoned_iterate (r : MatchRange) (k : Nat) :
    (advance^[k] r).abandoned + (advance^[k] r).ahead.countP ScanEvent.isAbandoned =
      r.abandoned + r.ahead.countP ScanEvent.isAbandoned := by
  induction k with
  | zero => rfl
  | succ k ih => rw [Function.iterate_succ_apply', abandoned_advance, ih]

/-- A range that has come to its end has given up what draining it gives up. -/
theorem abandoned_at_end (h : r.Settled) {k : Nat} (hend : (advance^[k] r).current = none) :
    (advance^[k] r).abandoned = r.drain.2.abandoned := by
  have hcount := abandoned_iterate r k
  rw [settled_iterate h k hend] at hcount
  rw [(r.drain_eq h).2, ← hcount]
  rfl

end Advances

/-! ## §4 Driving -/

theorem started_start (r : MatchRange) : r.start.started = true := by
  unfold start
  split
  · assumption
  · rfl

theorem start_of_started {r : MatchRange} (h : r.started = true) : r.start = r := if_pos h

theorem started_iterate {r : MatchRange} (h : r.started = true) (k : Nat) :
    (advance^[k] r).started = true := by
  induction k with
  | zero => exact h
  | succ k ih =>
    rw [Function.iterate_succ_apply']
    exact ih

/-- Once a range is started, only advances count. -/
theorem performAll_started {r : MatchRange} (h : r.started = true) (calls : List RangeCall) :
    r.performAll calls = advance^[calls.countP RangeCall.isAdvance] r := by
  induction calls generalizing r with
  | nil => rfl
  | cons call calls ih =>
    show (r.perform call).performAll calls = _
    cases call with
    | start =>
      rw [perform, start_of_started h, ih h]
      rfl
    | advance | postAdvance =>
      have hrest : r.advance.performAll calls = _ := ih h
      rw [perform, hrest, ← Function.iterate_succ_apply, List.countP_cons_of_pos rfl]
    | read =>
      rw [perform, ih h]
      rfl

/-- Before a range is started nothing happens, and from then on only advances count. -/
theorem performAll_eq (r : MatchRange) {calls : List RangeCall}
    (h : RangeCall.AdvancesFollowStart calls) :
    r.performAll calls =
      if .start ∈ calls then advance^[calls.countP RangeCall.isAdvance] r.start else r := by
  induction calls with
  | nil => rfl
  | cons call calls ih =>
    show (r.perform call).performAll calls = _
    cases call with
    | start =>
      rw [if_pos List.mem_cons_self, perform, performAll_started r.started_start]
      rfl
    | advance | postAdvance => exact absurd (h _ List.mem_cons_self) (by decide)
    | read =>
      have hrest : RangeCall.AdvancesFollowStart calls :=
        fun call hcall => h call (List.mem_cons_of_mem _ hcall)
      rw [perform, ih hrest]
      simp [RangeCall.isAdvance]

end MatchRange

/-! ## §5 Searches -/

theorem ScanEvent.head?_eq_abandoned_iff (es : List ScanEvent) :
    es.head? = some abandoned ↔ es.any isAbandoned = true ∧ early es = [] := by
  cases es with
  | nil => simp
  | cons e es =>
    cases e with
    | found m => simp [early_found]
    | abandoned => simp [early_abandoned]

theorem ExceededPolicy.head?_reached (policy : ExceededPolicy) (es : List ScanEvent) :
    (policy.reached es).head? = es.head? := by
  cases policy with
  | skipPosition => rfl
  | abort =>
    cases es with
    | nil => rfl
    | cons e es => cases e <;> rfl

namespace Pattern

/-- The first match is found behind a position given up exactly if the scan
comes upon such a position first. -/
theorem abandoned_start_pos_iff (p : Pattern) (text : Text) (o : FindOptions) :
    0 < (MatchRange.new p text o).start.abandoned ↔
      (p.events o text).head? = some .abandoned := by
  obtain ⟨k, hk, hahead, hend⟩ := (MatchRange.new p text o).ahead_advance
  have hreached : (MatchRange.new p text o).ahead = o.onExceeded.reached (p.events o text) := rfl
  have hcount : (MatchRange.new p text o).start.abandoned = k := hk.trans (Nat.zero_add k)
  rw [hcount, ← o.onExceeded.head?_reached, ← hreached, hahead]
  cases k with
  | succ k => simp [List.replicate_succ]
  | zero =>
    cases hcurrent : (MatchRange.new p text o).advance.current with
    | some m => simp
    | none => simp [hend hcurrent]

/-- A search gives a place up in front of the first match exactly if its status
is that of an exceeded budget. -/
theorem status_search_iff (p : Pattern) (text : Text) (o : FindOptions) :
    (p.search text o).1 = .budgetExceeded ↔
      ∃ a, GivenUp p o.budget text (p.finds o.budget text) a ∧
        ∀ f ∈ (p.finds o.budget text).head?, a.Before f.place := by
  obtain ⟨early, late, hfinds, hearly, hbefore, hbehind⟩ := p.exists_early_late_finds o text
  have hgives : (p.events o text).any ScanEvent.isAbandoned = true ↔
      ∃ a, GivenUp p o.budget text (p.finds o.budget text) a :=
    (p.any_isAbandoned_iff_givesUp o text).trans givesUp_iff_exists_givenUp
  have hstatus : (p.search text o).1 = .budgetExceeded ↔
      (p.events o text).any ScanEvent.isAbandoned = true ∧ early = [] := by
    have hsearch : (p.search text o).1 = .budgetExceeded ↔
        0 < (MatchRange.new p text o).start.abandoned := by
      have hstatus := (MatchRange.consistent_new p text o).start.status_eq
      rw [search, hstatus]
      simp
    rw [hsearch, abandoned_start_pos_iff, ScanEvent.head?_eq_abandoned_iff, hearly,
      List.map_eq_nil_iff]
  rw [hstatus, hgives, hfinds]
  rw [hfinds] at hbefore hbehind
  constructor
  · rintro ⟨⟨a, ha⟩, rfl⟩
    cases late with
    | nil => exact ⟨a, ha, fun f hf => by cases hf⟩
    | cons f late =>
      obtain ⟨b, hb, hlt⟩ := hbehind f List.mem_cons_self
      refine ⟨b, hb, fun g hg => ?_⟩
      obtain rfl : f = g := by simpa using hg
      exact hlt
  · rintro ⟨a, ha, hfirst⟩
    refine ⟨⟨a, ha⟩, ?_⟩
    cases early with
    | nil => rfl
    | cons f early =>
      have hlt : f.place.Before a := hbefore f List.mem_cons_self a ha
      exact absurd (hfirst f rfl) hlt.asymm

/-- However a range is driven, it shows the matches of a search in order. Before
its start nothing is scanned. Afterwards it shows the match whose place in the
list is the number of advances so far, or none if the list is not that long;
starting again and reading change nothing, and at the end it stays there with
the status of the search. It never gives up fewer positions than before, and its
status says whether there are any. Searching for one match gives the first of the
list, and its status says whether a place in front of that match was given up. -/
theorem driven_range_shows_findAll (p : Pattern) (text : Text) (o : FindOptions)
    (calls : List RangeCall) (hcalls : RangeCall.AdvancesFollowStart calls) :
    let r := (MatchRange.new p text o).performAll calls
    (.start ∉ calls → r = MatchRange.new p text o) ∧
    (.start ∈ calls →
      r.current = (p.findAll text o).2[calls.countP RangeCall.isAdvance]? ∧
      r.perform .start = r ∧ r.perform .read = r ∧
      (r.current = none → r.status = (p.findAll text o).1 ∧
        ∀ more, (r.performAll more).current = none ∧
          (r.performAll more).status = (p.findAll text o).1)) ∧
    (∀ call, r.abandoned ≤ (r.perform call).abandoned) ∧
    (r.status = .budgetExceeded ↔ 0 < r.abandoned) ∧
    (p.search text o).2 = (p.findAll text o).2.head? ∧
    ∃ finds, Leftmost p o.budget text finds ∧
      ((p.search text o).1 = .budgetExceeded ↔
        ∃ a, GivenUp p o.budget text finds a ∧ ∀ f ∈ finds.head?, a.Before f.place) := by
  intro r
  have hr := (MatchRange.new p text o).performAll_eq hcalls
  have hsettled := MatchRange.settled_start p text o
  have hend {k : Nat} :
      (MatchRange.advance^[k] (MatchRange.new p text o).start).current = none →
        (MatchRange.advance^[k] (MatchRange.new p text o).start).status =
          (p.findAll text o).1 := by
    intro hnone
    have hdriven := (MatchRange.consistent_new p text o).start.iterate k
    rw [hdriven.status_eq, MatchRange.abandoned_at_end hsettled hnone]
    exact (MatchRange.consistent_new p text o).start.drain.status_eq.symm
  refine ⟨?_, ?_, r.abandoned_le_perform, ?_, ?_, _, p.leftmost_finds o.budget text,
    p.status_search_iff text o⟩
  · intro hstart
    exact hr.trans (if_neg hstart)
  · intro hstart
    replace hr : r = MatchRange.advance^[calls.countP RangeCall.isAdvance] _ :=
      hr.trans (if_pos hstart)
    have hstarted : r.started = true := by
      rw [hr]
      exact MatchRange.started_iterate (MatchRange.started_start _) _
    refine ⟨?_, MatchRange.start_of_started hstarted, rfl, fun hnone => ⟨?_, fun more => ?_⟩⟩
    · rw [hr]
      exact MatchRange.current_iterate hsettled _
    · rw [hr] at hnone ⊢
      exact hend hnone
    · rw [MatchRange.performAll_started hstarted, hr, ← Function.iterate_add_apply]
      have hmore : (MatchRange.advance^[more.countP RangeCall.isAdvance +
          calls.countP RangeCall.isAdvance] (MatchRange.new p text o).start).current = none := by
        rw [hr, MatchRange.current_iterate hsettled, List.getElem?_eq_none_iff] at hnone
        rw [MatchRange.current_iterate hsettled, List.getElem?_eq_none_iff]
        omega
      exact ⟨hmore, hend hmore⟩
  · have hdriven : r.Consistent := (MatchRange.consistent_new p text o).performAll calls
    rw [hdriven.status_eq]
    simp
  · rw [List.head?_eq_getElem?]
    exact MatchRange.current_iterate hsettled 0

/-- Starts, advances of both kinds and reads; the last start and read change nothing. -/
def restarted : List RangeCall := [.read, .start, .read, .advance, .postAdvance, .start, .read]

/-- After two advances the range of `a*` shows the match behind the `a` given up. -/
theorem driven_manyUnits :
    RangeCall.AdvancesFollowStart restarted ∧
      (((MatchRange.new manyUnits "baac" sevenSteps).performAll restarted).current.map
        (·.whole)) = some ⟨3, 3⟩ ∧
      ((MatchRange.new manyUnits "baac" sevenSteps).performAll restarted).perform .start =
        (MatchRange.new manyUnits "baac" sevenSteps).performAll restarted := by
  have hcalls : RangeCall.AdvancesFollowStart restarted := by decide
  obtain ⟨-, hdriven, -⟩ := manyUnits.driven_range_shows_findAll "baac" sevenSteps restarted hcalls
  obtain ⟨hcurrent, hstart, -, -⟩ := hdriven (by decide)
  refine ⟨hcalls, ?_, hstart⟩
  rw [hcurrent]
  cbv

end Pattern

end LineRegex
