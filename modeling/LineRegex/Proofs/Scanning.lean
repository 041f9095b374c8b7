/-
LineRegex.Proofs.Scanning — a search in one piece.

A range finds its matches one at a time and keeps its place in between. Seen
as a whole, the scan of a text is a list of events, line by line: the matches
it finds, and the positions it gives up for lack of budget. Each advance takes
from this list what lies up to the next match, so a search yields the matches
of the list and reports whether a position was given up.

  §1 Events    — `ScanEvent`, and where a policy ends the scan.
  §2 Lines     — the events on a line, without any state of a scan.
  §3 Texts     — the events on all lines, and those that a scan has ahead.
  §4 Advances  — one advance takes the events up to the next match.
  §5 Tallies   — the status that is reported goes with the number of positions given up.
  §6 Searches  — `findAll` from the events.
-/
import Mathlib.Data.List.Basic
import LineRegex.Search

namespace LineRegex

/-! ## §1 Events -/

/-- What a scan comes upon. -/
inductive ScanEvent where
  | found (m : Match)
  /-- An attempt exceeded its budget. -/
  | abandoned

namespace ScanEvent

/-- The match of an event. -/
def match? : ScanEvent → Option Match
  | found m => some m
  | abandoned => none

/-- Whether a position was given up. -/
def isAbandoned : ScanEvent → Bool
  | found _ => false
  | abandoned => true

/-- Replaces the match of an event. -/
def map (f : Match → Match) : ScanEvent → ScanEvent
  | found m => found (f m)
  | abandoned => abandoned

@[simp] theorem match?_found (m : Match) : (found m).match? = some m := rfl
@[simp] theorem match?_abandoned : abandoned.match? = none := rfl
@[simp] theorem isAbandoned_found (m : Match) : (found m).isAbandoned = false := rfl
@[simp] theorem isAbandoned_abandoned : abandoned.isAbandoned = true := rfl
@[simp] theorem map_found (f : Match → Match) (m : Match) : (found m).map f = found (f m) := rfl
@[simp] theorem map_abandoned (f : Match → Match) : abandoned.map f = abandoned := rfl

theorem match?_map (f : Match → Match) (e : ScanEvent) : (e.map f).match? = e.match?.map f := by
  cases e <;> rfl

theorem isAbandoned_map (f : Match → Match) (e : ScanEvent) :
    (e.map f).isAbandoned = e.isAbandoned := by
  cases e <;> rfl

theorem map_map (f g : Match → Match) (e : ScanEvent) :
    (e.map f).map g = e.map fun m => g (f m) := by
  cases e <;> rfl

theorem any_isAbandoned_map (f : Match → Match) (es : List ScanEvent) :
    (es.map (map f)).any isAbandoned = es.any isAbandoned := by
  rw [List.any_map]
  exact congrArg es.any (funext (isAbandoned_map f))

theorem countP_isAbandoned_map (f : Match → Match) (es : List ScanEvent) :
    (es.map (map f)).countP isAbandoned = es.countP isAbandoned := by
  rw [List.countP_map]
  exact congrArg (List.countP · es) (funext (isAbandoned_map f))

theorem filterMap_match?_map (f : Match → Match) (es : List ScanEvent) :
    (es.map (map f)).filterMap match? = (es.filterMap match?).map f := by
  rw [List.filterMap_map, List.map_filterMap]
  exact congrArg (List.filterMap · es) (funext (match?_map f))

/-- The events up to the first position given up. -/
def untilAbandoned : List ScanEvent → List ScanEvent
  | [] => []
  | found m :: es => found m :: untilAbandoned es
  | abandoned :: _ => [abandoned]

theorem any_untilAbandoned (es : List ScanEvent) :
    (untilAbandoned es).any isAbandoned = es.any isAbandoned := by
  induction es with
  | nil => rfl
  | cons e es ih =>
    cases e with
    | found m => simpa [untilAbandoned] using ih
    | abandoned => rfl

theorem untilAbandoned_map (f : Match → Match) (es : List ScanEvent) :
    untilAbandoned (es.map (map f)) = (untilAbandoned es).map (map f) := by
  induction es with
  | nil => rfl
  | cons e es ih =>
    cases e with
    | found m => exact congrArg (found (f m) :: ·) ih
    | abandoned => rfl

theorem untilAbandoned_sublist (es : List ScanEvent) : (untilAbandoned es).Sublist es := by
  induction es with
  | nil => exact .slnil
  | cons e es ih =>
    cases e with
    | found m => exact ih.cons_cons _
    | abandoned => exact (List.nil_sublist es).cons_cons _

/-- What comes behind a position given up is out of reach. -/
theorem untilAbandoned_append_of_any {es : List ScanEvent} (h : es.any isAbandoned = true)
    (es' : List ScanEvent) : untilAbandoned (es ++ es') = untilAbandoned es := by
  induction es with
  | nil => cases h
  | cons e es ih =>
    cases e with
    | found m => exact congrArg (found m :: ·) (ih h)
    | abandoned => rfl

theorem untilAbandoned_append_of_not_any {es : List ScanEvent} (h : es.any isAbandoned = false)
    (es' : List ScanEvent) : untilAbandoned (es ++ es') = es ++ untilAbandoned es' := by
  induction es with
  | nil => rfl
  | cons e es ih =>
    cases e with
    | found m => exact congrArg (found m :: ·) (ih h)
    | abandoned => cases h

end ScanEvent

/-- The events that a policy lets a scan come upon. -/
def ExceededPolicy.reached : ExceededPolicy → List ScanEvent → List ScanEvent
  | .skipPosition, es => es
  | .abort, es => ScanEvent.untilAbandoned es

namespace ExceededPolicy

theorem reached_nil (policy : ExceededPolicy) : policy.reached [] = [] := by cases policy <;> rfl

theorem reached_found (policy : ExceededPolicy) (m : Match) (es : List ScanEvent) :
    policy.reached (.found m :: es) = .found m :: policy.reached es := by
  cases policy <;> rfl

/-- Positions given up in front, of which there is none if the policy is to abort. -/
theorem reached_abandoned_append (policy : ExceededPolicy) {k : Nat}
    (hk : policy = .abort → k = 0) (es : List ScanEvent) :
    policy.reached (List.replicate k .abandoned ++ es) =
      List.replicate k .abandoned ++ policy.reached es := by
  cases policy with
  | skipPosition => rfl
  | abort => rw [hk rfl]; rfl

theorem any_reached (policy : ExceededPolicy) (es : List ScanEvent) :
    (policy.reached es).any ScanEvent.isAbandoned = es.any ScanEvent.isAbandoned := by
  cases policy with
  | skipPosition => rfl
  | abort => exact ScanEvent.any_untilAbandoned es

theorem reached_map (policy : ExceededPolicy) (f : Match → Match) (es : List ScanEvent) :
    policy.reached (es.map (.map f)) = (policy.reached es).map (.map f) := by
  cases policy with
  | skipPosition => rfl
  | abort => exact ScanEvent.untilAbandoned_map f es

/-- No policy makes a scan come upon anything new. -/
theorem reached_sublist (policy : ExceededPolicy) (es : List ScanEvent) :
    (policy.reached es).Sublist es := by
  cases policy with
  | skipPosition => exact .refl es
  | abort => exact ScanEvent.untilAbandoned_sublist es

/-- Events in front, among which is no position given up if the policy is to abort. -/
theorem reached_append (policy : ExceededPolicy) {es : List ScanEvent}
    (h : policy = .abort → es.any ScanEvent.isAbandoned = false) (es' : List ScanEvent) :
    policy.reached (es ++ es') = policy.reached es ++ policy.reached es' := by
  cases policy with
  | skipPosition => rfl
  | abort =>
    have hes : ScanEvent.untilAbandoned es = es := by
      simpa [ScanEvent.untilAbandoned] using ScanEvent.untilAbandoned_append_of_not_any (h rfl) []
    show ScanEvent.untilAbandoned (es ++ es') =
      ScanEvent.untilAbandoned es ++ ScanEvent.untilAbandoned es'
    rw [ScanEvent.untilAbandoned_append_of_not_any (h rfl), hes]

end ExceededPolicy

/-! ## §2 Lines -/

/-- Behind a match the scan has moved on, and is not inside the match. -/
theorem Match.lt_nextCursor (m : Match) : m.whole.start < m.nextCursor := by
  unfold nextCursor
  split <;> omega

theorem Match.stop_le_nextCursor (m : Match) : m.whole.stop ≤ m.nextCursor := by
  unfold nextCursor
  split <;> omega

namespace Pattern

/-- The events on a line from a position on. -/
def lineEvents (p : Pattern) (budget : Nat) (line : Text) (cursor : Nat) : List ScanEvent :=
  if line.size < cursor then []
  else
    match hm : (p.matchAt budget line cursor).verdict with
    | .matched m => .found m :: p.lineEvents budget line m.nextCursor
    | .failed => p.lineEvents budget line (cursor + 1)
    | .exceeded => .abandoned :: p.lineEvents budget line (cursor + 1)
termination_by line.size + 1 - cursor
decreasing_by
  · have := m.lt_nextCursor
    rw [start_of_attempt hm] at this
    omega
  · omega
  · omega

section LineEvents

variable {p : Pattern} {budget : Nat} {line : Text} {cursor : Nat}

theorem lineEvents_behind (h : line.size < cursor) : p.lineEvents budget line cursor = [] := by
  rw [lineEvents, if_pos h]

theorem lineEvents_matched (h : cursor ≤ line.size) {m : Match}
    (hm : (p.matchAt budget line cursor).verdict = .matched m) :
    p.lineEvents budget line cursor = .found m :: p.lineEvents budget line m.nextCursor := by
  rw [lineEvents, if_neg (by omega)]
  split
  · rename_i m' hm'
    rw [hm] at hm'
    cases hm'
    rfl
  · rename_i hm'; rw [hm] at hm'; cases hm'
  · rename_i hm'; rw [hm] at hm'; cases hm'

theorem lineEvents_failed (h : cursor ≤ line.size)
    (hm : (p.matchAt budget line cursor).verdict = .failed) :
    p.lineEvents budget line cursor = p.lineEvents budget line (cursor + 1) := by
  conv => lhs; rw [lineEvents, if_neg (by omega)]
  split
  · rename_i hm'; rw [hm] at hm'; cases hm'
  · rfl
  · rename_i hm'; rw [hm] at hm'; cases hm'

theorem lineEvents_exceeded (h : cursor ≤ line.size)
    (hm : (p.matchAt budget line cursor).verdict = .exceeded) :
    p.lineEvents budget line cursor = .abandoned :: p.lineEvents budget line (cursor + 1) := by
  conv => lhs; rw [lineEvents, if_neg (by omega)]
  split
  · rename_i hm'; rw [hm] at hm'; cases hm'
  · rename_i hm'; rw [hm] at hm'; cases hm'
  · rfl

end LineEvents

end Pattern

/-- What the scan of a line came to, as a reading of the line's events: `k`
positions given up, then the match found, or the end of the line, or the
position at which the policy ends the scan. -/
def LineScan.Reads (policy : ExceededPolicy) (later : Match → List ScanEvent) (k : Nat)
    (es : List ScanEvent) : LineScan → Prop
  | .found m => (policy = .abort → k = 0) ∧
      es = List.replicate k .abandoned ++ .found m :: later m
  | .exhausted => (policy = .abort → k = 0) ∧ es = List.replicate k .abandoned
  | .aborted => policy = .abort ∧ k = 1 ∧ ∃ rest, es = .abandoned :: rest

theorem scanLine_reads (p : Pattern) (o : FindOptions) (line : Text) (cursor : Nat)
    (tally : Tally) :
    ∃ k, (scanLine p o line cursor tally).2.abandoned = tally.abandoned + k ∧
      (scanLine p o line cursor tally).1.Reads o.onExceeded
        (fun m => p.lineEvents o.budget line m.nextCursor) k
        (p.lineEvents o.budget line cursor) := by
  fun_induction scanLine p o line cursor tally with
  | case1 cursor tally hc => exact ⟨0, rfl, fun _ => rfl, Pattern.lineEvents_behind hc⟩
  | case2 cursor tally hc m hm =>
    exact ⟨0, rfl, fun _ => rfl, Pattern.lineEvents_matched (by omega) hm⟩
  | case3 cursor tally hc hm ih => rwa [Pattern.lineEvents_failed (by omega) hm]
  | case4 cursor tally hc hm ho =>
    exact ⟨1, rfl, ho, rfl, _, Pattern.lineEvents_exceeded (by omega) hm⟩
  | case5 cursor tally hc hm ho ih =>
    rw [Pattern.lineEvents_exceeded (by omega) hm]
    obtain ⟨k, hk, hreads⟩ := ih
    refine ⟨k + 1, hk.trans (Nat.add_right_comm _ 1 k), ?_⟩
    generalize (scanLine p o line (cursor + 1) tally.giveUp).1 = scan at hreads
    cases scan with
    | found m => exact ⟨fun h => (by rw [ho] at h; cases h), congrArg (_ :: ·) hreads.2⟩
    | exhausted => exact ⟨fun h => (by rw [ho] at h; cases h), congrArg (_ :: ·) hreads.2⟩
    | aborted => have := hreads.1; rw [ho] at this; cases this

/-! ## §3 Texts -/

namespace Pattern

/-- The events on successive lines, on the first of them from a position on;
the matches as the caller sees them. -/
def eventsFrom (p : Pattern) (o : FindOptions) (text : Text) (cursor : Nat) :
    List Line → List ScanEvent
  | [] => []
  | line :: rest =>
    (p.lineEvents o.budget line.units cursor).map (.map (·.locate o.offsets text line)) ++
      p.eventsFrom o text 0 rest

/-- The events on all lines of a text. -/
def events (p : Pattern) (o : FindOptions) (text : Text) : List ScanEvent :=
  p.eventsFrom o text 0 (lines text)

theorem events_eq (p : Pattern) (o : FindOptions) (text : Text) :
    p.events o text =
      (lines text).flatMap fun line =>
        (p.lineEvents o.budget line.units 0).map (.map (·.locate o.offsets text line)) := by
  rw [events]
  induction lines text with
  | nil => rfl
  | cons line rest ih => rw [eventsFrom, ih, List.flatMap_cons]

/-- The events do not depend on what an exceeded budget leads to. -/
theorem events_policy (p : Pattern) (o : FindOptions) (text : Text) (policy : ExceededPolicy) :
    p.events { o with onExceeded := policy } text = p.events o text := by
  rw [events_eq, events_eq]

/-- A scan gives a position up if it does so on some line. -/
theorem any_isAbandoned_events (p : Pattern) (o : FindOptions) (text : Text) :
    (p.events o text).any ScanEvent.isAbandoned =
      (lines text).any fun line =>
        (p.lineEvents o.budget line.units 0).any ScanEvent.isAbandoned := by
  rw [events_eq, List.any_flatMap]
  exact congrArg (lines text).any (funext fun _ => ScanEvent.any_isAbandoned_map _ _)

end Pattern

/-- The events that a scan still has ahead of it. -/
def Progress.ahead (p : Pattern) (o : FindOptions) (text : Text) (s : Progress) :
    List ScanEvent :=
  o.onExceeded.reached (p.eventsFrom o text s.cursor s.lines)

/-! ## §4 Advances -/

/-- Scanning for the next match takes the positions given up and that match
from the events; without a match nothing is left of them. -/
theorem scanLines_ahead (p : Pattern) (o : FindOptions) (text : Text) (cursor : Nat)
    (tally : Tally) (ls : List Line) :
    ∃ k, (scanLines p o text cursor tally ls).tally.abandoned = tally.abandoned + k ∧
      o.onExceeded.reached (p.eventsFrom o text cursor ls) =
        List.replicate k .abandoned ++
          (scanLines p o text cursor tally ls).current.toList.map .found ++
          (scanLines p o text cursor tally ls).ahead p o text ∧
      ((scanLines p o text cursor tally ls).current = none →
        (scanLines p o text cursor tally ls).ahead p o text = []) := by
  have hended (t : Tally) : (Progress.ended t).ahead p o text = [] := o.onExceeded.reached_nil
  induction ls generalizing cursor tally with
  | nil =>
    refine ⟨0, rfl, ?_, fun _ => hended _⟩
    rw [scanLines, hended]
    exact o.onExceeded.reached_nil
  | cons line rest ih =>
    obtain ⟨k, hk, hreads⟩ := scanLine_reads p o line.units cursor tally
    rw [scanLines, Pattern.eventsFrom]
    generalize scanLine p o line.units cursor tally = scan at hk hreads
    obtain ⟨scan, tally'⟩ := scan
    cases scan with
    | found m =>
      obtain ⟨habort, hes⟩ := hreads
      refine ⟨k, hk, ?_, fun h => (by cases h)⟩
      simp [hes, o.onExceeded.reached_abandoned_append habort, ExceededPolicy.reached_found,
        Progress.ahead, Pattern.eventsFrom]
    | exhausted =>
      obtain ⟨habort, hes⟩ := hreads
      obtain ⟨k', hk', hahead, hnone⟩ := ih 0 tally'
      refine ⟨k + k', hk'.trans (by rw [← Nat.add_assoc, ← hk]), ?_, hnone⟩
      simp [hes, o.onExceeded.reached_abandoned_append habort, hahead,
        ← List.replicate_append_replicate]
    | aborted =>
      obtain ⟨habort, rfl, es, hes⟩ := hreads
      refine ⟨1, hk, ?_, fun _ => hended _⟩
      rw [hended, hes, habort]
      rfl

namespace MatchRange

/-- The events that a range still has ahead of it. -/
def ahead (r : MatchRange) : List ScanEvent := r.progress.ahead r.pattern r.options r.text

/-- An advance takes the events up to the next match. -/
theorem ahead_advance (r : MatchRange) :
    ∃ k, r.advance.abandoned = r.abandoned + k ∧
      r.ahead =
        List.replicate k .abandoned ++ r.advance.current.toList.map .found ++ r.advance.ahead ∧
      (r.advance.current = none → r.advance.ahead = []) :=
  scanLines_ahead r.pattern r.options r.text r.progress.cursor r.progress.tally
    r.progress.lines

/-- The matches ahead of a range are the next one and those behind it. -/
theorem matches_advance (r : MatchRange) :
    r.ahead.filterMap ScanEvent.match? =
      r.advance.current.toList ++ r.advance.ahead.filterMap ScanEvent.match? := by
  obtain ⟨k, -, hahead, -⟩ := r.ahead_advance
  rw [hahead]
  cases r.advance.current <;> simp

/-- Positions given up are counted once, when the range passes them. -/
theorem abandoned_advance (r : MatchRange) :
    r.advance.abandoned + r.advance.ahead.countP ScanEvent.isAbandoned =
      r.abandoned + r.ahead.countP ScanEvent.isAbandoned := by
  obtain ⟨k, hk, hahead, -⟩ := r.ahead_advance
  rw [hahead, hk]
  cases r.advance.current <;> simp [List.countP_replicate, Nat.add_assoc]

/-- Draining a range takes all events: the matches, and the positions given up. -/
theorem drain_eq (r : MatchRange) (hend : r.current = none → r.ahead = []) :
    r.drain.1 = r.current.toList ++ r.ahead.filterMap ScanEvent.match? ∧
      r.drain.2.abandoned = r.abandoned + r.ahead.countP ScanEvent.isAbandoned := by
  fun_induction drain r with
  | case1 r hnone => simp [hend hnone, hnone]
  | case2 r m hm ms e hdrain ih =>
    obtain ⟨-, -, -, hend'⟩ := r.ahead_advance
    obtain ⟨hms, he⟩ := ih hend'
    rw [← r.matches_advance, hdrain] at hms
    rw [r.abandoned_advance, hdrain] at he
    rw [hm]
    exact ⟨congrArg (m :: ·) hms, he⟩

end MatchRange

/-! ## §5 Tallies -/

/-- The status is that of an exceeded budget if positions have been given up, and success
otherwise. -/
def Tally.Consistent (t : Tally) : Prop :=
  t.status = if 0 < t.abandoned then .budgetExceeded else .success

theorem Tally.Consistent.initial : initial.Consistent := rfl

theorem Tally.Consistent.giveUp (t : Tally) : t.giveUp.Consistent := by
  rw [Consistent, if_pos (by exact Nat.succ_pos t.abandoned)]
  rfl

/-- Whatever a line comes to, the status goes with the number. -/
theorem Tally.Consistent.scanLine {p : Pattern} {o : FindOptions} {line : Text} {cursor : Nat}
    {tally : Tally} (h : tally.Consistent) : (scanLine p o line cursor tally).2.Consistent := by
  fun_induction LineRegex.scanLine p o line cursor tally with
  | case1 => exact h
  | case2 => exact h
  | case3 cursor tally hc hm ih => exact ih h
  | case4 => exact .giveUp _
  | case5 cursor tally hc hm ho ih => exact ih (.giveUp tally)

theorem Tally.Consistent.scanLines {p : Pattern} {o : FindOptions} {text : Text} {cursor : Nat}
    {tally : Tally} (h : tally.Consistent) (ls : List Line) :
    (scanLines p o text cursor tally ls).tally.Consistent := by
  induction ls generalizing cursor tally with
  | nil => exact h
  | cons line rest ih =>
    have hline : (LineRegex.scanLine p o line.units cursor tally).2.Consistent := h.scanLine
    rw [LineRegex.scanLines]
    generalize LineRegex.scanLine p o line.units cursor tally = scan at hline
    obtain ⟨scan, tally'⟩ := scan
    cases scan with
    | found m => exact hline
    | exhausted => exact ih hline
    | aborted => exact hline

namespace MatchRange

/-- The status of the range tells whether it has given positions up. -/
def Consistent (r : MatchRange) : Prop := r.progress.tally.Consistent

theorem consistent_new (p : Pattern) (text : Text) (o : FindOptions) :
    (new p text o).Consistent := Tally.Consistent.initial

namespace Consistent

variable {r : MatchRange}

theorem status_eq (h : r.Consistent) :
    r.status = if 0 < r.abandoned then .budgetExceeded else .success := h

theorem advance (h : r.Consistent) : r.advance.Consistent := Tally.Consistent.scanLines h _

theorem start (h : r.Consistent) : r.start.Consistent := by
  unfold MatchRange.start
  split
  · exact h
  · exact h.advance

theorem drain (h : r.Consistent) : r.drain.2.Consistent := by
  fun_induction MatchRange.drain r with
  | case1 => exact h
  | case2 r m hm ms e hdrain ih =>
    have he := ih h.advance
    rwa [hdrain] at he

end Consistent

end MatchRange

/-! ## §6 Searches -/

namespace Pattern

/-- The number of positions that a search gives up. -/
def abandonedIn (p : Pattern) (text : Text) (o : FindOptions) : Nat :=
  (MatchRange.new p text o).start.drain.2.abandoned

/-- Draining a range from its start takes all events that the policy lets it reach. -/
theorem drain_start (p : Pattern) (text : Text) (o : FindOptions) :
    (MatchRange.new p text o).start.drain.1 =
        (o.onExceeded.reached (p.events o text)).filterMap ScanEvent.match? ∧
      p.abandonedIn text o =
        (o.onExceeded.reached (p.events o text)).countP ScanEvent.isAbandoned := by
  have hevents : (MatchRange.new p text o).ahead = o.onExceeded.reached (p.events o text) := rfl
  obtain ⟨-, -, -, hend⟩ := (MatchRange.new p text o).ahead_advance
  obtain ⟨hms, habandoned⟩ := (MatchRange.new p text o).start.drain_eq hend
  rw [← hevents]
  constructor
  · exact hms.trans (MatchRange.matches_advance _).symm
  · exact (habandoned.trans (MatchRange.abandoned_advance _)).trans (Nat.zero_add _)

theorem abandonedIn_eq_events (p : Pattern) (text : Text) (o : FindOptions) :
    p.abandonedIn text o =
      (o.onExceeded.reached (p.events o text)).countP ScanEvent.isAbandoned :=
  (p.drain_start text o).2

/-- A search yields the matches among the events that its policy lets it reach,
and reports whether a position was given up. -/
theorem findAll_eq_events (p : Pattern) (text : Text) (o : FindOptions) :
    p.findAll text o =
      (if (p.events o text).any ScanEvent.isAbandoned then .budgetExceeded else .success,
        (o.onExceeded.reached (p.events o text)).filterMap ScanEvent.match?) := by
  have hexceeded : 0 < (MatchRange.new p text o).start.drain.2.abandoned ↔
      (p.events o text).any ScanEvent.isAbandoned = true := by
    show 0 < p.abandonedIn text o ↔ _
    rw [abandonedIn_eq_events, ← o.onExceeded.any_reached, List.any_eq_true,
      ← List.countP_pos_iff]
  have hstatus := (MatchRange.consistent_new p text o).start.drain.status_eq
  simp only [hexceeded] at hstatus
  unfold findAll
  simp only [(p.drain_start text o).1, hstatus]

end Pattern

end LineRegex
