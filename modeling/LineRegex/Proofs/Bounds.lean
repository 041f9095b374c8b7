/-
LineRegex.Proofs.Bounds — every match handed out is in bounds.

A match refers to its subject by spans. However a match is come by, it has a
span for each group that took part, all of them lie in the whole match, and the
whole match lies in the subject. With offsets into the text the subject is all
of the text, but the spans still do not leave the line of the match. So nothing
that can be asked of a match reads past its subject.

  §1 Spans     — one span within another.
  §2 Bounds    — what it is for a match to be in bounds, and what that says
                 about the texts of its groups.
  §3 Attempts  — what an attempt hands out is in bounds, and stays so when it
                 is handed on with offsets into the text.
  §4 Ranges    — whatever a range shows is an event on some line.
  §5 Matches
-/
import LineRegex.Proofs.Captures
import LineRegex.Proofs.Driving

namespace LineRegex

/-! ## §1 Spans -/

/-- The span runs forwards and does not leave the other one. -/
structure Span.Within (s outer : Span) : Prop where
  start_le : outer.start ≤ s.start
  forwards : s.start ≤ s.stop
  stop_le : s.stop ≤ outer.stop

namespace Span.Within

variable {s s' s'' : Span}

theorem trans (h : s.Within s') (h' : s'.Within s'') : s.Within s'' :=
  ⟨h'.start_le.trans h.start_le, h.forwards, h.stop_le.trans h'.stop_le⟩

theorem shift (h : s.Within s') (n : Nat) : (s.shift n).Within (s'.shift n) :=
  ⟨Nat.add_le_add_right h.start_le n, Nat.add_le_add_right h.forwards n,
    Nat.add_le_add_right h.stop_le n⟩

end Span.Within

/-- The positions of a line in its text. -/
def Line.span (line : Line) : Span := ⟨line.start, line.stop⟩

/-- Positions on a line, counted from its beginning, are positions of the line in the text. -/
theorem Span.Within.onLine {s : Span} {line : Line} (h : s.Within ⟨0, line.units.size⟩) :
    (s.shift line.start).Within line.span := by
  have hspan : (⟨0, line.units.size⟩ : Span).shift line.start = line.span := by
    simp [Span.shift, Line.span, Line.stop, Nat.add_comm]
  exact hspan ▸ h.shift line.start

/-! ## §2 Bounds -/

namespace Match

theorem span_eq (m : Match) (group : Nat) : m.span group = m.spans[group]?.join := by
  cases group with
  | zero => rfl
  | succ g =>
    show m.captures[g]?.join = m.captures.toList[g]?.join
    rw [Array.getElem?_toList]

theorem span_of_spans_eq {m n : Match} {f : Span → Span}
    (h : m.spans = n.spans.map (·.map f)) (group : Nat) :
    m.span group = (n.span group).map f := by
  rw [span_eq, span_eq, h, List.getElem?_map]
  rcases n.spans[group]? with _ | _ | s <;> rfl

theorem mem_spans_iff {m : Match} {s : Span} : some s ∈ m.spans ↔ ∃ g, m.span g = some s := by
  simp only [List.mem_iff_getElem?, span_eq, Option.join_eq_some_iff]

/-- A match with as many captures as there are groups; the whole match lies in
the subject and the captures in the whole match. -/
structure InBounds (m : Match) (groupCount : Nat) : Prop where
  length_spans : m.spans.length = groupCount + 1
  head_spans : m.spans.head? = some (some m.whole)
  whole_within : m.whole.Within ⟨0, m.subject.size⟩
  within_whole : ∀ s, some s ∈ m.spans → s.Within m.whole

/-- The text is what the subject has at the positions of one of the spans, and
all of these are positions of the subject. -/
def Reads (m : Match) (t : Text) : Prop :=
  ∃ s, some s ∈ m.spans ∧ s.Within ⟨0, m.subject.size⟩ ∧ t.size = s.length ∧
    ∀ k < s.length, t[k]? = m.subject[s.start + k]?

/-- Whatever text is asked for is read inside the subject. -/
structure ReadsInside (m : Match) : Prop where
  text : m.Reads m.text
  group : ∀ g t, m.group g = some t → m.Reads t
  groupNamed : ∀ name t, m.groupNamed name = some t → m.Reads t

theorem InBounds.within_subject {m : Match} {groupCount : Nat} (h : m.InBounds groupCount)
    {s : Span} (hs : some s ∈ m.spans) : s.Within ⟨0, m.subject.size⟩ :=
  (h.within_whole s hs).trans h.whole_within

theorem InBounds.readsInside {m : Match} {groupCount : Nat} (h : m.InBounds groupCount) :
    m.ReadsInside := by
  have hslice {s : Span} (hs : some s ∈ m.spans) : m.Reads (s.slice m.subject) := by
    have hstop : s.stop ≤ m.subject.size := (h.within_subject hs).stop_le
    refine ⟨s, hs, h.within_subject hs, ?_, fun k hk => ?_⟩
    · rw [Span.slice, Array.size_extract, Nat.min_eq_left hstop, Span.length]
    · rw [Span.length] at hk
      rw [Span.slice, Array.getElem?_extract_of_lt (by omega), Array.getElem?_eq_getElem]
  have hgroup (g : Nat) (t : Text) (ht : m.group g = some t) : m.Reads t := by
    obtain ⟨s, hs, rfl⟩ := Option.map_eq_some_iff.mp ht
    exact hslice (mem_spans_iff.mpr ⟨g, hs⟩)
  refine ⟨hslice List.mem_cons_self, hgroup, fun name t ht => ?_⟩
  obtain ⟨g, -, hg⟩ := Option.bind_eq_some_iff.mp ht
  exact hgroup g t hg

end Match

/-! ## §3 Attempts -/

theorem Pattern.inBounds_of_attempt {p : Pattern} {accepts : Endpoint → Bool} {budget : Nat}
    {text : Text} {start : Nat} {m : Match}
    (h : (p.attempt accepts budget text start).verdict = .matched m) :
    m.InBounds p.groupCount ∧ m.subject = text := by
  obtain ⟨e, he, -, hm⟩ := exists_outcome_of_match (start_le_of_attempt h) h
  have hsubject : m.subject = text := congrArg Match.subject hm.symm
  obtain ⟨hforwards, hstop⟩ := stop_of_attempt h
  refine ⟨⟨?_, rfl, ⟨Nat.zero_le _, hforwards, hsubject ▸ hstop⟩, fun s hs => ?_⟩, hsubject⟩
  · rw [Match.spans, List.length_cons, Array.length_toList, size_captures_of_attempt h]
  · obtain ⟨g, hg⟩ := Match.mem_spans_iff.mp hs
    cases g with
    | zero =>
      obtain rfl : m.whole = s := Option.some.inj hg
      exact ⟨Nat.le_refl _, hforwards, Nat.le_refl _⟩
    | succ g =>
      obtain ⟨hstart, hspan, hend⟩ := captures_of_attempt h (g + 1) s hg
      exact ⟨hstart, hspan, hend⟩

namespace Match

theorem spans_locate_absolute (text : Text) (line : Line) (m : Match) :
    (m.locate .absolute text line).spans = m.spans.map (·.map (·.shift line.start)) := by
  simp [spans, locate]

/-- A match on a line of a text, as the caller sees it: the line is the one
that the match names, and in either mode the spans stay on it. -/
structure OnLine (m : Match) (mode : OffsetMode) (text : Text) (line : Line) : Prop where
  line_eq : (lines text)[m.line]? = some line
  subject_eq : m.subject = match mode with | .lineRelative => line.units | .absolute => text
  within_line : mode = .absolute → ∀ s, some s ∈ m.spans → s.Within line.span

theorem InBounds.locate {m : Match} {groupCount : Nat} (h : m.InBounds groupCount) {text : Text}
    {line : Line} (hline : line ∈ lines text) (hsubject : m.subject = line.units)
    (mode : OffsetMode) :
    (m.locate mode text line).InBounds groupCount ∧
      (m.locate mode text line).OnLine mode text line := by
  have hnumber : (lines text)[line.number]? = some line := getElem?_lines_number hline
  cases mode with
  | lineRelative =>
    exact ⟨⟨h.length_spans, h.head_spans, h.whole_within, h.within_whole⟩,
      ⟨hnumber, hsubject, nofun⟩⟩
  | absolute =>
    have hwhole : m.whole.Within ⟨0, line.units.size⟩ := hsubject ▸ h.whole_within
    have hlineWithin : line.span.Within ⟨0, text.size⟩ :=
      ⟨Nat.zero_le _, Nat.le_add_right _ _, stop_le_of_mem_lines hline⟩
    have hspans : ∀ s, some s ∈ (m.locate .absolute text line).spans →
        ∃ c, some c ∈ m.spans ∧ c.shift line.start = s := by
      intro s hs
      rw [spans_locate_absolute] at hs
      obtain ⟨c, hc, hcs⟩ := List.mem_map.mp hs
      obtain ⟨c, rfl, rfl⟩ := Option.map_eq_some_iff.mp hcs
      exact ⟨c, hc, rfl⟩
    refine ⟨⟨?_, rfl, hwhole.onLine.trans hlineWithin, fun s hs => ?_⟩,
      ⟨hnumber, rfl, fun _ s hs => ?_⟩⟩
    · rw [spans_locate_absolute, List.length_map, h.length_spans]
    · obtain ⟨c, hc, rfl⟩ := hspans s hs
      exact (h.within_whole c hc).shift line.start
    · obtain ⟨c, hc, rfl⟩ := hspans s hs
      exact ((h.within_whole c hc).trans hwhole).onLine

end Match

/-! ## §4 Ranges -/

namespace MatchRange

/-- The events that a range has come upon and still shows, or has ahead of it. -/
def inSight (r : MatchRange) : List ScanEvent := r.current.toList.map .found ++ r.ahead

/-- No call brings anything into sight. -/
theorem inSight_perform (r : MatchRange) (call : RangeCall) :
    (r.perform call).inSight ⊆ r.inSight := by
  have hadvance : r.advance.inSight ⊆ r.inSight := by
    obtain ⟨k, -, hahead, -⟩ := r.ahead_advance
    intro e he
    rw [inSight, hahead, List.append_assoc]
    exact List.mem_append_right _ (List.mem_append_right _ he)
  cases call with
  | start =>
    rw [perform, start]
    split
    · exact List.Subset.refl _
    · exact hadvance
  | advance | postAdvance => exact hadvance
  | read => exact List.Subset.refl _

theorem inSight_performAll (r : MatchRange) (calls : List RangeCall) :
    (r.performAll calls).inSight ⊆ r.inSight := by
  induction calls generalizing r with
  | nil => exact List.Subset.refl _
  | cons call calls ih => exact List.Subset.trans (ih (r.perform call)) (r.inSight_perform call)

/-- In whatever way a range is driven, it shows events of the text. -/
theorem mem_events_of_current {p : Pattern} {text : Text} {o : FindOptions}
    {m : Match} (calls : List RangeCall)
    (h : ((new p text o).performAll calls).current = some m) : .found m ∈ p.events o text := by
  have hm : .found m ∈ ((new p text o).performAll calls).inSight := by simp [inSight, h]
  have hnew : (new p text o).inSight = o.onExceeded.reached (p.events o text) := rfl
  have hreached := inSight_performAll (new p text o) calls hm
  rw [hnew] at hreached
  exact (o.onExceeded.reached_sublist _).subset hreached

end MatchRange

/-! ## §5 Matches -/

namespace Pattern

/-- The ways to come by a match in a text: searching for the first one or for
all of them, or driving a range, by any calls at all. -/
inductive Yields (p : Pattern) (text : Text) (o : FindOptions) (m : Match) : Prop where
  | search (h : (p.search text o).2 = some m)
  | findAll (h : m ∈ (p.findAll text o).2)
  | range (calls : List RangeCall)
      (h : ((MatchRange.new p text o).performAll calls).current = some m)

variable {p : Pattern} {text : Text} {o : FindOptions} {m : Match}

theorem Yields.mem_events (h : p.Yields text o m) : .found m ∈ p.events o text := by
  cases h with
  | search h => exact MatchRange.mem_events_of_current [.start] h
  | findAll h =>
    rw [findAll_eq_events] at h
    obtain ⟨e, he, hm⟩ := List.mem_filterMap.mp h
    cases e with
    | abandoned => cases hm
    | found n =>
      obtain rfl : n = m := Option.some.inj hm
      exact (o.onExceeded.reached_sublist _).subset he
  | range calls h => exact MatchRange.mem_events_of_current calls h

theorem inBounds_of_mem_events (h : .found m ∈ p.events o text) :
    m.InBounds p.groupCount ∧ ∃ line, m.OnLine o.offsets text line := by
  have hmem : m ∈ (p.events o text).filterMap ScanEvent.match? :=
    List.mem_filterMap.mpr ⟨.found m, h, rfl⟩
  rw [filterMap_match?_events] at hmem
  obtain ⟨f, hf, rfl⟩ := List.mem_map.mp hmem
  obtain ⟨hline, hfound⟩ := mem_finds.mp hf
  obtain ⟨hbounds, hsubject⟩ := inBounds_of_attempt (matchAt_of_mem_lineMatches hfound).2
  obtain ⟨hlocated, honLine⟩ := hbounds.locate hline hsubject o.offsets
  exact ⟨hlocated, f.line, honLine⟩

/-- Every match handed out is in bounds, whether it comes from an attempt at a
position, from matching a whole text, from a search, or from a range driven by
any calls at all. It has a span for the whole match and a slot for each group;
every span that is set runs forwards inside the whole match, and that lies in
the subject, so asking for the text of the match or of any group reads units of
the subject only. An attempt starts where it was asked to, a full match covers
the text, and with offsets into the text no span leaves the line of the match. -/
theorem handedOut_inBounds (p : Pattern) :
    (∀ budget line start m, (p.matchAt budget line start).verdict = .matched m →
      m.InBounds p.groupCount ∧ m.ReadsInside ∧ m.subject = line ∧ m.whole.start = start) ∧
    (∀ budget text m, (p.fullMatch budget text).verdict = .matched m →
      m.InBounds p.groupCount ∧ m.ReadsInside ∧ m.subject = text ∧
        m.whole = ⟨0, text.size⟩) ∧
    ∀ text o m, p.Yields text o m →
      m.InBounds p.groupCount ∧ m.ReadsInside ∧ ∃ line, m.OnLine o.offsets text line := by
  refine ⟨fun budget line start m h => ?_, fun budget text m h => ?_, fun text o m h => ?_⟩
  · obtain ⟨hbounds, hsubject⟩ := inBounds_of_attempt h
    exact ⟨hbounds, hbounds.readsInside, hsubject, start_of_attempt h⟩
  · obtain ⟨hbounds, hsubject⟩ := inBounds_of_attempt h
    exact ⟨hbounds, hbounds.readsInside, hsubject, whole_of_fullMatch h⟩
  · obtain ⟨hbounds, hline⟩ := inBounds_of_mem_events h.mem_events
    exact ⟨hbounds, hbounds.readsInside, hline⟩

/-- `(?:(a)|b)+` -/
def unitsInTurn : Pattern where
  root := .quantified (.group none (.alternation [.group (some 1) (.unit 97), .unit 98])) ⟨1, none⟩
  groupCount := 1
  names := []

/-- The group keeps what it captured in the first round, in front of the end of
the match, and with offsets into the text it stays on the second line. -/
theorem handedOut_unitsInTurn :
    ∃ m, unitsInTurn.Yields "x\r\nab" {} m ∧
      m.spans = [some ⟨3, 5⟩, some ⟨3, 4⟩] ∧
      (m.InBounds 1 ∧ m.ReadsInside ∧ ∃ line, m.OnLine .absolute "x\r\nab" line) := by
  obtain ⟨m, hm, hspans⟩ : ∃ m, (unitsInTurn.search "x\r\nab" {}).2 = some m ∧
      m.spans = [some ⟨3, 5⟩, some ⟨3, 4⟩] := ⟨_, by cbv, rfl⟩
  have hyields : unitsInTurn.Yields "x\r\nab" {} m := .search hm
  exact ⟨m, hyields, hspans, unitsInTurn.handedOut_inBounds.2.2 _ _ m hyields⟩

end Pattern

end LineRegex
