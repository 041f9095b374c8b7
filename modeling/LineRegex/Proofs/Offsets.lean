/-
LineRegex.Proofs.Offsets — the offset modes say the same about a text.

A match names its line, so one with offsets from the beginning of the line can
be turned into one with offsets into the text afterwards. A search with offsets
into the text yields exactly what this makes of the search with offsets into
the lines: nothing moves but the spans, and they by the start of the line.

  §1 Matches   — a match on a line as a match in the text.
  §2 Texts     — what the groups have matched stays the same.
  §3 Searches
-/
import LineRegex.Proofs.Bounds

namespace LineRegex

/-! ## §1 Matches -/

namespace Match

/-- A match with offsets from the beginning of its line as a match in the text. -/
def inText (text : Text) (m : Match) : Match :=
  match (lines text)[m.line]? with
  | some line => m.locate .absolute text line
  | none => m

theorem inText_eq {text : Text} {line : Line} {m : Match}
    (hline : (lines text)[m.line]? = some line) :
    m.inText text = m.locate .absolute text line := by
  simp only [inText, hline]

theorem inText_locate {text : Text} {line : Line} (hline : line ∈ lines text) (m : Match) :
    (m.locate .lineRelative text line).inText text = m.locate .absolute text line :=
  inText_eq (getElem?_lines_number hline)

/-! ## §2 Texts -/

/-- What a line has at some positions, the text has at those positions behind
the start of the line. -/
theorem slice_shift_of_mem_lines {text : Text} {line : Line} (hline : line ∈ lines text)
    {s : Span} (hs : s.stop ≤ line.units.size) :
    (s.shift line.start).slice text = s.slice line.units := by
  have hstop : min (line.start + s.stop) line.stop = s.stop + line.start := by
    rw [Line.stop]
    omega
  rw [Span.slice, Span.slice, units_eq_extract_of_mem_lines hline, Array.extract_extract, hstop,
    Nat.add_comm line.start]
  rfl

/-- No part of a line contains the end of one. -/
theorem not_mem_slice_of_isLineTerminator {text : Text} {line : Line} (hline : line ∈ lines text)
    (s : Span) {u : CodeUnit} (hu : u.isLineTerminator = true) : u ∉ s.slice line.units := by
  intro hmem
  obtain ⟨k, hk, rfl⟩ := Array.mem_extract_iff_getElem.mp hmem
  rw [not_isLineTerminator_of_mem_line hline (Array.getElem_mem _)] at hu
  cases hu

/-- Two matches, one with offsets into the text and one with offsets from the
beginning of the line, that say the same. -/
structure Restates (text : Text) (line : Line) (a r : Match) : Prop where
  line_eq : a.line = r.line ∧ (lines text)[r.line]? = some line
  /-- The line stands in the text from its start on. -/
  units_eq : line.units = text.extract line.start line.stop
  subject_eq : a.subject = text ∧ r.subject = line.units
  set_iff : ∀ g, (a.span g).isSome = (r.span g).isSome
  spans_eq : a.spans = r.spans.map (·.map (·.shift line.start))
  text_eq : a.text = r.text
  group_eq : ∀ g, a.group g = r.group g
  groupNamed_eq : ∀ name, a.groupNamed name = r.groupNamed name
  /-- No group, nor the whole match, contains the end of a line. -/
  unbroken : ∀ g t, r.group g = some t → unit '\n' ∉ t ∧ unit '\r' ∉ t

theorem restates_inText {text : Text} {line : Line} {r : Match} {groupCount : Nat}
    (hbounds : r.InBounds groupCount) (honLine : r.OnLine .lineRelative text line) :
    Restates text line (r.inText text) r := by
  have hmem : line ∈ lines text := List.mem_of_getElem? honLine.line_eq
  have hsubject : r.subject = line.units := honLine.subject_eq
  have hspans : (r.inText text).spans = r.spans.map (·.map (·.shift line.start)) := by
    rw [inText_eq honLine.line_eq, spans_locate_absolute]
  have hspan (g : Nat) := span_of_spans_eq hspans g
  have hstop {s : Span} (hs : some s ∈ r.spans) : s.stop ≤ line.units.size :=
    hsubject ▸ (hbounds.within_subject hs).stop_le
  have hline : (r.inText text).line = r.line := by
    rw [inText_eq honLine.line_eq]
    exact number_of_getElem?_lines honLine.line_eq
  have htext : (r.inText text).subject = text := by
    rw [inText_eq honLine.line_eq]
    rfl
  have hnames : (r.inText text).names = r.names := by
    rw [inText_eq honLine.line_eq]
    rfl
  have hgroup (g : Nat) : (r.inText text).group g = r.group g := by
    rw [Match.group, Match.group, hspan, Option.map_map]
    refine Option.map_congr fun s hs => ?_
    show (s.shift line.start).slice (r.inText text).subject = s.slice r.subject
    rw [htext, hsubject]
    exact slice_shift_of_mem_lines hmem (hstop (mem_spans_iff.mpr ⟨g, hs⟩))
  refine
    { line_eq := ⟨hline, honLine.line_eq⟩
      units_eq := units_eq_extract_of_mem_lines hmem
      subject_eq := ⟨htext, hsubject⟩
      set_iff := fun g => by rw [hspan, Option.isSome_map]
      spans_eq := hspans
      text_eq := Option.some.inj (hgroup 0)
      group_eq := hgroup
      groupNamed_eq := fun name => ?_
      unbroken := fun g t ht => ?_ }
  · rw [groupNamed, groupNamed, hnames, funext hgroup]
  · obtain ⟨s, -, rfl⟩ := Option.map_eq_some_iff.mp ht
    rw [hsubject]
    exact ⟨not_mem_slice_of_isLineTerminator hmem s rfl,
      not_mem_slice_of_isLineTerminator hmem s rfl⟩

end Match

/-! ## §3 Searches -/

namespace Pattern

theorem events_absolute (p : Pattern) (text : Text) (o : FindOptions) :
    p.events { o with offsets := .absolute } text =
      (p.events { o with offsets := .lineRelative } text).map (.map (·.inText text)) := by
  rw [events_eq, events_eq, List.map_flatMap]
  refine List.flatMap_congr fun line hline => ?_
  rw [List.map_map]
  refine List.map_congr_left fun e _ => ?_
  rw [Function.comp_apply, ScanEvent.map_map]
  exact congrArg (ScanEvent.map · e) (funext fun m => (m.inText_locate hline).symm)

/-- A search with offsets into the text is one with offsets into the lines, of
which the matches are then turned into matches in the text. -/
theorem findAll_absolute (p : Pattern) (text : Text) (o : FindOptions) :
    p.findAll text { o with offsets := .absolute } =
      ((p.findAll text { o with offsets := .lineRelative }).1,
        (p.findAll text { o with offsets := .lineRelative }).2.map (·.inText text)) := by
  rw [findAll_eq_events, findAll_eq_events, events_absolute, ScanEvent.any_isAbandoned_map,
    ExceededPolicy.reached_map, ScanEvent.filterMap_match?_map]

/-- The offset modes differ by the start of the line only. In both of them a
search has the same status and yields as many matches, and the matches in the
same place of the two lists are on the same line and have the same groups set;
a span with offsets into the text is the span on the line, moved by where the
line stands in the text. The match and its groups have the same texts, in which
no line ends. -/
theorem findAll_offsets (p : Pattern) (text : Text) (o : FindOptions) :
    let absolute := p.findAll text { o with offsets := .absolute }
    let relative := p.findAll text { o with offsets := .lineRelative }
    absolute.1 = relative.1 ∧ absolute.2.length = relative.2.length ∧
      List.Forall₂ (fun a r => ∃ line, Match.Restates text line a r) absolute.2 relative.2 := by
  intro absolute relative
  have habsolute : absolute = (relative.1, relative.2.map (·.inText text)) :=
    p.findAll_absolute text o
  refine ⟨?_, ?_, ?_⟩
  · rw [habsolute]
  · rw [habsolute, List.length_map]
  · rw [habsolute, List.forall₂_map_left_iff, List.forall₂_same]
    intro r hr
    obtain ⟨hbounds, line, honLine⟩ := inBounds_of_mem_events (Yields.findAll hr).mem_events
    exact ⟨line, Match.restates_inText hbounds honLine⟩

/-- A carriage return with a line feed, an empty line and one without a terminator. -/
example :
    (manyUnits.findAll "b\r\n\naa" { offsets := .absolute }).2.map (·.whole) =
        [⟨0, 0⟩, ⟨1, 1⟩, ⟨3, 3⟩, ⟨4, 6⟩, ⟨6, 6⟩] ∧
      (manyUnits.findAll "b\r\n\naa" { offsets := .lineRelative }).2.map (·.whole) =
        [⟨0, 0⟩, ⟨1, 1⟩, ⟨0, 0⟩, ⟨0, 2⟩, ⟨2, 2⟩] := by
  constructor <;> cbv

end Pattern

end LineRegex
