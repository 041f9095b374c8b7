/-
LineRegex.Proofs.Concatenation — searching a text in two parts.

Where a text is cut between two lines, the lines of the whole are those of the
two parts, the second ones moved. A scan keeps nothing from one line to the
next but its counts, so what it finds in the whole is what it finds in the
first part and then, moved likewise, what it finds in the second.

  §1 Rows      — a cut between two lines, and the rows on both sides of it.
  §2 Lines     — the lines of the second part, further down.
  §3 Matches   — a match in a part of a text as a match in the whole.
  §4 Texts     — what a group matched is the same in the part and in the whole.
  §5 Searches
-/
import LineRegex.Proofs.Bounds

namespace LineRegex

/-! ## §1 Rows -/

/-- The text `front` ends where a line of `front ++ back` ends: nothing is in
front, or a terminator is that `back` does not complete. -/
def CutsBetweenLines (front back : Text) : Prop :=
  front = #[] ∨ front.back? = some (unit '\n') ∨
    front.back? = some (unit '\r') ∧ back[0]? ≠ some (unit '\n')

namespace Row

/-- The row of a lone line feed. -/
def lineFeed : Row := ⟨[], [unit '\n']⟩

theorem addUnit_ne_nil (u : CodeUnit) (rows : List Row) : addUnit u rows ≠ [] := by
  cases rows with
  | nil => rw [addUnit]; split <;> simp
  | cons row rows => rw [addUnit]; split <;> (try split) <;> simp

theorem split_cons (u : CodeUnit) (units : List CodeUnit) :
    split (u :: units) = addUnit u (split units) := rfl

/-- The first row is that of a lone line feed only if the text begins with one. -/
theorem head?_eq_of_head?_split {units : List CodeUnit}
    (h : (split units).head? = some lineFeed) : units.head? = some (unit '\n') := by
  cases units with
  | nil => cases h
  | cons u units =>
    rw [split_cons] at h
    have hu : u = unit '\n' := by
      unfold addUnit lineFeed at h
      split at h
      · split at h <;> simp_all
      · split at h
        · simp at h
        · split at h <;> simp_all
    rw [hu]
    rfl

theorem addUnit_append (u : CodeUnit) {rows : List Row} (hrows : rows ≠ []) (more : List Row) :
    addUnit u (rows ++ more) = addUnit u rows ++ more := by
  cases rows with
  | nil => exact absurd rfl hrows
  | cons row rows =>
    simp only [List.cons_append, addUnit]
    split
    · rfl
    · split <;> rfl

/-- A terminator in front of rows that it does not complete ends a row of its own. -/
theorem addUnit_terminator {u : CodeUnit} (hu : u.isLineTerminator = true) {rows : List Row}
    (h : u = unit '\r' → rows.head? ≠ some lineFeed) : addUnit u rows = ⟨[], [u]⟩ :: rows := by
  cases rows with
  | nil => rw [addUnit, if_pos hu]
  | cons row rows =>
    rw [addUnit, if_neg, if_pos hu]
    intro hjoin
    simp only [Bool.and_eq_true, decide_eq_true_eq, List.isEmpty_iff] at hjoin
    obtain ⟨⟨rfl, hcontent⟩, hending⟩ := hjoin
    refine h rfl ?_
    cases row
    cases hcontent
    cases hending
    rfl

/-- Behind a terminator the rows begin anew, unless it is a carriage return in
front of a line feed. -/
theorem split_append_of_terminator {u : CodeUnit} (hu : u.isLineTerminator = true)
    {back : List CodeUnit} (h : u = unit '\r' → back.head? ≠ some (unit '\n'))
    (content : List CodeUnit) :
    split (content ++ [u] ++ back) = split (content ++ [u]) ++ split back := by
  induction content with
  | nil =>
    have hback : addUnit u (split back) = ⟨[], [u]⟩ :: split back :=
      addUnit_terminator hu fun hcr hfeed => h hcr (head?_eq_of_head?_split hfeed)
    have halone : addUnit u [] = [⟨[], [u]⟩] := addUnit_terminator hu fun _ => nofun
    exact hback.trans (congrArg (· ++ split back) halone.symm)
  | cons v content ih =>
    have hne : split (content ++ [u]) ≠ [] := by
      cases content <;> simp only [List.nil_append, List.cons_append, split_cons] <;>
        exact addUnit_ne_nil _ _
    simp only [List.cons_append, split_cons]
    rw [ih, addUnit_append v hne]

/-- The rows of a text cut between two lines are those of its parts. -/
theorem split_append {front back : Text} (h : CutsBetweenLines front back) :
    split (front ++ back).toList = split front.toList ++ split back.toList := by
  rw [Array.toList_append]
  rcases h with rfl | hlast
  · rfl
  have hends {u : CodeUnit} (hu : front.back? = some u) :
      ∃ content, front.toList = content ++ [u] :=
    List.getLast?_eq_some_iff.mp (front.getLast?_toList.trans hu)
  rcases hlast with hfeed | ⟨hreturn, hback⟩
  · obtain ⟨content, hfront⟩ := hends hfeed
    rw [hfront]
    exact split_append_of_terminator rfl (fun hcr => absurd hcr (by decide)) content
  · obtain ⟨content, hfront⟩ := hends hreturn
    rw [hfront]
    refine split_append_of_terminator rfl (fun _ hhead => hback ?_) content
    rw [← Array.getElem?_toList, ← List.head?_eq_getElem?]
    exact hhead

end Row

/-! ## §2 Lines -/

/-- A line with more lines and units in front of it. -/
def Line.behind (lines units : Nat) (line : Line) : Line :=
  { line with number := line.number + lines, start := line.start + units }

theorem linesFrom_behind (number start lines units : Nat) (rows : List Row) :
    linesFrom (number + lines) (start + units) rows =
      (linesFrom number start rows).map (·.behind lines units) := by
  induction rows generalizing number start with
  | nil => rfl
  | cons row rows ih =>
    have hnumber : number + lines + 1 = number + 1 + lines := by omega
    have hstart : start + units + row.content.length + row.ending.length =
        start + row.content.length + row.ending.length + units := by omega
    rw [linesFrom, linesFrom, List.map_cons, ← ih, hnumber, hstart]
    rfl

/-- The lines of a text cut between two lines are those of its parts, the lines
of the second one behind all of the first. -/
theorem lines_append {front back : Text} (h : CutsBetweenLines front back) :
    lines (front ++ back) =
      lines front ++ (lines back).map (·.behind (lines front).length front.size) := by
  have hunits : ((Row.split front.toList).flatMap Row.units).length = front.size := by
    rw [Row.units_split, Array.length_toList]
  unfold lines
  rw [Row.split_append h, linesFrom_append, linesFrom_behind, length_linesFrom, hunits]

/-! ## §3 Matches -/

namespace Match

/-- A match with more lines and units in front of it; offsets that count from
the beginning of the line stay. -/
def behind (mode : OffsetMode) (lines units : Nat) (m : Match) : Match :=
  match mode with
  | .lineRelative => { m with line := m.line + lines }
  | .absolute =>
    { m with
      line := m.line + lines
      whole := m.whole.shift units
      captures := m.captures.map fun s => s.map (·.shift units) }

/-- A match in the beginning of a text as a match in that text; what counts from
the beginning of the line refers to the line only. -/
def within (mode : OffsetMode) (text : Text) (m : Match) : Match :=
  match mode with
  | .lineRelative => m
  | .absolute => { m with subject := text }

theorem locate_within (mode : OffsetMode) (front text : Text) (line : Line) (m : Match) :
    m.locate mode text line = (m.locate mode front line).within mode text := by
  cases mode <;> rfl

theorem locate_behind (mode : OffsetMode) (back text : Text) (lines units : Nat) (line : Line)
    (m : Match) :
    m.locate mode text (line.behind lines units) =
      ((m.locate mode back line).behind mode lines units).within mode text := by
  cases mode with
  | lineRelative => rfl
  | absolute =>
    simp [locate, behind, within, Line.behind, Span.shift, Function.comp_def, Nat.add_assoc]

end Match

/-! ## §4 Texts -/

namespace Match

theorem span_behind_absolute (lines units : Nat) (m : Match) (group : Nat) :
    (m.behind .absolute lines units).span group = (m.span group).map (·.shift units) :=
  span_of_spans_eq (by simp [spans, behind]) group

/-- What a group of a match in the front matched is the same in the whole. -/
theorem group_within {mode : OffsetMode} {front : Text} {m : Match}
    (h : mode = .absolute → m.subject = front ∧ ∀ g s, m.span g = some s → s.stop ≤ front.size)
    (back : Text) (group : Nat) :
    (m.within mode (front ++ back)).group group = m.group group := by
  cases mode with
  | lineRelative => rfl
  | absolute =>
    obtain ⟨hsubject, hstop⟩ := h rfl
    refine Option.map_congr fun s hs => ?_
    show (front ++ back).extract s.start s.stop = m.subject.extract s.start s.stop
    rw [hsubject, Array.extract_append, Nat.sub_eq_zero_of_le (hstop group s hs)]
    simp

/-- What a group of a match in the back matched is the same in the whole. -/
theorem group_behind {mode : OffsetMode} {back : Text} {m : Match}
    (h : mode = .absolute → m.subject = back) (front : Text) (lines group : Nat) :
    ((m.behind mode lines front.size).within mode (front ++ back)).group group =
      m.group group := by
  cases mode with
  | lineRelative => rfl
  | absolute =>
    have hspan : ((m.behind .absolute lines front.size).within .absolute (front ++ back)).span
        group = (m.span group).map (·.shift front.size) := span_behind_absolute lines _ m group
    rw [Match.group, hspan, Option.map_map]
    refine Option.map_congr fun s _ => ?_
    show (front ++ back).extract (s.start + front.size) (s.stop + front.size) =
      m.subject.extract s.start s.stop
    rw [h rfl, Array.extract_append]
    simp

end Match

namespace Pattern

/-- With offsets into the text, every group of a match lies in the text. -/
theorem span_of_mem_findAll {p : Pattern} {text : Text} {o : FindOptions} {m : Match}
    (h : m ∈ (p.findAll text o).2) (ho : o.offsets = .absolute) :
    m.subject = text ∧ ∀ g s, m.span g = some s → s.stop ≤ text.size := by
  obtain ⟨hbounds, line, honLine⟩ := inBounds_of_mem_events (Yields.findAll h).mem_events
  have hsubject : m.subject = text := by simpa [ho] using honLine.subject_eq
  refine ⟨hsubject, fun g s hs => ?_⟩
  have hstop := (hbounds.within_subject (Match.mem_spans_iff.mpr ⟨g, hs⟩)).stop_le
  rwa [hsubject] at hstop

/-! ## §5 Searches -/

/-- The scan of a text cut between two lines comes upon what it comes upon in
its parts. -/
theorem events_append (p : Pattern) (o : FindOptions) {front back : Text}
    (h : CutsBetweenLines front back) :
    p.events o (front ++ back) =
      (p.events o front).map (.map (·.within o.offsets (front ++ back))) ++
        (p.events o back).map (.map fun m =>
          (m.behind o.offsets (lines front).length front.size).within o.offsets
            (front ++ back)) := by
  rw [events_eq, lines_append h, List.flatMap_append, List.flatMap_map, events_eq, events_eq,
    List.map_flatMap, List.map_flatMap]
  congr 1
  · refine List.flatMap_congr fun line _ => ?_
    rw [List.map_map]
    refine List.map_congr_left fun e _ => ?_
    rw [Function.comp_apply, ScanEvent.map_map]
    exact congrArg (ScanEvent.map · e)
      (funext fun m => m.locate_within o.offsets front (front ++ back) line)
  · refine List.flatMap_congr fun line _ => ?_
    rw [List.map_map]
    refine List.map_congr_left fun e _ => ?_
    rw [Function.comp_apply, ScanEvent.map_map]
    exact congrArg (ScanEvent.map · e)
      (funext fun m => m.locate_behind o.offsets back (front ++ back) _ _ line)

theorem status_findAll_eq_exceeded_iff (p : Pattern) (text : Text) (o : FindOptions) :
    (p.findAll text o).1 = .budgetExceeded ↔
      (p.events o text).any ScanEvent.isAbandoned = true := by
  rw [findAll_eq_events]
  simp

theorem status_findAll_eq_success_iff (p : Pattern) (text : Text) (o : FindOptions) :
    (p.findAll text o).1 = .success ↔ (p.events o text).any ScanEvent.isAbandoned = false := by
  rw [findAll_eq_events]
  simp

/-- A search in a text cut between two lines finds what it finds in the first
part, and then, with the lines and the offsets moved, what it finds in the
second; the positions given up add up. With the policy to abort this is so if
the search of the first part succeeds, and otherwise it ends there. Each group of
each match has the text that it has in its part. -/
theorem findAll_append (p : Pattern) (o : FindOptions) {front back : Text}
    (h : CutsBetweenLines front back) :
    let text := front ++ back
    let inFront := fun m : Match => m.within o.offsets text
    let inBack := fun m : Match =>
      (m.behind o.offsets (lines front).length front.size).within o.offsets text
    (o.onExceeded = .skipPosition ∨ (p.findAll front o).1 = .success →
      (p.findAll text o).2 =
        (p.findAll front o).2.map inFront ++ (p.findAll back o).2.map inBack ∧
      p.abandonedIn text o = p.abandonedIn front o + p.abandonedIn back o ∧
      ((p.findAll text o).1 = .budgetExceeded ↔
        (p.findAll front o).1 = .budgetExceeded ∨ (p.findAll back o).1 = .budgetExceeded)) ∧
    (o.onExceeded = .abort → (p.findAll front o).1 ≠ .success →
      p.findAll text o = ((p.findAll front o).1, (p.findAll front o).2.map inFront) ∧
      p.abandonedIn text o = p.abandonedIn front o) ∧
    (∀ m ∈ (p.findAll front o).2, ∀ g, (inFront m).group g = m.group g) ∧
    ∀ m ∈ (p.findAll back o).2, ∀ g, (inBack m).group g = m.group g := by
  intro text inFront inBack
  have hevents : p.events o text =
      (p.events o front).map (.map inFront) ++ (p.events o back).map (.map inBack) :=
    p.events_append o h
  have hany : (p.events o text).any ScanEvent.isAbandoned =
      ((p.events o front).any ScanEvent.isAbandoned ||
        (p.events o back).any ScanEvent.isAbandoned) := by
    rw [hevents, List.any_append, ScanEvent.any_isAbandoned_map, ScanEvent.any_isAbandoned_map]
  refine ⟨fun hgoes => ?_, fun habort hstops => ?_, fun m hm g => ?_, fun m hm g => ?_⟩
  · have hreached : o.onExceeded.reached (p.events o text) =
        (o.onExceeded.reached (p.events o front)).map (.map inFront) ++
          (o.onExceeded.reached (p.events o back)).map (.map inBack) := by
      rw [hevents, ExceededPolicy.reached_append, ExceededPolicy.reached_map,
        ExceededPolicy.reached_map]
      intro habort
      rw [ScanEvent.any_isAbandoned_map]
      rcases hgoes with hskip | hsuccess
      · cases habort.symm.trans hskip
      · exact (p.status_findAll_eq_success_iff front o).mp hsuccess
    refine ⟨?_, ?_, ?_⟩
    · simp only [findAll_eq_events]
      rw [hreached, List.filterMap_append, ScanEvent.filterMap_match?_map,
        ScanEvent.filterMap_match?_map]
    · simp only [abandonedIn_eq_events]
      rw [hreached, List.countP_append, ScanEvent.countP_isAbandoned_map,
        ScanEvent.countP_isAbandoned_map]
    · simp only [status_findAll_eq_exceeded_iff]
      rw [hany, Bool.or_eq_true]
  · have hfront : (p.events o front).any ScanEvent.isAbandoned = true := by
      rw [Ne, status_findAll_eq_success_iff, Bool.not_eq_false] at hstops
      exact hstops
    have hreached : o.onExceeded.reached (p.events o text) =
        (o.onExceeded.reached (p.events o front)).map (.map inFront) := by
      rw [hevents, ← ExceededPolicy.reached_map, habort]
      refine ScanEvent.untilAbandoned_append_of_any ?_ _
      rw [ScanEvent.any_isAbandoned_map]
      exact hfront
    constructor
    · simp only [findAll_eq_events]
      rw [hreached, hany, hfront, Bool.true_or, ScanEvent.filterMap_match?_map]
    · simp only [abandonedIn_eq_events]
      rw [hreached, ScanEvent.countP_isAbandoned_map]
  · exact m.group_within (fun ho => span_of_mem_findAll hm ho) back g
  · exact m.group_behind (fun ho => (span_of_mem_findAll hm ho).1) front _ g

/-- The first part ends in a carriage return and an empty line follows. In each
part seven steps do not suffice at the first of two `a`. -/
theorem findAll_append_manyUnits :
    CutsBetweenLines "baa\r" "\r\naa" ∧
      (manyUnits.findAll (("baa\r" : Text) ++ ("\r\naa" : Text)) { budget := 7 }).2.map
          (fun m => (m.line, m.whole)) =
        [(0, ⟨0, 0⟩), (0, ⟨2, 3⟩), (0, ⟨3, 3⟩), (1, ⟨4, 4⟩), (2, ⟨7, 8⟩), (2, ⟨8, 8⟩)] ∧
      manyUnits.abandonedIn (("baa\r" : Text) ++ ("\r\naa" : Text)) { budget := 7 } = 2 := by
  have hcut : CutsBetweenLines "baa\r" "\r\naa" := .inr (.inr (by decide))
  obtain ⟨hskip, -, -, -⟩ := manyUnits.findAll_append { budget := 7 } hcut
  obtain ⟨hmatches, habandoned, -⟩ := hskip (.inl rfl)
  refine ⟨hcut, ?_, ?_⟩
  · rw [hmatches]
    cbv
  · rw [habandoned]
    cbv

end Pattern

end LineRegex
