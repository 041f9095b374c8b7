/-
LineRegex.Proofs.Partition — the lines of a text as a reader comes upon them.

A search reads its text from the left: the next line goes on to the first
terminator, and the line after it begins right behind that. What the reader
comes upon is what the rows give, and it parts the text: each unit belongs to one
line or ends one. No other lines part the text.

  §1 Terminators  — what ends a line, by the units that stand behind it.
  §2 Readers      — the next line, and where the reader goes on.
  §3 Rows         — the first row of a text, and the lines of all of them.
  §4 Partitions   — what it is to part a text into lines, one line after another.
  §5 Lines
-/
import LineRegex.Proofs.Concatenation

namespace LineRegex

/-! ## §1 Terminators -/

/-- The terminator in front of the units: a carriage return with the line feed
right behind it, or a single unit, or nothing. -/
def terminator : List CodeUnit → List CodeUnit
  | [] => []
  | u :: us =>
    if u = unit '\r' ∧ us.head? = some (unit '\n') then [unit '\r', unit '\n']
    else if u.isLineTerminator then [u] else []

/-- What stands in front of the first terminator. -/
def unbroken (us : List CodeUnit) : List CodeUnit := us.takeWhile (!·.isLineTerminator)

/-- What stands from the first terminator on. -/
def broken (us : List CodeUnit) : List CodeUnit := us.dropWhile (!·.isLineTerminator)

/-- The terminator that a line of the text ends with; empty if the line ends
with the text. -/
def Line.ending (text : Text) (line : Line) : List CodeUnit :=
  terminator (text.toList.drop line.stop)

theorem terminator_append_drop (us : List CodeUnit) :
    terminator us ++ us.drop (terminator us).length = us := by
  cases us with
  | nil => rfl
  | cons u us =>
    rw [terminator]
    split
    · rename_i h
      obtain ⟨rfl, hfeed⟩ := h
      obtain ⟨us, rfl⟩ := List.head?_eq_some_iff.mp hfeed
      rfl
    · split <;> rfl

/-- No terminator stands in front of the units only if there are none, or the
first of them does not end a line. -/
theorem terminator_eq_nil_iff (us : List CodeUnit) :
    terminator us = [] ↔ ∀ u ∈ us.head?, u.isLineTerminator = false := by
  cases us with
  | nil => simp [terminator]
  | cons u us =>
    rw [terminator]
    split
    · rename_i h
      simp [h.1, CodeUnit.isLineTerminator]
    · split <;> simp_all

theorem unbroken_append_broken (us : List CodeUnit) : unbroken us ++ broken us = us :=
  List.takeWhile_append_dropWhile

theorem drop_length_unbroken (us : List CodeUnit) :
    us.drop (unbroken us).length = broken us := by
  have hdrop : (unbroken us ++ broken us).drop (unbroken us).length = broken us := List.drop_left
  rwa [unbroken_append_broken] at hdrop

theorem isLineTerminator_of_mem_unbroken {us : List CodeUnit} {u : CodeUnit}
    (h : u ∈ unbroken us) : u.isLineTerminator = false := by
  simpa using List.mem_takeWhile_imp h

/-- From the first terminator on there is a terminator, or nothing at all. -/
theorem broken_eq_nil_of_terminator {us : List CodeUnit} (h : terminator (broken us) = []) :
    broken us = [] := by
  rw [terminator_eq_nil_iff] at h
  have hhead := List.head?_dropWhile_not (!·.isLineTerminator) us
  cases hbroken : broken us with
  | nil => rfl
  | cons u rest =>
    rw [broken] at hbroken
    rw [hbroken] at hhead
    have := h u (by rw [broken, hbroken]; rfl)
    simp_all

/-- The units up to a terminator, or up to the end, are what stands in front of
the first terminator. -/
theorem unbroken_append {us rest : List CodeUnit} (hus : ∀ u ∈ us, u.isLineTerminator = false)
    (hrest : rest = [] ∨ terminator rest ≠ []) : unbroken (us ++ rest) = us := by
  have hnone : unbroken rest = [] := by
    rcases hrest with rfl | hrest
    · rfl
    · cases rest with
      | nil => rfl
      | cons u rest =>
        rw [Ne, terminator_eq_nil_iff] at hrest
        simp at hrest
        simp [unbroken, hrest]
  rw [unbroken, List.takeWhile_append_of_pos (by simpa using hus)]
  exact (congrArg (us ++ ·) hnone).trans (List.append_nil us)

/-! ## §2 Readers -/

/-- How far the lines of a text have been read. -/
structure LineReader where
  /-- How many lines have been read. -/
  number : Nat
  /-- Where the next line begins, if any. -/
  start : Nat

namespace LineReader

/-- Nothing has been read. -/
def initial : LineReader := ⟨0, 0⟩

/-- The line that begins where the reader stands, up to the first terminator. -/
def line (text : Text) (r : LineReader) : Line :=
  ⟨r.number, r.start, (unbroken (text.toList.drop r.start)).toArray⟩

/-- The reader behind the line and its terminator. -/
def next (text : Text) (r : LineReader) : LineReader :=
  ⟨r.number + 1, (r.line text).stop + ((r.line text).ending text).length⟩

theorem drop_stop_line (text : Text) (r : LineReader) :
    text.toList.drop (r.line text).stop = broken (text.toList.drop r.start) := by
  rw [Line.stop, line, List.size_toArray, ← List.drop_drop, drop_length_unbroken]

theorem ending_line (text : Text) (r : LineReader) :
    (r.line text).ending text = terminator (broken (text.toList.drop r.start)) := by
  rw [Line.ending, drop_stop_line]

theorem start_next (text : Text) (r : LineReader) :
    (r.next text).start =
      r.start + (unbroken (text.toList.drop r.start)).length +
        (terminator (broken (text.toList.drop r.start))).length := by
  rw [← ending_line]
  rfl

theorem drop_start_next (text : Text) (r : LineReader) :
    text.toList.drop (r.next text).start =
      (broken (text.toList.drop r.start)).drop
        (terminator (broken (text.toList.drop r.start))).length := by
  rw [start_next, ← List.drop_drop, ← List.drop_drop, drop_length_unbroken]

/-- What the reader has ahead of it is a line, its terminator, and what the reader
has ahead of it then. -/
theorem drop_start_eq (text : Text) (r : LineReader) :
    text.toList.drop r.start =
      (r.line text).units.toList ++ (r.line text).ending text ++
        text.toList.drop (r.next text).start := by
  rw [drop_start_next, ending_line, List.append_assoc, terminator_append_drop]
  exact (unbroken_append_broken _).symm

/-- Where anything is left of the text, reading a line uses some of it up. -/
theorem start_lt_start_next {text : Text} {r : LineReader} (h : r.start < text.size) :
    r.start < (r.next text).start := by
  rw [start_next]
  by_contra hstill
  have hunbroken : unbroken (text.toList.drop r.start) = [] :=
    List.eq_nil_of_length_eq_zero (by omega)
  have hbroken : broken (text.toList.drop r.start) = [] :=
    broken_eq_nil_of_terminator (List.eq_nil_of_length_eq_zero (by omega))
  have hnil : text.toList.drop r.start = [] := by
    rw [← unbroken_append_broken (text.toList.drop r.start), hunbroken, hbroken]
    rfl
  rw [List.drop_eq_nil_iff, Array.length_toList] at hnil
  omega

/-- A line without a terminator ends with the text, and is not empty. -/
theorem stop_line_of_ending {text : Text} {r : LineReader} (h : r.start < text.size)
    (hending : (r.line text).ending text = []) :
    (r.line text).stop = text.size ∧ (r.line text).units ≠ #[] := by
  have hbroken : broken (text.toList.drop r.start) = [] :=
    broken_eq_nil_of_terminator ((r.ending_line text).symm.trans hending)
  have hunits : (r.line text).units.toList = text.toList.drop r.start := by
    have happend := unbroken_append_broken (text.toList.drop r.start)
    rwa [hbroken, List.append_nil] at happend
  have hsize : (r.line text).units.size = text.size - r.start := by
    rw [← Array.length_toList, hunits, List.length_drop, Array.length_toList]
  refine ⟨?_, fun hempty => ?_⟩
  · show r.start + (r.line text).units.size = text.size
    omega
  · rw [hempty, Array.size_empty] at hsize
    omega

/-- The lines that the reader comes upon, up to the end of the text. -/
def readAll (text : Text) (r : LineReader) : List Line :=
  if text.size ≤ r.start then [] else r.line text :: (r.next text).readAll text
termination_by text.size - r.start
decreasing_by
  have := LineReader.start_lt_start_next (Nat.lt_of_not_le ‹¬text.size ≤ r.start›)
  omega

end LineReader

/-! ## §3 Rows -/

namespace Row

theorem addUnit_of_not_isLineTerminator {u : CodeUnit} (hu : u.isLineTerminator = false)
    (row : Row) (rows : List Row) :
    addUnit u (row :: rows) = ⟨u :: row.content, row.ending⟩ :: rows := by
  have hreturn : u ≠ unit '\r' := by
    rintro rfl
    cases hu
  simp [addUnit, hreturn, hu]

theorem addUnit_return (rows : List Row) :
    addUnit (unit '\r') (lineFeed :: rows) = ⟨[], [unit '\r', unit '\n']⟩ :: rows := rfl

/-- The first row goes on to the first terminator, and the other rows are those of
what stands behind it. -/
theorem split_eq_cons {us : List CodeUnit} (h : us ≠ []) :
    split us = ⟨unbroken us, terminator (broken us)⟩ ::
      split ((broken us).drop (terminator (broken us)).length) := by
  induction us with
  | nil => exact absurd rfl h
  | cons u us ih =>
    rw [split_cons]
    cases hu : u.isLineTerminator with
    | true =>
      have hunbroken : unbroken (u :: us) = [] := by simp [unbroken, hu]
      have hbroken : broken (u :: us) = u :: us := by simp [broken, hu]
      rw [hunbroken, hbroken, terminator]
      split
      · -- a carriage return in front of a line feed
        rename_i hreturn
        obtain ⟨rfl, hfeed⟩ := hreturn
        obtain ⟨us, rfl⟩ := List.head?_eq_some_iff.mp hfeed
        have hsplit : split (unit '\n' :: us) = lineFeed :: split us :=
          addUnit_terminator rfl fun h => absurd h (by decide)
        rw [hsplit, addUnit_return]
        rfl
      · rename_i hreturn
        rw [addUnit_terminator hu fun hcr hfeed => hreturn ⟨hcr, head?_eq_of_head?_split hfeed⟩]
        simp
    | false =>
      have hunbroken : unbroken (u :: us) = u :: unbroken us := by simp [unbroken, hu]
      have hbroken : broken (u :: us) = broken us := by simp [broken, hu]
      rw [hunbroken, hbroken]
      cases us with
      | nil => simp [split, addUnit, hu, unbroken, broken, terminator]
      | cons v us => rw [ih (List.cons_ne_nil v us), addUnit_of_not_isLineTerminator hu]

end Row

/-- What a reader comes upon are the lines of the rows that it has ahead of it. -/
theorem LineReader.readAll_eq_linesFrom (text : Text) (r : LineReader) :
    r.readAll text = linesFrom r.number r.start (Row.split (text.toList.drop r.start)) := by
  fun_induction readAll text r with
  | case1 r hend =>
    rw [List.drop_eq_nil_of_le (by simpa using hend)]
    rfl
  | case2 r hmore ih =>
    have hne : text.toList.drop r.start ≠ [] := by simpa using hmore
    rw [ih, drop_start_next, start_next, Row.split_eq_cons hne]
    rfl

/-- The lines of a text are what a reader comes upon from the beginning of it. -/
theorem readAll_initial (text : Text) : LineReader.initial.readAll text = lines text :=
  LineReader.initial.readAll_eq_linesFrom text

/-! ## §4 Partitions -/

/-- The lines part what a reader has ahead of it: they are numbered in order, the
first of them begins where the reader stands and each other one behind the
terminator of the line in front of it; no line contains a terminator, and only the
last one may lack one, if the text ends there and the line is not empty; and the
lines with their terminators make up the text. -/
structure Partition (text : Text) (r : LineReader) (ls : List Line) : Prop where
  numbered : ∀ k line, ls[k]? = some line → line.number = r.number + k
  begins : ∀ line, ls.head? = some line → line.start = r.start
  chained : ls.IsChain fun line next => next.start = line.stop + (line.ending text).length
  unbroken : ∀ line ∈ ls, unit '\n' ∉ line.units ∧ unit '\r' ∉ line.units
  ended : ∀ line ∈ ls, line.ending text = [] →
    ls.getLast? = some line ∧ line.stop = text.size ∧ line.units ≠ #[]
  whole : text.toList.drop r.start = ls.flatMap fun line => line.units.toList ++ line.ending text

namespace Partition

variable {text : Text} {r : LineReader} {line : Line} {ls : List Line}

/-- The first of the lines is the one that the reader comes upon. -/
theorem line_eq (h : Partition text r (line :: ls)) : r.start < text.size ∧ line = r.line text := by
  have hnumber : line.number = r.number := h.numbered 0 line rfl
  have hstart : line.start = r.start := h.begins line rfl
  obtain ⟨hfeed, hreturn⟩ := h.unbroken line List.mem_cons_self
  have hwhole : text.toList.drop r.start =
      line.units.toList ++ (line.ending text ++
        ls.flatMap fun line => line.units.toList ++ line.ending text) := by
    rw [h.whole, List.flatMap_cons, List.append_assoc]
  have hrest : text.toList.drop line.stop =
      line.ending text ++ ls.flatMap fun line => line.units.toList ++ line.ending text := by
    rw [Line.stop, hstart, ← List.drop_drop, hwhole, ← Array.length_toList, List.drop_left]
  have hinside : ∀ u ∈ line.units.toList, u.isLineTerminator = false := by
    intro u hu
    rw [Array.mem_toList_iff] at hu
    simp only [CodeUnit.isLineTerminator, Bool.or_eq_false_iff, beq_eq_false_iff_ne]
    exact ⟨fun hu' => hfeed (hu' ▸ hu), fun hu' => hreturn (hu' ▸ hu)⟩
  -- behind the line comes its terminator, or nothing as the text ends there
  have hbehind :
      text.toList.drop line.stop = [] ∨ terminator (text.toList.drop line.stop) ≠ [] := by
    by_cases hending : line.ending text = []
    · obtain ⟨-, hstop, -⟩ := h.ended line List.mem_cons_self hending
      exact .inl (List.drop_eq_nil_of_le (by simp [hstop]))
    · exact .inr hending
  have hunits : line.units.toList = LineRegex.unbroken (text.toList.drop r.start) := by
    rw [hwhole, ← hrest, unbroken_append hinside hbehind]
  refine ⟨?_, ?_⟩
  · by_contra hend
    rw [List.drop_eq_nil_of_le (by simpa using hend)] at hwhole
    obtain ⟨hnil, hending⟩ := List.append_eq_nil_iff.mp hwhole.symm
    obtain ⟨-, -, hne⟩ := h.ended line List.mem_cons_self (List.append_eq_nil_iff.mp hending).1
    exact hne (Array.toList_eq_nil_iff.mp hnil)
  · cases line
    cases hnumber
    cases hstart
    rw [LineReader.line, ← hunits]

/-- The lines behind the first one part what the reader has ahead of it then. -/
theorem tail (h : Partition text r (line :: ls)) : Partition text (r.next text) ls := by
  obtain ⟨-, rfl⟩ := h.line_eq
  refine ⟨fun k line hline => ?_, fun line hline => ?_, h.chained.tail,
    fun line hline => h.unbroken line (List.mem_cons_of_mem _ hline),
    fun line hline hending => ?_, ?_⟩
  · have hnumber : line.number = r.number + (k + 1) := h.numbered (k + 1) line hline
    rw [hnumber, Nat.add_comm k, ← Nat.add_assoc]
    rfl
  · exact (List.isChain_cons.mp h.chained).1 line hline
  · obtain ⟨hlast, hstop⟩ := h.ended line (List.mem_cons_of_mem _ hline) hending
    refine ⟨?_, hstop⟩
    obtain ⟨line', ls', rfl⟩ := List.exists_cons_of_ne_nil (List.ne_nil_of_mem hline)
    rwa [List.getLast?_cons_cons] at hlast
  · have hwhole := h.whole
    rw [r.drop_start_eq text, List.flatMap_cons] at hwhole
    exact List.append_cancel_left hwhole

theorem nil (h : text.size ≤ r.start) : Partition text r [] :=
  ⟨nofun, nofun, .nil, nofun, nofun, List.drop_eq_nil_of_le (by simpa using h)⟩

/-- The line that the reader comes upon, and lines that part what it has ahead of it
then, part what it has ahead of it. -/
theorem cons (hmore : r.start < text.size) (h : Partition text (r.next text) ls) :
    Partition text r (r.line text :: ls) := by
  refine ⟨fun k line hline => ?_, fun line hline => ?_,
    List.isChain_cons.mpr ⟨h.begins, h.chained⟩, ?_, ?_, ?_⟩
  · cases k with
    | zero =>
      cases hline
      rfl
    | succ k =>
      rw [h.numbered k line hline, Nat.add_comm k, ← Nat.add_assoc]
      rfl
  · cases hline
    rfl
  · refine List.forall_mem_cons.mpr ⟨⟨fun hu => ?_, fun hu => ?_⟩, h.unbroken⟩ <;>
      exact absurd (isLineTerminator_of_mem_unbroken (List.mem_toArray.mp hu)) (by decide)
  · refine List.forall_mem_cons.mpr ⟨fun hending => ?_, fun line hline hending => ?_⟩
    · obtain ⟨hstop, hne⟩ := LineReader.stop_line_of_ending hmore hending
      have hnext : (r.next text).start = text.size := by
        rw [LineReader.next, hstop, hending]
        rfl
      refine ⟨?_, hstop, hne⟩
      cases ls with
      | nil => rfl
      | cons line ls =>
        have := h.line_eq.1
        omega
    · obtain ⟨hlast, hstop⟩ := h.ended line hline hending
      refine ⟨?_, hstop⟩
      obtain ⟨line', ls', rfl⟩ := List.exists_cons_of_ne_nil (List.ne_nil_of_mem hline)
      rwa [List.getLast?_cons_cons]
  · rw [r.drop_start_eq text, h.whole, List.flatMap_cons]

end Partition

/-- The only lines that part what a reader has ahead of it are those that it comes upon. -/
theorem partition_iff {text : Text} {r : LineReader} {ls : List Line} :
    Partition text r ls ↔ ls = r.readAll text := by
  constructor
  · intro h
    induction ls generalizing r with
    | nil =>
      have hend : text.size ≤ r.start := by simpa using h.whole
      rw [LineReader.readAll, if_pos hend]
    | cons line ls ih =>
      obtain ⟨hmore, hline⟩ := h.line_eq
      rw [LineReader.readAll, if_neg (by omega), ← ih h.tail, hline]
  · rintro rfl
    fun_induction r.readAll text with
    | case1 r hend => exact .nil hend
    | case2 r hmore ih => exact .cons (by omega) ih

/-- The last of the lines, with its terminator, ends where the text does. -/
theorem Partition.end_eq_size {text : Text} {r : LineReader} {ls : List Line} {line : Line}
    (h : Partition text r ls) (hlast : ls.getLast? = some line) :
    line.stop + (line.ending text).length = text.size := by
  induction ls generalizing r with
  | nil => cases hlast
  | cons line' ls ih =>
    cases ls with
    | cons line'' ls =>
      rw [List.getLast?_cons_cons] at hlast
      exact ih h.tail hlast
    | nil =>
      obtain rfl : line' = line := Option.some.inj hlast
      have hmore := h.line_eq.1
      have hstart : line'.start = r.start := h.begins line' rfl
      have hlength := congrArg List.length h.whole
      simp only [List.length_drop, Array.length_toList, List.flatMap_cons, List.flatMap_nil,
        List.append_nil, List.length_append] at hlength
      rw [Line.stop, hstart]
      omega

/-! ## §5 Lines -/

/-- A match that a text yields is one of the line whose index it carries. -/
theorem Pattern.Yields.onLine {p : Pattern} {text : Text} {o : FindOptions} {m : Match}
    (h : p.Yields text o m) :
    ∃ line found, (lines text)[m.line]? = some line ∧
      (p.matchAt o.budget line.units found.whole.start).verdict = .matched found ∧
        m = found.locate o.offsets text line := by
  have hfound : m ∈ (p.events o text).filterMap ScanEvent.match? :=
    List.mem_filterMap.mpr ⟨.found m, h.mem_events, rfl⟩
  rw [p.filterMap_match?_events o text] at hfound
  obtain ⟨f, hf, rfl⟩ := List.mem_map.mp hfound
  obtain ⟨hline, hmatch⟩ := Pattern.mem_finds.mp hf
  refine ⟨f.line, f.found, ?_, (Pattern.matchAt_of_mem_lineMatches hmatch).2, rfl⟩
  have hnumber : (f.located o.offsets text).line = f.line.number := by
    unfold Find.located Match.locate
    split <;> rfl
  rw [hnumber]
  exact getElem?_lines_number hline

/-- The lines of a text are what a reader comes upon from the beginning of the text.
They part it, and nothing else does; a text has no lines only if it is empty, and no
line is opened behind the terminator of the last one. The number that a match carries
is the index of the line that it was found on. -/
theorem lines_partition (text : Text) :
    LineReader.initial.readAll text = lines text ∧
      Partition text .initial (lines text) ∧
      (∀ ls, Partition text .initial ls → ls = lines text) ∧
      (lines text = [] ↔ text = #[]) ∧
      (∀ line, (lines text).getLast? = some line →
        line.stop + (line.ending text).length = text.size) ∧
      ∀ p o m, Pattern.Yields p text o m →
        ∃ line found, (lines text)[m.line]? = some line ∧
          (p.matchAt o.budget line.units found.whole.start).verdict = .matched found ∧
            m = found.locate o.offsets text line := by
  have hread := readAll_initial text
  have hpartition : Partition text .initial (lines text) := partition_iff.mpr hread.symm
  refine ⟨hread, hpartition, fun ls h => (partition_iff.mp h).trans hread, ⟨fun hnil => ?_, ?_⟩,
    fun line hlast => hpartition.end_eq_size hlast, fun p o m h => h.onLine⟩
  · have hwhole := hpartition.whole
    rw [hnil] at hwhole
    exact Array.toList_eq_nil_iff.mp hwhole
  · rintro rfl
    rfl

/-- A line feed behind a carriage return ends the same line, a second carriage return
ends a line of its own, and what is left of the text is the last line; a match on
that line carries its index. -/
theorem lines_partition_mixedTerminators :
    let text : Text := "x\r\n\r\raa"
    (lines text).map (fun line => (line.number, line.start, line.stop)) =
        [(0, 0, 1), (1, 3, 3), (2, 4, 4), (3, 5, 7)] ∧
      Partition text .initial (lines text) ∧
      ∃ m line, Pattern.Yields Pattern.unitsInTurn text {} m ∧ m.line = 3 ∧
        (lines text)[m.line]? = some line := by
  intro text
  obtain ⟨m, hm, hnumber⟩ : ∃ m, (Pattern.unitsInTurn.search text {}).2 = some m ∧ m.line = 3 :=
    ⟨_, by cbv, rfl⟩
  have hyields : Pattern.Yields Pattern.unitsInTurn text {} m := .search hm
  obtain ⟨-, hpartition, -, -, -, hlines⟩ := lines_partition text
  obtain ⟨line, -, hline, -⟩ := hlines _ _ m hyields
  exact ⟨by decide, hpartition, m, line, hyields, hnumber, hline⟩

end LineRegex
