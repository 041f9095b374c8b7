/-
LineRegex.Proofs.Lines — where the lines of a text stand in it.

The rows of a text make up the text, and a line stands in it behind the rows
in front of its own. So the lines are numbered in order, each is the part of
the text from its start to its stop, and none of them contains a terminator.

  §1 Rows    — the units of a row; content without terminators.
  §2 Places  — the lines of successive rows, one behind the other.
  §3 Lines   — the lines of a text.
-/
import Mathlib.Data.List.Basic
import LineRegex.Line

namespace LineRegex

/-! ## §1 Rows -/

namespace Row

/-- The units of a row, its terminator included. -/
def units (row : Row) : List CodeUnit := row.content ++ row.ending

theorem units_addUnit (u : CodeUnit) (rows : List Row) :
    (addUnit u rows).flatMap units = u :: rows.flatMap units := by
  cases rows with
  | nil =>
    rw [addUnit]
    split <;> rfl
  | cons row rows =>
    rw [addUnit]
    split
    · -- a carriage return in front of a line feed
      rename_i h
      simp only [Bool.and_eq_true, decide_eq_true_eq, List.isEmpty_iff] at h
      obtain ⟨⟨rfl, hcontent⟩, hending⟩ := h
      simp [units, hcontent, hending]
    · split <;> simp [units]

/-- The rows of a text make up the text. -/
theorem units_split (text : List CodeUnit) : (split text).flatMap units = text := by
  induction text with
  | nil => rfl
  | cons u text ih =>
    show (addUnit u (split text)).flatMap units = u :: text
    rw [units_addUnit, ih]

/-- No unit in front of the terminator ends a line. -/
def Unbroken (row : Row) : Prop := ∀ u ∈ row.content, u.isLineTerminator = false

theorem unbroken_addUnit (u : CodeUnit) {rows : List Row} (h : ∀ row ∈ rows, row.Unbroken) :
    ∀ row ∈ addUnit u rows, row.Unbroken := by
  have hempty (ending : List CodeUnit) : Unbroken ⟨[], ending⟩ := nofun
  cases rows with
  | nil =>
    rw [addUnit]
    split
    · simpa using hempty [u]
    · rename_i hu
      simpa [Unbroken] using hu
  | cons row rows =>
    obtain ⟨hrow, hrows⟩ := List.forall_mem_cons.mp h
    rw [addUnit]
    split
    · exact List.forall_mem_cons.mpr ⟨hempty _, hrows⟩
    · split
      · exact List.forall_mem_cons.mpr ⟨hempty _, h⟩
      · rename_i hu
        rw [Bool.not_eq_true] at hu
        exact List.forall_mem_cons.mpr ⟨List.forall_mem_cons.mpr ⟨hu, hrow⟩, hrows⟩

theorem unbroken_of_mem_split (text : List CodeUnit) : ∀ row ∈ split text, row.Unbroken := by
  induction text with
  | nil => nofun
  | cons u text ih => exact unbroken_addUnit u ih

end Row

/-! ## §2 Places -/

/-- The position behind the last unit of a line. -/
def Line.stop (line : Line) : Nat := line.start + line.units.size

theorem linesFrom_append (number start : Nat) (front back : List Row) :
    linesFrom number start (front ++ back) =
      linesFrom number start front ++
        linesFrom (number + front.length) (start + (front.flatMap Row.units).length) back := by
  induction front generalizing number start with
  | nil => rfl
  | cons row rows ih =>
    have hnumber : number + 1 + rows.length = number + (row :: rows).length := by
      rw [List.length_cons]; omega
    have hstart : start + row.content.length + row.ending.length +
        (rows.flatMap Row.units).length =
          start + ((row :: rows).flatMap Row.units).length := by
      rw [List.flatMap_cons, List.length_append, Row.units, List.length_append]; omega
    rw [List.cons_append, linesFrom, linesFrom, ih, List.cons_append, hnumber, hstart]

theorem length_linesFrom (number start : Nat) (rows : List Row) :
    (linesFrom number start rows).length = rows.length := by
  induction rows generalizing number start with
  | nil => rfl
  | cons row rows ih => exact congrArg (· + 1) (ih _ _)

/-- A line is the content of a row, behind all the rows in front of it. -/
theorem exists_rows_of_mem_linesFrom {number start : Nat} {rows : List Row} {line : Line}
    (h : line ∈ linesFrom number start rows) :
    ∃ front row back, rows = front ++ row :: back ∧
      line = ⟨number + front.length, start + (front.flatMap Row.units).length,
        row.content.toArray⟩ := by
  induction rows generalizing number start with
  | nil => cases h
  | cons row rows ih =>
    rcases List.mem_cons.mp h with rfl | h
    · exact ⟨[], row, rows, rfl, rfl⟩
    · obtain ⟨front, row', back, rfl, rfl⟩ := ih h
      refine ⟨row :: front, row', back, rfl, ?_⟩
      simp only [List.length_cons, List.flatMap_cons, List.length_append, Row.units,
        Line.mk.injEq, and_true]
      omega

theorem number_of_getElem?_linesFrom {number start k : Nat} {rows : List Row} {line : Line}
    (h : (linesFrom number start rows)[k]? = some line) : line.number = number + k := by
  induction rows generalizing number start k with
  | nil => cases h
  | cons row rows ih =>
    cases k with
    | zero =>
      cases h
      rfl
    | succ k => rw [ih h, Nat.add_right_comm, Nat.add_assoc]

/-- The lines of successive rows are numbered upwards from the given number. -/
theorem le_number_of_mem_linesFrom {number start : Nat} {rows : List Row} {line : Line}
    (h : line ∈ linesFrom number start rows) : number ≤ line.number := by
  obtain ⟨front, row, back, -, rfl⟩ := exists_rows_of_mem_linesFrom h
  exact Nat.le_add_right _ _

theorem pairwise_linesFrom (number start : Nat) (rows : List Row) :
    (linesFrom number start rows).Pairwise (·.number < ·.number) := by
  induction rows generalizing number start with
  | nil => exact .nil
  | cons row rows ih => exact .cons (fun _ h => le_number_of_mem_linesFrom h) (ih _ _)

/-- Lines lie behind where the first of them begins, and inside their rows. -/
theorem bounds_of_mem_linesFrom {number start : Nat} {rows : List Row} {line : Line}
    (h : line ∈ linesFrom number start rows) :
    start ≤ line.start ∧ line.stop ≤ start + (rows.flatMap Row.units).length := by
  obtain ⟨front, row, back, rfl, rfl⟩ := exists_rows_of_mem_linesFrom h
  simp only [Line.stop, List.size_toArray, List.flatMap_append, List.flatMap_cons, Row.units,
    List.length_append]
  omega

/-- Each line ends before the next one begins. -/
theorem pairwise_stop_linesFrom (number start : Nat) (rows : List Row) :
    (linesFrom number start rows).Pairwise fun line line' => line.stop ≤ line'.start := by
  induction rows generalizing number start with
  | nil => exact .nil
  | cons row rows ih =>
    refine .cons (fun line hline => ?_) (ih _ _)
    have := (bounds_of_mem_linesFrom hline).1
    simp only [Line.stop, List.size_toArray]
    omega

/-! ## §3 Lines -/

section Lines

variable {text : Text} {line : Line}

theorem stop_le_of_mem_lines (h : line ∈ lines text) : line.stop ≤ text.size := by
  have hbounds := (bounds_of_mem_linesFrom h).2
  rwa [Row.units_split, Array.length_toList, Nat.zero_add] at hbounds

/-- A line is the part of the text from its start to its stop. -/
theorem units_eq_extract_of_mem_lines (h : line ∈ lines text) :
    line.units = text.extract line.start line.stop := by
  obtain ⟨front, row, back, hrows, rfl⟩ := exists_rows_of_mem_linesFrom h
  have htext : text.toList =
      front.flatMap Row.units ++ (row.content ++ (row.ending ++ back.flatMap Row.units)) := by
    rw [← Row.units_split text.toList, hrows]
    simp [Row.units]
  rw [← Array.toList_inj, Array.toList_extract, htext]
  simp [Line.stop, List.extract_eq_take_drop]

/-- The units of a line are units of the text. -/
theorem mem_text_of_mem_line (hline : line ∈ lines text) {u : CodeUnit} (hu : u ∈ line.units) :
    u ∈ text := by
  rw [units_eq_extract_of_mem_lines hline] at hu
  obtain ⟨k, hk, rfl⟩ := Array.mem_extract_iff_getElem.mp hu
  exact Array.getElem_mem _

/-- No unit of a line ends a line. -/
theorem not_isLineTerminator_of_mem_line (hline : line ∈ lines text) {u : CodeUnit}
    (hu : u ∈ line.units) : u.isLineTerminator = false := by
  obtain ⟨front, row, back, hrows, rfl⟩ := exists_rows_of_mem_linesFrom hline
  have hrow : row ∈ Row.split text.toList := by simp [hrows]
  exact Row.unbroken_of_mem_split text.toList row hrow u (List.mem_toArray.mp hu)

/-- Lines are numbered in the order in which they stand in the text. -/
theorem number_of_getElem?_lines {k : Nat} (h : (lines text)[k]? = some line) :
    line.number = k :=
  (number_of_getElem?_linesFrom h).trans (Nat.zero_add k)

theorem getElem?_lines_number (h : line ∈ lines text) : (lines text)[line.number]? = some line := by
  obtain ⟨front, row, back, hrows, hline⟩ := exists_rows_of_mem_linesFrom h
  have hlength : (linesFrom 0 0 front).length = line.number := by
    rw [length_linesFrom, hline, Nat.zero_add]
  rw [lines, hrows, linesFrom_append, List.getElem?_append_right (Nat.le_of_eq hlength), hlength,
    Nat.sub_self, hline]
  rfl

end Lines

end LineRegex
