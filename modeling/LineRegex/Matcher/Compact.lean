/-
LineRegex.Matcher.Compact — the attempt with shared work and an undo log.

Copying work and captures for every alternative would be wasteful. Here all
work lives in one arena of linked cells, so alternatives share their tails;
captures are overwritten in place, and a log keeps what they replaced. An
alternative remembers only how long arena and log were: going back to it
cuts both off there and undoes what the log says.

  §1 States          — `Compact`, `Choice`.
  §2 Operations      — pushing work, recording captures, going back.
  §3 The machine     — `Compact.turn`.
  §4 Chains          — the work that a link stands for.
  §5 Representation  — `Represents`: a compact state and a stack of threads
                       that are the same now and after going back, over and
                       over.
  §6 Simulation      — turns keep the representation, so every sequence of
                       turns ends: `Compact.ending`.
-/
import LineRegex.Matcher.Thread

namespace LineRegex

/-! ## §1 States -/

/-- A cell of the arena: an item of work and the cell of the next one. -/
structure Cell where
  work : Work
  next : Option Nat

/-- An alternative to return to. -/
structure Choice where
  /-- The cell of its first item of work. -/
  next : Option Nat
  cursor : Nat
  /-- The length of the undo log when the alternative was left behind. -/
  undoSize : Nat
  /-- The number of cells at that time. -/
  cellCount : Nat

/-- An attempt at some point of its course. -/
structure Compact where
  cells : Array Cell
  /-- The cell of the first item of work. -/
  next : Option Nat
  cursor : Nat
  captures : Captures
  /-- Groups and the spans they had before they were overwritten, newest last. -/
  undo : Array (Nat × Option Span)
  /-- The alternatives, newest first. -/
  choices : List Choice

/-! ## §2 Operations -/

/-- Puts work in front of a linked list; the new cells and the new link. -/
def pushCells (cells : Array Cell) (next : Option Nat) : List Work → Array Cell × Option Nat
  | [] => (cells, next)
  | w :: ws =>
    let (cells, next) := pushCells cells next ws
    let place := cells.size
    (cells.push ⟨w, next⟩, some place)

/-- Undoes the newest changes until the log has `size` entries. -/
def rollback (size : Nat) (undo : Array (Nat × Option Span)) (captures : Captures) :
    Array (Nat × Option Span) × Captures :=
  if h : size < undo.size then
    let (group, s) := undo.back
    rollback size undo.pop (captures.record group s)
  else (undo, captures)
termination_by undo.size
decreasing_by simp only [Array.size_pop]; omega

namespace Compact

/-- Puts work in front of all that remains. -/
def push (c : Compact) (work : List Work) : Compact :=
  let (cells, next) := pushCells c.cells c.next work
  { c with cells, next }

/-- Sets the span of a group and logs the one it had. -/
def record (c : Compact) (group : Nat) (s : Span) : Compact :=
  let old := c.captures.span group
  { c with
    undo := c.undo.push (group, old)
    captures := c.captures.record group (some s) }

/-- Leaves an alternative behind that does `work` and then all that remains. -/
def fork (c : Compact) (work : List Work) : Compact :=
  let (cells, next) := pushCells c.cells c.next work
  { c with cells, choices := ⟨next, c.cursor, c.undo.size, cells.size⟩ :: c.choices }

/-- Goes back to the newest alternative. -/
def backtrack? (c : Compact) : Option Compact :=
  match c.choices with
  | [] => none
  | choice :: choices =>
    let (undo, captures) := rollback choice.undoSize c.undo c.captures
    some {
      cells := c.cells.shrink choice.cellCount
      next := choice.next
      cursor := choice.cursor
      captures, undo, choices }

/-- Leaves the alternative of an effect behind, if it has one. -/
def forked (c : Compact) (e : Effect) : Compact :=
  match e.fork with
  | none => c
  | some work => c.fork work

/-- Records the capture of an effect, if it has one. -/
def recorded (c : Compact) (e : Effect) : Compact :=
  match e.record with
  | none => c
  | some (group, s) => c.record group s

/-- The state after an effect. -/
def after (c : Compact) (e : Effect) : Compact :=
  { (c.forked e).recorded e with cursor := e.cursor }.push e.push

/-! ## §3 The machine -/

/-- The cell of the next item of work. -/
def cell? (c : Compact) : Option Cell := c.next.bind fun i => c.cells[i]?

/-- One turn: the next item takes effect, or fails and hands over to the
newest alternative. -/
def turn (line : Text) (c : Compact) : Turn Compact :=
  match c.cell? with
  | none => .rest ⟨c.cursor, c.captures⟩ c.backtrack?
  | some cell =>
    match cell.work.effect line c.cursor c.captures with
    | none => .work c.backtrack?
    | some e => .work (some ({ c with next := cell.next }.after e))

end Compact

/-! ## §4 Chains -/

/-- `Chain cells n next work`: following the links from `next` visits the
items of `work` in order, in cells below `n`, each link leading down. -/
inductive Chain (cells : Array Cell) : Nat → Option Nat → List Work → Prop where
  | nil (n : Nat) : Chain cells n none []
  | cons {n i : Nat} {w : Work} {next : Option Nat} {work : List Work} (hi : i < n)
      (hcell : cells[i]? = some ⟨w, next⟩) (h : Chain cells i next work) :
      Chain cells n (some i) (w :: work)

namespace Chain

/-- A chain below some bound is a chain below every larger one. -/
theorem mono {cells : Array Cell} {n m : Nat} {next : Option Nat} {work : List Work}
    (h : Chain cells n next work) (hm : n ≤ m) : Chain cells m next work := by
  cases h with
  | nil => exact .nil m
  | cons hi hcell h => exact .cons (Nat.lt_of_lt_of_le hi hm) hcell h

/-- A chain depends on the cells below its bound only. -/
theorem congr {cells cells' : Array Cell} {n : Nat} {next : Option Nat} {work : List Work}
    (h : Chain cells n next work) (heq : ∀ i, i < n → cells'[i]? = cells[i]?) :
    Chain cells' n next work := by
  induction h with
  | nil n => exact .nil n
  | cons hi hcell _ ih =>
    exact .cons hi ((heq _ hi).trans hcell) (ih fun j hj => heq j (Nat.lt_trans hj hi))

/-- New cells leave the old chains as they are. -/
theorem push {cells : Array Cell} {next : Option Nat} {work : List Work}
    (h : Chain cells cells.size next work) (c : Cell) :
    Chain (cells.push c) cells.size next work :=
  h.congr fun _ hi => by rw [Array.getElem?_push, if_neg (by omega)]

/-- Pushing work onto a chain gives the chain of the longer list. -/
theorem pushCells {cells : Array Cell} {next : Option Nat} {rest : List Work}
    (h : Chain cells cells.size next rest) (work : List Work) :
    Chain (pushCells cells next work).1 (pushCells cells next work).1.size
      (pushCells cells next work).2 (work ++ rest) := by
  induction work with
  | nil => exact h
  | cons w work ih =>
    simp only [LineRegex.pushCells]
    exact .cons (by simp) (by simp) (ih.push _)

end Chain

/-- Cutting off an arena above its old size undoes pushing cells. -/
theorem shrink_pushCells (cells : Array Cell) (next : Option Nat) (work : List Work) (n : Nat)
    (hn : n ≤ cells.size) : (pushCells cells next work).1.shrink n = cells.shrink n := by
  suffices ∀ n ≤ cells.size, n ≤ (pushCells cells next work).1.size ∧
      (pushCells cells next work).1.shrink n = cells.shrink n from (this n hn).2
  intro n hn
  induction work with
  | nil => exact ⟨hn, rfl⟩
  | cons w work ih =>
    simp only [pushCells, Array.size_push]
    refine ⟨Nat.le_succ_of_le ih.1, ?_⟩
    rw [← ih.2]
    simp only [Array.shrink_eq_take, Array.take_eq_extract, Array.extract_push]
    rw [if_pos ih.1]

theorem le_size_pushCells (cells : Array Cell) (next : Option Nat) (work : List Work) :
    cells.size ≤ (pushCells cells next work).1.size := by
  induction work with
  | nil => exact Nat.le_refl _
  | cons w work ih => simp only [pushCells, Array.size_push]; omega

theorem getElem?_pushCells (cells : Array Cell) (next : Option Nat) (work : List Work) (i : Nat)
    (hi : i < cells.size) : (pushCells cells next work).1[i]? = cells[i]? := by
  induction work with
  | nil => rfl
  | cons w work ih =>
    have := le_size_pushCells cells next work
    simp only [pushCells]
    rw [Array.getElem?_push, if_neg (by omega), ih]

/-! ## §5 Representation -/

/-- The work, cursor and captures of a compact state are those of the thread. -/
structure Compact.Runs (c : Compact) (t : Thread) : Prop where
  chain : Chain c.cells c.cells.size c.next t.work
  cursor : c.cursor = t.cursor
  captures : c.captures = t.captures

/-- The newest alternative lies within the present arena and log. -/
def Compact.Covers (c : Compact) (choice : Choice) : Prop :=
  choice.cellCount ≤ c.cells.size ∧ choice.undoSize ≤ c.undo.size

/-- The compact state runs the first thread, and going back leads to a
state that represents the other threads. -/
inductive Represents : Compact → ThreadStack → Prop where
  | last {c : Compact} {t : Thread} (hrun : c.Runs t) (hnone : c.choices = []) :
      Represents c ⟨t, []⟩
  | more {c c' : Compact} {choice : Choice} {choices : List Choice} {t t' : Thread}
      {pending : List Thread} (hrun : c.Runs t) (hsome : c.choices = choice :: choices)
      (hcovers : c.Covers choice) (hback : c.backtrack? = some c')
      (h : Represents c' ⟨t', pending⟩) : Represents c ⟨t, t' :: pending⟩

namespace Represents

theorem runs {c : Compact} {s : ThreadStack} (h : Represents c s) : c.Runs s.running := by
  cases h with
  | last hrun => exact hrun
  | more hrun => exact hrun

/-- What going back depends on: the alternatives, the cells and log entries
within the newest one's bounds, and what the captures were then. -/
theorem of_backtrack_eq {c d : Compact} {t u : Thread} {pending : List Thread}
    (h : Represents c ⟨t, pending⟩) (hrun : d.Runs u) (hchoices : d.choices = c.choices)
    (hback : ∀ choice choices, c.choices = choice :: choices → c.Covers choice →
      d.Covers choice ∧ d.backtrack? = c.backtrack?) : Represents d ⟨u, pending⟩ := by
  cases h with
  | last _ hnone => exact .last hrun (hchoices.trans hnone)
  | more _ hsome hcovers hc h =>
    obtain ⟨hd, heq⟩ := hback _ _ hsome hcovers
    exact .more hrun (hchoices.trans hsome) hd (heq.trans hc) h

/-- Taking the next item off the work. -/
theorem drop {c : Compact} {w : Work} {rest : List Work} {cursor i : Nat} {captures : Captures}
    {pending : List Thread} {next : Option Nat}
    (h : Represents c ⟨⟨w :: rest, cursor, captures⟩, pending⟩) (hi : c.next = some i)
    (hcell : c.cells[i]? = some ⟨w, next⟩) :
    Represents { c with next } ⟨⟨rest, cursor, captures⟩, pending⟩ := by
  refine h.of_backtrack_eq ⟨?_, h.runs.cursor, h.runs.captures⟩ rfl
    fun _ _ _ hcovers => ⟨hcovers, rfl⟩
  have hchain := h.runs.chain
  rw [hi] at hchain
  cases hchain with
  | cons hi' hcell' h' =>
    rw [hcell] at hcell'
    cases hcell'
    exact h'.mono (Nat.le_of_lt hi')

/-- Moving the cursor. -/
theorem move {c : Compact} {work : List Work} {cursor : Nat} {captures : Captures}
    {pending : List Thread} (h : Represents c ⟨⟨work, cursor, captures⟩, pending⟩)
    (cursor' : Nat) :
    Represents { c with cursor := cursor' } ⟨⟨work, cursor', captures⟩, pending⟩ :=
  h.of_backtrack_eq ⟨h.runs.chain, rfl, h.runs.captures⟩ rfl fun _ _ _ hcovers => ⟨hcovers, rfl⟩

/-- Pushing work. -/
theorem push {c : Compact} {rest : List Work} {cursor : Nat} {captures : Captures}
    {pending : List Thread} (h : Represents c ⟨⟨rest, cursor, captures⟩, pending⟩)
    (work : List Work) : Represents (c.push work) ⟨⟨work ++ rest, cursor, captures⟩, pending⟩ := by
  refine h.of_backtrack_eq ⟨h.runs.chain.pushCells work, h.runs.cursor, h.runs.captures⟩ rfl ?_
  intro choice choices hsome hcovers
  refine ⟨⟨Nat.le_trans hcovers.1 (le_size_pushCells _ _ _), hcovers.2⟩, ?_⟩
  simp only [Compact.backtrack?, Compact.push, hsome]
  rw [shrink_pushCells _ _ _ _ hcovers.1]

/-- Undoing a logged change restores the captures. -/
theorem rollback_push {size : Nat} {undo : Array (Nat × Option Span)} {captures : Captures}
    (hsize : size ≤ undo.size) (group : Nat) (s : Option Span) :
    rollback size (undo.push (group, captures.span group)) (captures.record group s) =
      rollback size undo captures := by
  conv => lhs; unfold rollback
  rw [dif_pos (by simp; omega)]
  simp [Array.back, Captures.record_span]

/-- Recording a capture. -/
theorem record {c : Compact} {work : List Work} {cursor : Nat} {captures : Captures}
    {pending : List Thread} (h : Represents c ⟨⟨work, cursor, captures⟩, pending⟩)
    (group : Nat) (s : Span) :
    Represents (c.record group s) ⟨⟨work, cursor, captures.record group (some s)⟩, pending⟩ := by
  have hcaptures : c.captures = captures := h.runs.captures
  refine h.of_backtrack_eq ⟨h.runs.chain, h.runs.cursor, by simp [Compact.record, hcaptures]⟩ rfl ?_
  intro choice choices hsome hcovers
  refine ⟨⟨hcovers.1, ?_⟩, ?_⟩
  · simp only [Compact.record, Array.size_push]
    exact Nat.le_succ_of_le hcovers.2
  · simp only [Compact.backtrack?, Compact.record, hsome]
    rw [rollback_push hcovers.2]

/-- Leaving an alternative behind. -/
theorem fork {c : Compact} {rest : List Work} {cursor : Nat} {captures : Captures}
    {pending : List Thread} (h : Represents c ⟨⟨rest, cursor, captures⟩, pending⟩)
    (work : List Work) :
    Represents (c.fork work)
      ⟨⟨rest, cursor, captures⟩, ⟨work ++ rest, cursor, captures⟩ :: pending⟩ := by
  have hpush := h.push work
  have hback : (c.fork work).backtrack? = some (c.push work) := by
    have : rollback c.undo.size c.undo c.captures = (c.undo, c.captures) := by
      unfold rollback; rw [dif_neg (Nat.lt_irrefl _)]
    simp [Compact.backtrack?, Compact.fork, Compact.push, this, Array.shrink_eq_take]
  refine .more ⟨?_, h.runs.cursor, h.runs.captures⟩ rfl ⟨Nat.le_refl _, Nat.le_refl _⟩ hback hpush
  exact (h.runs.chain.congr fun _ hi => getElem?_pushCells _ _ _ _ hi).mono
    (le_size_pushCells _ _ _)

/-- Leaving the alternative of an effect behind. -/
theorem forked {c : Compact} {t : Thread} {rest : List Work} {pending : List Thread}
    (h : Represents c ⟨⟨rest, t.cursor, t.captures⟩, pending⟩) (e : Effect) :
    Represents (c.forked e)
      ⟨⟨rest, t.cursor, t.captures⟩, (t.alternative? rest e).toList ++ pending⟩ := by
  unfold Compact.forked Thread.alternative?
  cases e.fork with
  | none => exact h
  | some work => exact h.fork work

/-- Recording the capture of an effect. -/
theorem recorded {c : Compact} {work : List Work} {cursor : Nat} {captures : Captures}
    {pending : List Thread} (h : Represents c ⟨⟨work, cursor, captures⟩, pending⟩) (e : Effect) :
    Represents (c.recorded e) ⟨⟨work, cursor, e.captured captures⟩, pending⟩ := by
  unfold Compact.recorded Effect.captured
  cases e.record with
  | none => exact h
  | some r => exact h.record r.1 r.2

/-- Taking an effect. -/
theorem after {c : Compact} {t : Thread} {rest : List Work} {pending : List Thread}
    (h : Represents c ⟨⟨rest, t.cursor, t.captures⟩, pending⟩) (e : Effect) :
    Represents (c.after e) (ThreadStack.after ⟨t, pending⟩ rest e) :=
  (((h.forked e).recorded e).move e.cursor).push e.push

/-- Going back on both sides. -/
theorem backtrack {c : Compact} {s : ThreadStack} (h : Represents c s) :
    c.backtrack? = none ∧ ThreadStack.resume? s.pending = none ∨
      ∃ c' s', c.backtrack? = some c' ∧ ThreadStack.resume? s.pending = some s' ∧
        Represents c' s' := by
  cases h with
  | last _ hnone => exact .inl ⟨by simp [Compact.backtrack?, hnone], rfl⟩
  | more _ _ _ hback h => exact .inr ⟨_, _, hback, rfl, h⟩

end Represents

/-! ## §6 Simulation -/

/-- Turns keep the representation. -/
theorem Compact.simulates (line : Text) :
    Simulates (Compact.turn line) (ThreadStack.turn line) Represents := by
  intro c s h
  obtain ⟨⟨work, cursor, captures⟩, pending⟩ := s
  obtain rfl : c.cursor = cursor := h.runs.cursor
  obtain rfl : c.captures = captures := h.runs.captures
  have hchain : Chain c.cells c.cells.size c.next work := h.runs.chain
  cases work with
  | nil =>
    have hcell : c.cell? = none := by
      unfold Compact.cell?
      generalize c.next = next at hchain
      cases hchain
      rfl
    simp only [Compact.turn, hcell, ThreadStack.turn]
    rcases h.backtrack with ⟨hc, hs⟩ | ⟨c', s', hc, hs, h'⟩
    · rw [hc, hs]; exact .restNone _
    · rw [hc, hs]; exact .restSome _ h'
  | cons w rest =>
    obtain ⟨i, next, hi, hcell⟩ : ∃ i next, c.next = some i ∧ c.cells[i]? = some ⟨w, next⟩ := by
      generalize c.next = n at hchain
      cases hchain with
      | cons _ hcell _ => exact ⟨_, _, rfl, hcell⟩
    have hcell' : c.cell? = some ⟨w, next⟩ := by simp [Compact.cell?, hi, hcell]
    simp only [Compact.turn, hcell', ThreadStack.turn]
    cases w.effect line c.cursor c.captures with
    | none =>
      rcases h.backtrack with ⟨hc, hs⟩ | ⟨c', s', hc, hs, h'⟩
      · simp only [hc, hs]; exact .workNone
      · simp only [hc, hs]; exact .workSome h'
    | some e => exact .workSome ((h.drop hi hcell).after e)

namespace Compact

/-- The state in which nothing but matching the tree remains. -/
def initial (r : Regex) (cursor : Nat) (captures : Captures) : Compact where
  cells := #[⟨.visit r, none⟩]
  next := some 0
  cursor := cursor
  captures := captures
  undo := #[]
  choices := []

/-- The initial state represents the one thread that matches the tree. -/
theorem represents_initial (r : Regex) (cursor : Nat) (captures : Captures) :
    Represents (initial r cursor captures) ⟨⟨[.visit r], cursor, captures⟩, []⟩ :=
  .last ⟨.cons (by simp [initial]) rfl (.nil 0), rfl, rfl⟩ rfl

/-- Every sequence of turns from an initial state ends. -/
theorem ending (line : Text) (r : Regex) (cursor : Nat) (captures : Captures) :
    Acc (Follows (turn line)) (initial r cursor captures) :=
  (simulates line).acc (ThreadStack.ending line _) (represents_initial r cursor captures)

end Compact

end LineRegex
