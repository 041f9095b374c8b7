/-
LineRegex.Proofs.Leftmost — a search finds the leftmost matches of every line.

Which matches a search that skips exceeded positions has to find can be said
without scanning: each is what an attempt at its own start hands out, they
come in order and do not overlap, and wherever they leave room no attempt
succeeds. At most one list meets this, and `findAll` yields it.

  §1 Finds       — matches with their lines; what they cover and skip.
  §2 Leftmost    — the conditions, and that at most one list meets them.
  §3 Lines       — the matches on a line, by induction on its events.
  §4 Searches    — the finds of the scan, and `findAll`.
-/
import Mathlib
import LineRegex.Proofs.Lines
import LineRegex.Proofs.Scanning

namespace LineRegex

/-! ## §1 Finds -/

/-- A line, and a match as an attempt on that line hands it out. -/
structure Find where
  line : Line
  found : Match

namespace Find

/-- The position on its line at which a find starts. -/
def start (f : Find) : Nat := f.found.whole.start

/-- The position on its line at which a find ends. -/
def stop (f : Find) : Nat := f.found.whole.stop

/-- The match as the caller sees it. -/
def located (mode : OffsetMode) (text : Text) (f : Find) : Match :=
  f.found.locate mode text f.line

/-- The position is the start of the find or lies inside it. -/
def Covers (f : Find) (line : Line) (q : Nat) : Prop :=
  f.line = line ∧ (q = f.start ∨ f.start ≤ q ∧ q < f.stop)

/-- The position lies inside the find, so that no attempt begins there. -/
def Skips (f : Find) (line : Line) (q : Nat) : Prop := f.line = line ∧ f.start < q ∧ q < f.stop

/-- The find `g` is on a later line, or on the same line further on: it
starts behind the start of `f`, and not before its end. -/
def Before (f g : Find) : Prop :=
  f.line.number < g.line.number ∨ f.line = g.line ∧ f.start < g.start ∧ f.stop ≤ g.start

theorem Before.trans {f g h : Find} (hfg : f.Before g) (hgh : g.Before h) : f.Before h := by
  rcases hfg with hlt | ⟨heq, hstart, hstop⟩
  · rcases hgh with hlt' | ⟨heq', -, -⟩
    · exact .inl (Nat.lt_trans hlt hlt')
    · exact .inl (heq' ▸ hlt)
  · rcases hgh with hlt' | ⟨heq', hstart', -⟩
    · exact .inl (heq ▸ hlt')
    · exact .inr ⟨heq.trans heq', Nat.lt_trans hstart hstart', by omega⟩

theorem Before.irrefl (f : Find) : ¬f.Before f := by
  rintro (hlt | ⟨-, hlt, -⟩)
  · exact Nat.lt_irrefl _ hlt
  · exact Nat.lt_irrefl _ hlt

instance : Trans Before Before Before := ⟨Before.trans⟩

instance : Std.Irrefl Before := ⟨Before.irrefl⟩

instance : Std.Antisymm Before :=
  ⟨fun f _ hfg hgf => absurd (hfg.trans hgf) (Before.irrefl f)⟩

end Find

/-! ## §2 Leftmost -/

/-- The finds are the leftmost matches on the lines of a text that do not
overlap. A start where the budget is exceeded counts as one without a match. -/
structure Leftmost (p : Pattern) (budget : Nat) (text : Text) (finds : List Find) : Prop where
  /-- A find is what an attempt on its line, at its own start, hands out. -/
  attempted : ∀ f ∈ finds, f.line ∈ lines text ∧
    (p.matchAt budget f.line.units f.start).verdict = .matched f.found
  /-- Each find comes before the next one. -/
  ordered : finds.IsChain Find.Before
  /-- No attempt succeeds at a position that is left free. -/
  complete : ∀ line ∈ lines text, ∀ q ≤ line.units.size, (∀ f ∈ finds, ¬f.Covers line q) →
    ∀ m, (p.matchAt budget line.units q).verdict ≠ .matched m

/-- An attempt exceeds its budget at some position that the finds do not skip. -/
def GivesUp (p : Pattern) (budget : Nat) (text : Text) (finds : List Find) : Prop :=
  ∃ line ∈ lines text, ∃ q ≤ line.units.size, (∀ f ∈ finds, ¬f.Skips line q) ∧
    (p.matchAt budget line.units q).verdict = .exceeded

namespace Leftmost

variable {p : Pattern} {budget : Nat} {text : Text} {finds finds' : List Find}

theorem pairwise (h : Leftmost p budget text finds) : finds.Pairwise Find.Before :=
  List.isChain_iff_pairwise.mp h.ordered

theorem before_or_before (h : Leftmost p budget text finds) {f g : Find} (hf : f ∈ finds)
    (hg : g ∈ finds) (hne : f ≠ g) : f.Before g ∨ g.Before f := by
  have hpairs : finds.Pairwise fun f g => f.Before g ∨ g.Before f := h.pairwise.imp .inl
  have : Std.Symm fun f g : Find => f.Before g ∨ g.Before f := ⟨fun _ _ => Or.symm⟩
  exact hpairs.forall hf hg hne

/-- A find starts on its line. -/
theorem start_le (h : Leftmost p budget text finds) {f : Find} (hf : f ∈ finds) :
    f.start ≤ f.line.units.size :=
  Pattern.start_le_of_attempt (h.attempted f hf).2

/-- The finds of one list are finds of the other, from the left: a start that
the other list has not can only lie inside a find further left, which by
induction belongs to both. -/
theorem mem_of_mem (h : Leftmost p budget text finds) (h' : Leftmost p budget text finds')
    {f : Find} (hf : f ∈ finds) : f ∈ finds' := by
  generalize hn : f.start = n
  induction n using Nat.strong_induction_on generalizing finds finds' f with
  | _ n ih =>
    obtain ⟨hline, hm⟩ := h.attempted f hf
    have hcovered : ∃ g ∈ finds', g.Covers f.line f.start := by
      by_contra hfree
      push Not at hfree
      exact h'.complete f.line hline f.start (h.start_le hf) hfree f.found hm
    obtain ⟨g, hg, hgline, hcovers⟩ := hcovered
    by_cases hstart : g.start = f.start
    · have hgm := (h'.attempted g hg).2
      rw [hgline, hstart, hm] at hgm
      have hgf : g = f := by
        cases g; cases f; cases hgm; cases hgline; rfl
      exact hgf ▸ hg
    · have hgmem : g ∈ finds := ih g.start (by omega) h' h hg rfl
      have hne : f ≠ g := fun hfg => hstart (congrArg Find.start hfg).symm
      rcases h.before_or_before hf hgmem hne with hlt | hlt
      · rcases hlt with hlt | ⟨-, hlt, -⟩
        · rw [hgline] at hlt; omega
        · omega
      · rcases hlt with hlt | ⟨-, -, hle⟩
        · rw [hgline] at hlt; omega
        · omega

/-- The conditions determine the finds. -/
theorem unique (h : Leftmost p budget text finds) (h' : Leftmost p budget text finds') :
    finds = finds' :=
  h.pairwise.eq_of_mem_iff h'.pairwise fun _ => ⟨h.mem_of_mem h', h'.mem_of_mem h⟩

end Leftmost

/-! ## §3 Lines -/

namespace Pattern

/-- The matches that the scan of a line finds from a position on. -/
def lineMatches (p : Pattern) (budget : Nat) (line : Text) (cursor : Nat) : List Match :=
  (p.lineEvents budget line cursor).filterMap ScanEvent.match?

section LineMatches

variable {p : Pattern} {budget : Nat} {line : Text} {cursor : Nat}

theorem lineMatches_behind (h : line.size < cursor) : p.lineMatches budget line cursor = [] := by
  rw [lineMatches, lineEvents_behind h]
  rfl

theorem lineMatches_matched (h : cursor ≤ line.size) {m : Match}
    (hm : (p.matchAt budget line cursor).verdict = .matched m) :
    p.lineMatches budget line cursor = m :: p.lineMatches budget line m.nextCursor := by
  rw [lineMatches, lineEvents_matched h hm]
  rfl

theorem lineMatches_failed (h : cursor ≤ line.size)
    (hm : (p.matchAt budget line cursor).verdict = .failed) :
    p.lineMatches budget line cursor = p.lineMatches budget line (cursor + 1) := by
  rw [lineMatches, lineEvents_failed h hm]
  rfl

theorem lineMatches_exceeded (h : cursor ≤ line.size)
    (hm : (p.matchAt budget line cursor).verdict = .exceeded) :
    p.lineMatches budget line cursor = p.lineMatches budget line (cursor + 1) := by
  rw [lineMatches, lineEvents_exceeded h hm]
  rfl

/-- Attempts with different verdicts are at different positions. -/
theorem ne_of_verdict_ne {q q' : Nat} {v v' : Verdict Match}
    (hq : (p.matchAt budget line q).verdict = v) (hq' : (p.matchAt budget line q').verdict = v')
    (hne : v ≠ v') : q ≠ q' := by
  rintro rfl
  exact hne (hq.symm.trans hq')

/-- Every match found is what an attempt at its own start hands out. -/
theorem matchAt_of_mem_lineMatches {m : Match} (h : m ∈ p.lineMatches budget line cursor) :
    cursor ≤ m.whole.start ∧ (p.matchAt budget line m.whole.start).verdict = .matched m := by
  fun_induction lineEvents p budget line cursor with
  | case1 cursor hc => rw [lineMatches_behind hc] at h; cases h
  | case2 cursor hc m' hm' ih =>
    rw [lineMatches_matched (by omega) hm'] at h
    have hstart : m'.whole.start = cursor := start_of_attempt hm'
    rcases List.mem_cons.mp h with rfl | h
    · rw [hstart]
      exact ⟨Nat.le_refl _, hm'⟩
    · have := m'.lt_nextCursor
      exact ⟨by have := (ih h).1; omega, (ih h).2⟩
  | case3 cursor hc hm' ih =>
    rw [lineMatches_failed (by omega) hm'] at h
    exact ⟨Nat.le_of_succ_le (ih h).1, (ih h).2⟩
  | case4 cursor hc hm' ih =>
    rw [lineMatches_exceeded (by omega) hm'] at h
    exact ⟨Nat.le_of_succ_le (ih h).1, (ih h).2⟩

/-- The matches of a line come one behind the other. -/
theorem pairwise_lineMatches :
    (p.lineMatches budget line cursor).Pairwise fun m n =>
      m.whole.start < n.whole.start ∧ m.whole.stop ≤ n.whole.start := by
  fun_induction lineEvents p budget line cursor with
  | case1 cursor hc => rw [lineMatches_behind hc]; exact .nil
  | case2 cursor hc m hm ih =>
    rw [lineMatches_matched (by omega) hm]
    refine .cons (fun n hn => ?_) ih
    have hstart := m.lt_nextCursor
    have hstop := m.stop_le_nextCursor
    have := (matchAt_of_mem_lineMatches hn).1
    omega
  | case3 cursor hc hm ih => rwa [lineMatches_failed (by omega) hm]
  | case4 cursor hc hm ih => rwa [lineMatches_exceeded (by omega) hm]

/-- Where an attempt succeeds, a match was found that starts there or runs
over the position. -/
theorem exists_mem_lineMatches {q : Nat} {m : Match} (hcursor : cursor ≤ q) (hq : q ≤ line.size)
    (h : (p.matchAt budget line q).verdict = .matched m) :
    ∃ n ∈ p.lineMatches budget line cursor,
      q = n.whole.start ∨ n.whole.start ≤ q ∧ q < n.whole.stop := by
  fun_induction lineEvents p budget line cursor with
  | case1 cursor hc => omega
  | case2 cursor hc n hn ih =>
    rw [lineMatches_matched (by omega) hn]
    have hstart : n.whole.start = cursor := start_of_attempt hn
    by_cases hnext : n.nextCursor ≤ q
    · obtain ⟨n', hn', hcovers⟩ := ih hnext
      exact ⟨n', List.mem_cons_of_mem _ hn', hcovers⟩
    · refine ⟨n, List.mem_cons_self, ?_⟩
      unfold Match.nextCursor at hnext
      split at hnext <;> omega
  | case3 cursor hc hn ih =>
    rw [lineMatches_failed (by omega) hn]
    have hne : q ≠ cursor := ne_of_verdict_ne h hn nofun
    exact ih (by omega)
  | case4 cursor hc hn ih =>
    rw [lineMatches_exceeded (by omega) hn]
    have hne : q ≠ cursor := ne_of_verdict_ne h hn nofun
    exact ih (by omega)

/-- The scan of a line from `cursor` on gives the position `q` up: it comes to
the position, which lies inside no match found, and the attempt there exceeds
its budget. -/
def GivesUpAt (p : Pattern) (budget : Nat) (line : Text) (cursor q : Nat) : Prop :=
  cursor ≤ q ∧ q ≤ line.size ∧
    (∀ m ∈ p.lineMatches budget line cursor, ¬(m.whole.start < q ∧ q < m.whole.stop)) ∧
    (p.matchAt budget line q).verdict = .exceeded

theorem givesUpAt_matched {q : Nat} (h : cursor ≤ line.size) {m : Match}
    (hm : (p.matchAt budget line cursor).verdict = .matched m) :
    p.GivesUpAt budget line cursor q ↔ p.GivesUpAt budget line m.nextCursor q := by
  unfold GivesUpAt
  rw [lineMatches_matched h hm]
  have hstart : m.whole.start = cursor := start_of_attempt hm
  have hlt := m.lt_nextCursor
  have hle := m.stop_le_nextCursor
  constructor
  · rintro ⟨hq, hqsize, hskips, hexceeded⟩
    have hne : q ≠ cursor := ne_of_verdict_ne hexceeded hm nofun
    have hnext : m.nextCursor ≤ q := by
      have := hskips m List.mem_cons_self
      unfold Match.nextCursor
      split <;> omega
    exact ⟨hnext, hqsize, fun n hn => hskips n (List.mem_cons_of_mem _ hn), hexceeded⟩
  · rintro ⟨hq, hqsize, hskips, hexceeded⟩
    refine ⟨by omega, hqsize, fun n hn => ?_, hexceeded⟩
    rcases List.mem_cons.mp hn with rfl | hn
    · omega
    · exact hskips n hn

theorem givesUpAt_failed {q : Nat} (h : cursor ≤ line.size)
    (hm : (p.matchAt budget line cursor).verdict = .failed) :
    p.GivesUpAt budget line cursor q ↔ p.GivesUpAt budget line (cursor + 1) q := by
  unfold GivesUpAt
  rw [lineMatches_failed h hm]
  constructor
  · rintro ⟨hq, hqsize, hskips, hexceeded⟩
    have hne : q ≠ cursor := ne_of_verdict_ne hexceeded hm nofun
    exact ⟨by omega, hqsize, hskips, hexceeded⟩
  · rintro ⟨hq, hrest⟩
    exact ⟨by omega, hrest⟩

theorem givesUpAt_exceeded (h : cursor ≤ line.size)
    (hm : (p.matchAt budget line cursor).verdict = .exceeded) :
    p.GivesUpAt budget line cursor cursor := by
  refine ⟨Nat.le_refl _, h, fun n hn => ?_, hm⟩
  rw [lineMatches_exceeded h hm] at hn
  have := (matchAt_of_mem_lineMatches hn).1
  omega

/-- A position was given up exactly if an attempt exceeds its budget at a
position that lies inside no match found. -/
theorem any_isAbandoned_lineEvents :
    (p.lineEvents budget line cursor).any ScanEvent.isAbandoned = true ↔
      ∃ q, p.GivesUpAt budget line cursor q := by
  fun_induction lineEvents p budget line cursor with
  | case1 cursor hc =>
    constructor
    · intro h; simp at h
    · rintro ⟨q, hq, hq', -⟩; omega
  | case2 cursor hc m hm ih =>
    rw [List.any_cons, ScanEvent.isAbandoned_found, Bool.false_or, ih]
    exact exists_congr fun q => (givesUpAt_matched (by omega) hm).symm
  | case3 cursor hc hm ih =>
    rw [ih]
    exact exists_congr fun q => (givesUpAt_failed (by omega) hm).symm
  | case4 cursor hc hm ih => exact iff_of_true rfl ⟨cursor, givesUpAt_exceeded (by omega) hm⟩

end LineMatches

/-! ## §4 Searches -/

/-- The finds of a scan that skips exceeded positions, line by line. -/
def finds (p : Pattern) (budget : Nat) (text : Text) : List Find :=
  (lines text).flatMap fun line => (p.lineMatches budget line.units 0).map (Find.mk line)

variable {p : Pattern} {budget : Nat} {text : Text}

theorem mem_finds {f : Find} :
    f ∈ p.finds budget text ↔
      f.line ∈ lines text ∧ f.found ∈ p.lineMatches budget f.line.units 0 := by
  rw [finds, List.mem_flatMap]
  constructor
  · rintro ⟨line, hline, hf⟩
    obtain ⟨m, hm, rfl⟩ := List.mem_map.mp hf
    exact ⟨hline, hm⟩
  · rintro ⟨hline, hm⟩
    exact ⟨f.line, hline, List.mem_map.mpr ⟨f.found, hm, rfl⟩⟩

theorem pairwise_finds : (p.finds budget text).Pairwise Find.Before := by
  rw [finds, List.pairwise_flatMap]
  constructor
  · intro line _
    rw [List.pairwise_map]
    exact pairwise_lineMatches.imp fun hmn => .inr ⟨rfl, hmn⟩
  · refine (pairwise_linesFrom 0 0 _).imp fun {line line'} hlt f hf g hg => ?_
    obtain ⟨m, -, rfl⟩ := List.mem_map.mp hf
    obtain ⟨n, -, rfl⟩ := List.mem_map.mp hg
    exact .inl hlt

/-- The finds of the scan are the leftmost matches. -/
theorem leftmost_finds (p : Pattern) (budget : Nat) (text : Text) :
    Leftmost p budget text (p.finds budget text) where
  attempted f hf :=
    ⟨(mem_finds.mp hf).1, (matchAt_of_mem_lineMatches (mem_finds.mp hf).2).2⟩
  ordered := List.isChain_iff_pairwise.mpr pairwise_finds
  complete line hline q hq hfree m hm := by
    obtain ⟨n, hn, hcovers⟩ := exists_mem_lineMatches (Nat.zero_le q) hq hm
    exact hfree ⟨line, n⟩ (mem_finds.mpr ⟨hline, hn⟩) ⟨rfl, hcovers⟩

/-- The matches among the events of a text are the finds, as the caller sees them. -/
theorem filterMap_match?_events (p : Pattern) (o : FindOptions) (text : Text) :
    (p.events o text).filterMap ScanEvent.match? =
      (p.finds o.budget text).map (·.located o.offsets text) := by
  rw [events_eq, finds, List.map_flatMap, List.filterMap_flatMap]
  refine List.flatMap_congr fun line _ => ?_
  rw [ScanEvent.filterMap_match?_map, lineMatches, List.map_map]
  rfl

/-- The scan of a line gives a position up if an attempt exceeds its budget
there and no find skips the position. -/
theorem givesUpAt_iff_not_skips {line : Line} (hline : line ∈ lines text) (q : Nat) :
    p.GivesUpAt budget line.units 0 q ↔
      q ≤ line.units.size ∧ (∀ f ∈ p.finds budget text, ¬f.Skips line q) ∧
        (p.matchAt budget line.units q).verdict = .exceeded := by
  constructor
  · rintro ⟨-, hq, hskips, hexceeded⟩
    refine ⟨hq, ?_, hexceeded⟩
    rintro ⟨_, m⟩ hf ⟨rfl, hinside⟩
    exact hskips m (mem_finds.mp hf).2 hinside
  · rintro ⟨hq, hskips, hexceeded⟩
    exact ⟨Nat.zero_le _, hq,
      fun m hm hinside => hskips ⟨line, m⟩ (mem_finds.mpr ⟨hline, hm⟩) ⟨rfl, hinside⟩, hexceeded⟩

/-- The scan gives a position up exactly if an attempt exceeds its budget at a
position that the finds do not skip. -/
theorem any_isAbandoned_iff_givesUp (p : Pattern) (o : FindOptions) (text : Text) :
    (p.events o text).any ScanEvent.isAbandoned = true ↔
      GivesUp p o.budget text (p.finds o.budget text) := by
  rw [any_isAbandoned_events, List.any_eq_true]
  refine exists_congr fun line => and_congr_right fun hline => ?_
  rw [any_isAbandoned_lineEvents]
  exact exists_congr fun q => givesUpAt_iff_not_skips hline q

/-- A search that skips exceeded positions yields exactly the leftmost matches
of every line, in order and without overlap, and its status says whether some
attempt exceeded the budget. No other answer meets these conditions. -/
theorem findAll_eq_iff_leftmost (p : Pattern) (text : Text) (o : FindOptions)
    (hskip : o.onExceeded = .skipPosition) (status : Status) (ms : List Match) :
    p.findAll text o = (status, ms) ↔
      ∃ finds, Leftmost p o.budget text finds ∧
        ms = finds.map (·.located o.offsets text) ∧
        (GivesUp p o.budget text finds ∧ status = .budgetExceeded ∨
          ¬GivesUp p o.budget text finds ∧ status = .success) := by
  have hfinds := p.leftmost_finds o.budget text
  have hgives := p.any_isAbandoned_iff_givesUp o text
  have hreached : o.onExceeded.reached (p.events o text) = p.events o text := by rw [hskip]; rfl
  rw [findAll_eq_events, hreached, filterMap_match?_events, Prod.mk.injEq]
  constructor
  · rintro ⟨rfl, rfl⟩
    refine ⟨_, hfinds, rfl, ?_⟩
    by_cases h : GivesUp p o.budget text (p.finds o.budget text)
    · exact .inl ⟨h, if_pos (hgives.mpr h)⟩
    · exact .inr ⟨h, if_neg (mt hgives.mp h)⟩
  · rintro ⟨finds', hleftmost, rfl, hstatus⟩
    obtain rfl := hleftmost.unique hfinds
    refine ⟨?_, rfl⟩
    rcases hstatus with ⟨h, rfl⟩ | ⟨h, rfl⟩
    · exact if_pos (hgives.mpr h)
    · exact if_neg (mt hgives.mp h)

/-- `a*` -/
def manyUnits : Pattern where
  root := .quantified (.unit 97) ⟨0, none⟩
  groupCount := 0
  names := []

/-- Seven steps for each attempt, and offsets from the beginning of the line. -/
def sevenSteps : FindOptions := { budget := 7, offsets := .lineRelative }

/-- On `baac` seven steps do not suffice for both of the `a`, so the first is
given up, and the second is found. -/
theorem findAll_manyUnits :
    sevenSteps.onExceeded = .skipPosition ∧
      ∃ finds, Leftmost manyUnits 7 "baac\naa" finds ∧
        (finds.map fun f => (f.line.number, f.found.whole)) =
          [(0, ⟨0, 0⟩), (0, ⟨2, 3⟩), (0, ⟨3, 3⟩), (0, ⟨4, 4⟩), (1, ⟨1, 2⟩), (1, ⟨2, 2⟩)] ∧
        GivesUp manyUnits 7 "baac\naa" finds := by
  obtain ⟨ms, hms, hlist⟩ :
      ∃ ms, manyUnits.findAll "baac\naa" sevenSteps = (.budgetExceeded, ms) ∧
        (ms.map fun m => (m.line, m.whole)) =
          [(0, ⟨0, 0⟩), (0, ⟨2, 3⟩), (0, ⟨3, 3⟩), (0, ⟨4, 4⟩), (1, ⟨1, 2⟩), (1, ⟨2, 2⟩)] :=
    ⟨_, by cbv, rfl⟩
  obtain ⟨finds, hleftmost, rfl, ⟨hgives, -⟩ | ⟨-, hstatus⟩⟩ :=
    (manyUnits.findAll_eq_iff_leftmost "baac\naa" sevenSteps rfl _ _).mp hms
  · rw [List.map_map] at hlist
    exact ⟨rfl, finds, hleftmost, hlist, hgives⟩
  · cases hstatus

end Pattern

end LineRegex
