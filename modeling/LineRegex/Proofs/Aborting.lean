/-
LineRegex.Proofs.Aborting — what a search finds that stops at an exceeded budget.

A search that skips exceeded positions and one that stops at the first of them
make the same attempts up to that position. So the finds of the one fall into
those in front of every position it gives up, which are what the other finds,
and those behind some position given up.

  §1 Places    — the positions of a text, in the order of a scan.
  §2 Events    — the matches in front of the first position given up.
  §3 Lines     — the scan of a line, by induction on its events.
  §4 Texts     — the same on successive lines.
  §5 Searches  — both policies side by side.
-/
import LineRegex.Proofs.Leftmost

namespace LineRegex

/-! ## §1 Places -/

/-- A position of a line, where an attempt may begin. -/
structure Place where
  line : Line
  position : Nat

/-- A scan comes to the place `a` before it comes to `b`: on an earlier line, or
further left on the same one. -/
def Place.Before (a b : Place) : Prop :=
  a.line.number < b.line.number ∨ a.line = b.line ∧ a.position < b.position

theorem Place.Before.asymm {a b : Place} (h : a.Before b) : ¬b.Before a := by
  intro h'
  rcases h with hlt | ⟨heq, hlt⟩
  · rcases h' with hlt' | ⟨heq', -⟩
    · omega
    · exact Nat.lt_irrefl _ (heq' ▸ hlt)
  · rcases h' with hlt' | ⟨-, hlt'⟩
    · exact Nat.lt_irrefl _ (heq ▸ hlt')
    · omega

/-- Where a find starts. -/
def Find.place (f : Find) : Place := ⟨f.line, f.start⟩

/-- A scan that skips exceeded positions and comes upon the finds gives the place
up: the scan comes to it, as no find skips it, and the attempt there exceeds the
budget. -/
structure GivenUp (p : Pattern) (budget : Nat) (text : Text) (finds : List Find) (a : Place) :
    Prop where
  line_mem : a.line ∈ lines text
  position_le : a.position ≤ a.line.units.size
  not_skipped : ∀ f ∈ finds, ¬f.Skips a.line a.position
  exceeded : (p.matchAt budget a.line.units a.position).verdict = .exceeded

theorem givesUp_iff_exists_givenUp {p : Pattern} {budget : Nat} {text : Text}
    {finds : List Find} :
    GivesUp p budget text finds ↔ ∃ a, GivenUp p budget text finds a := by
  constructor
  · rintro ⟨line, hline, q, hq, hskips, hexceeded⟩
    exact ⟨⟨line, q⟩, hline, hq, hskips, hexceeded⟩
  · rintro ⟨a, hline, hq, hskips, hexceeded⟩
    exact ⟨a.line, hline, a.position, hq, hskips, hexceeded⟩

/-! ## §2 Events -/

namespace ScanEvent

/-- The matches in front of the first position given up. -/
def early (es : List ScanEvent) : List Match := (untilAbandoned es).filterMap match?

theorem early_nil : early [] = [] := rfl

theorem early_found (m : Match) (es : List ScanEvent) : early (found m :: es) = m :: early es := rfl

theorem early_abandoned (es : List ScanEvent) : early (abandoned :: es) = [] := rfl

theorem early_map (f : Match → Match) (es : List ScanEvent) :
    early (es.map (map f)) = (early es).map f := by
  rw [early, untilAbandoned_map, filterMap_match?_map, early]

/-- Behind a position given up nothing is early. -/
theorem early_append_of_any {es : List ScanEvent} (h : es.any isAbandoned = true)
    (es' : List ScanEvent) : early (es ++ es') = early es := by
  rw [early, untilAbandoned_append_of_any h, early]

theorem early_append_of_not_any {es : List ScanEvent} (h : es.any isAbandoned = false)
    (es' : List ScanEvent) : early (es ++ es') = es.filterMap match? ++ early es' := by
  rw [early, untilAbandoned_append_of_not_any h, List.filterMap_append, early]

/-- Up to the first position given up there is at most one. -/
theorem countP_untilAbandoned (es : List ScanEvent) :
    (untilAbandoned es).countP isAbandoned = if es.any isAbandoned then 1 else 0 := by
  induction es with
  | nil => rfl
  | cons e es ih =>
    cases e with
    | found m => simpa [untilAbandoned] using ih
    | abandoned => rfl

end ScanEvent

/-! ## §3 Lines -/

namespace Pattern

/-- The matches of a line fall into those in front of every position given up,
which come upon no such position, and those behind one. -/
theorem exists_late_lineMatches (p : Pattern) (budget : Nat) (line : Text) (cursor : Nat) :
    ∃ late, p.lineMatches budget line cursor =
        ScanEvent.early (p.lineEvents budget line cursor) ++ late ∧
      (∀ m ∈ ScanEvent.early (p.lineEvents budget line cursor),
        ∀ q, p.GivesUpAt budget line cursor q → m.whole.start < q) ∧
      ∀ m ∈ late, ∃ q, p.GivesUpAt budget line cursor q ∧ q < m.whole.start := by
  fun_induction lineEvents p budget line cursor with
  | case1 cursor hc =>
    refine ⟨[], ?_, by simp [ScanEvent.early_nil], by simp⟩
    rw [lineMatches_behind hc]
    rfl
  | case2 cursor hc m hm ih =>
    obtain ⟨late, hsplit, hbefore, hbehind⟩ := ih
    have hstart : m.whole.start = cursor := start_of_attempt hm
    have hlt := m.lt_nextCursor
    simp only [givesUpAt_matched (by omega) hm, ScanEvent.early_found]
    refine ⟨late, ?_, ?_, hbehind⟩
    · rw [lineMatches_matched (by omega) hm, hsplit]
      rfl
    · intro n hn q hq
      rcases List.mem_cons.mp hn with rfl | hn
      · exact Nat.lt_of_lt_of_le hlt hq.1
      · exact hbefore n hn q hq
  | case3 cursor hc hm ih =>
    simp only [givesUpAt_failed (by omega) hm, lineMatches_failed (by omega) hm]
    exact ih
  | case4 cursor hc hm ih =>
    refine ⟨p.lineMatches budget line cursor, rfl, by simp [ScanEvent.early_abandoned], ?_⟩
    intro m hm'
    rw [lineMatches_exceeded (by omega) hm] at hm'
    exact ⟨cursor, givesUpAt_exceeded (by omega) hm, (matchAt_of_mem_lineMatches hm').1⟩

/-! ## §4 Texts -/

/-- The finds on successive lines. -/
def findsOn (p : Pattern) (budget : Nat) (ls : List Line) : List Find :=
  ls.flatMap fun line => (p.lineMatches budget line.units 0).map (Find.mk line)

/-- A place on one of the lines at which the scan of that line gives up. -/
def GivesUpOn (p : Pattern) (budget : Nat) (ls : List Line) (a : Place) : Prop :=
  a.line ∈ ls ∧ p.GivesUpAt budget a.line.units 0 a.position

/-- The finds on successive lines fall into those in front of every place given
up, which are the early ones among the events, and those behind such a place. -/
theorem exists_early_late (p : Pattern) (o : FindOptions) (text : Text) {ls : List Line}
    (hls : ls.Pairwise (·.number < ·.number)) :
    ∃ early late, p.findsOn o.budget ls = early ++ late ∧
      ScanEvent.early (p.eventsFrom o text 0 ls) = early.map (·.located o.offsets text) ∧
      (∀ f ∈ early, ∀ a, p.GivesUpOn o.budget ls a → f.place.Before a) ∧
      ∀ f ∈ late, ∃ a, p.GivesUpOn o.budget ls a ∧ a.Before f.place := by
  induction ls with
  | nil => exact ⟨[], [], rfl, rfl, by simp, by simp⟩
  | cons line rest ih =>
    obtain ⟨hnumber, hrest⟩ := List.pairwise_cons.mp hls
    obtain ⟨lineLate, hsplit, hbefore, hbehind⟩ := p.exists_late_lineMatches o.budget line.units 0
    have hfinds : p.findsOn o.budget (line :: rest) =
        (p.lineMatches o.budget line.units 0).map (Find.mk line) ++ p.findsOn o.budget rest :=
      List.flatMap_cons
    rw [hfinds, eventsFrom]
    cases hany : (p.lineEvents o.budget line.units 0).any ScanEvent.isAbandoned with
    | true =>
      -- the scan gives up on this line: all later lines are behind that
      obtain ⟨q, hq⟩ := any_isAbandoned_lineEvents.mp hany
      refine ⟨(ScanEvent.early (p.lineEvents o.budget line.units 0)).map (Find.mk line),
        lineLate.map (Find.mk line) ++ p.findsOn o.budget rest, ?_, ?_, ?_, ?_⟩
      · rw [hsplit, List.map_append, List.append_assoc]
      · rw [ScanEvent.early_append_of_any (by rwa [ScanEvent.any_isAbandoned_map]),
          ScanEvent.early_map, List.map_map]
        rfl
      · intro f hf a ha
        obtain ⟨m, hm, rfl⟩ := List.mem_map.mp hf
        rcases List.mem_cons.mp ha.1 with hline | hline
        · exact .inr ⟨hline.symm, hbefore m hm a.position (hline ▸ ha.2)⟩
        · exact .inl (hnumber a.line hline)
      · intro f hf
        rcases List.mem_append.mp hf with hf | hf
        · obtain ⟨m, hm, rfl⟩ := List.mem_map.mp hf
          obtain ⟨q', hq', hlt⟩ := hbehind m hm
          exact ⟨⟨line, q'⟩, ⟨List.mem_cons_self, hq'⟩, .inr ⟨rfl, hlt⟩⟩
        · obtain ⟨line', hline', hf⟩ := List.mem_flatMap.mp hf
          obtain ⟨m, -, rfl⟩ := List.mem_map.mp hf
          exact ⟨⟨line, q⟩, ⟨List.mem_cons_self, hq⟩, .inl (hnumber line' hline')⟩
    | false =>
      have hnone : ∀ q, ¬p.GivesUpAt o.budget line.units 0 q := by
        intro q hq
        rw [any_isAbandoned_lineEvents.mpr ⟨q, hq⟩] at hany
        cases hany
      obtain ⟨early, late, hrestSplit, hearly, hrestBefore, hrestBehind⟩ := ih hrest
      refine ⟨(p.lineMatches o.budget line.units 0).map (Find.mk line) ++ early, late, ?_, ?_,
        ?_, ?_⟩
      · rw [hrestSplit, List.append_assoc]
      · rw [ScanEvent.early_append_of_not_any (by rwa [ScanEvent.any_isAbandoned_map]), hearly,
          List.map_append, List.map_map, lineMatches, List.map_filterMap, List.filterMap_map]
        exact congrArg (List.filterMap · _ ++ _) (funext fun e => e.match?_map _)
      · intro f hf a ha
        rcases List.mem_cons.mp ha.1 with hline | hline
        · exact absurd (hline ▸ ha.2) (hnone a.position)
        · rcases List.mem_append.mp hf with hf | hf
          · obtain ⟨m, -, rfl⟩ := List.mem_map.mp hf
            exact .inl (hnumber a.line hline)
          · exact hrestBefore f hf a ⟨hline, ha.2⟩
      · intro f hf
        obtain ⟨a, ha, hlt⟩ := hrestBehind f hf
        exact ⟨a, ⟨List.mem_cons_of_mem _ ha.1, ha.2⟩, hlt⟩

/-! ## §5 Searches -/

variable {p : Pattern} {budget : Nat} {text : Text}

theorem givenUp_iff_givesUpOn {a : Place} :
    GivenUp p budget text (p.finds budget text) a ↔ p.GivesUpOn budget (lines text) a := by
  constructor
  · rintro ⟨hline, hle, hskips, hexceeded⟩
    exact ⟨hline, (givesUpAt_iff_not_skips hline a.position).mpr ⟨hle, hskips, hexceeded⟩⟩
  · rintro ⟨hline, hgives⟩
    obtain ⟨hle, hskips, hexceeded⟩ := (givesUpAt_iff_not_skips hline a.position).mp hgives
    exact ⟨hline, hle, hskips, hexceeded⟩

/-- The finds fall into those in front of every place given up and those behind one. -/
theorem exists_early_late_finds (p : Pattern) (o : FindOptions) (text : Text) :
    ∃ early late, p.finds o.budget text = early ++ late ∧
      ScanEvent.early (p.events o text) = early.map (·.located o.offsets text) ∧
      (∀ f ∈ early, ∀ a, GivenUp p o.budget text (p.finds o.budget text) a → f.place.Before a) ∧
      ∀ f ∈ late, ∃ a, GivenUp p o.budget text (p.finds o.budget text) a ∧ a.Before f.place := by
  simp only [givenUp_iff_givesUpOn]
  exact p.exists_early_late o text (pairwise_linesFrom 0 0 _)

/-- What a search finds under a policy, from events that are the same under all. -/
theorem findAll_policy (p : Pattern) (policy : ExceededPolicy) (text : Text) (o : FindOptions) :
    p.findAll text { o with onExceeded := policy } =
      (if (p.events o text).any ScanEvent.isAbandoned then .budgetExceeded else .success,
        (policy.reached (p.events o text)).filterMap ScanEvent.match?) := by
  rw [findAll_eq_events, events_policy]

/-- A search that aborts finds exactly what a search that skips finds before the
first place it gives up: the leftmost matches fall into early ones, in front of
every place given up, and late ones, behind such a place, and aborting leaves
the early ones. Both report the same status, both find the same unless it is
that of an exceeded budget, and aborting gives up at most one place. -/
theorem abort_finds_before_givenUp (p : Pattern) (text : Text) (o : FindOptions) :
    let skipping := { o with onExceeded := .skipPosition }
    let aborting := { o with onExceeded := .abort }
    (∃ early late, Leftmost p o.budget text (early ++ late) ∧
      (p.findAll text skipping).2 = (early ++ late).map (·.located o.offsets text) ∧
      (p.findAll text aborting).2 = early.map (·.located o.offsets text) ∧
      (∀ f ∈ early, ∀ a, GivenUp p o.budget text (early ++ late) a → f.place.Before a) ∧
      ∀ f ∈ late, ∃ a, GivenUp p o.budget text (early ++ late) a ∧ a.Before f.place) ∧
    (p.findAll text aborting).2 <+: (p.findAll text skipping).2 ∧
    (p.findAll text aborting).1 = (p.findAll text skipping).1 ∧
    ((p.findAll text aborting).1 = .success →
      (p.findAll text aborting).2 = (p.findAll text skipping).2) ∧
    p.abandonedIn text aborting =
      if (p.findAll text aborting).1 = .budgetExceeded then 1 else 0 := by
  intro skipping aborting
  obtain ⟨early, late, hfinds, hearly, hbefore, hbehind⟩ := p.exists_early_late_finds o text
  have hskipping : (p.findAll text skipping).2 =
      (early ++ late).map (·.located o.offsets text) := by
    rw [p.findAll_policy .skipPosition text o, ← hfinds]
    exact p.filterMap_match?_events o text
  have haborting : (p.findAll text aborting).2 = early.map (·.located o.offsets text) := by
    rw [p.findAll_policy .abort text o, ← hearly]
    rfl
  have hstatus : (p.findAll text aborting).1 = (p.findAll text skipping).1 := by
    rw [p.findAll_policy .abort text o, p.findAll_policy .skipPosition text o]
  refine ⟨⟨early, late, hfinds ▸ p.leftmost_finds o.budget text, hskipping, haborting,
    hfinds ▸ hbefore, hfinds ▸ hbehind⟩, ?_, hstatus, ?_, ?_⟩
  · rw [hskipping, haborting, List.map_append]
    exact List.prefix_append _ _
  · intro hsuccess
    rw [p.findAll_policy .abort text o] at hsuccess
    have hlate : late = [] := by
      by_contra hne
      obtain ⟨f, hf⟩ := List.exists_mem_of_ne_nil late hne
      obtain ⟨a, ha, -⟩ := hbehind f hf
      have hgives := givesUp_iff_exists_givenUp.mpr ⟨a, ha⟩
      rw [if_pos ((p.any_isAbandoned_iff_givesUp o text).mpr hgives)] at hsuccess
      cases hsuccess
    rw [haborting, hskipping, hlate, List.append_nil]
  · rw [p.findAll_policy .abort text o, abandonedIn_eq_events, events_policy]
    refine (ScanEvent.countP_untilAbandoned (p.events o text)).trans ?_
    split <;> simp

/-- On `baac` seven steps do not suffice at the first `a`. Aborting there leaves
the empty match in front of it; skipping goes on to five more matches. -/
theorem abort_manyUnits :
    (manyUnits.findAll "baac\naa" { sevenSteps with onExceeded := .abort }).1 =
        .budgetExceeded ∧
      manyUnits.abandonedIn "baac\naa" { sevenSteps with onExceeded := .abort } = 1 ∧
      ∃ early late, Leftmost manyUnits 7 "baac\naa" (early ++ late) ∧
        (early.map fun f => (f.line.number, f.found.whole)) = [(0, ⟨0, 0⟩)] ∧
        late.length = 5 ∧
        ∀ f ∈ late, ∃ a, GivenUp manyUnits 7 "baac\naa" (early ++ late) a ∧
          a.Before f.place := by
  obtain ⟨⟨early, late, hleftmost, hskipping, haborting, -, hbehind⟩, -, -, -, hcount⟩ :=
    manyUnits.abort_finds_before_givenUp "baac\naa" sevenSteps
  have hexceeded : (manyUnits.findAll "baac\naa" { sevenSteps with onExceeded := .abort }).1 =
      .budgetExceeded := by cbv
  have hfound : ((manyUnits.findAll "baac\naa" { sevenSteps with onExceeded := .abort }).2.map
      fun m => (m.line, m.whole)) = [(0, ⟨0, 0⟩)] := by cbv
  have hlength : (manyUnits.findAll "baac\naa"
      { sevenSteps with onExceeded := .skipPosition }).2.length = 6 := by cbv
  rw [haborting, List.map_map] at hfound
  rw [hskipping, List.length_map, List.length_append] at hlength
  have hone : early.length = 1 := by
    simpa using congrArg List.length hfound
  rw [hcount, if_pos hexceeded]
  exact ⟨hexceeded, rfl, early, late, hleftmost, hfound, by omega, hbehind⟩

end Pattern

end LineRegex
