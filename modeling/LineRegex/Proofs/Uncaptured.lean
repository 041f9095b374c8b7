/-
LineRegex.Proofs.Uncaptured — without backreferences, captures decide nothing.

A pattern and the same pattern with all its groups made non-capturing run the
same attempt, but not in lockstep: where a group closes, the capturing machine
spends a step on it and the other one has nothing to do. What is left of a
stack when its captures and the closings it has still to do are forgotten does
not change at such a turn, and is the stack of the other machine at every one.

  §1 Trees     — trees, patterns and matches without captures.
  §2 Effects   — work that reads no captures, and what it does without them.
  §3 Turns     — a turn is taken by both machines, or changes captures only.
  §4 Courses   — from the turns, by induction on the course of an attempt.
  §5 Attempts  — the same match, in no more steps.
  §6 Searches
-/
import LineRegex.Proofs.AllWork
import LineRegex.Proofs.Budgets
import LineRegex.Proofs.Concatenation
import LineRegex.Proofs.Language

namespace LineRegex

/-! ## §1 Trees -/

namespace Expr

variable {ρ : Type}

mutual

/-- The tree with every group made non-capturing. -/
def uncaptured : Expr ρ → Expr ρ
  | unit u => unit u
  | charClass c => charClass c
  | any => any
  | anchor a => anchor a
  | group _ body => group none (uncaptured body)
  | backreference r => backreference r
  | concat items => concat (uncapturedAll items)
  | alternation branches => alternation (uncapturedAll branches)
  | quantified body bounds => quantified (uncaptured body) bounds

/-- `uncaptured` for each tree of a list. -/
def uncapturedAll : List (Expr ρ) → List (Expr ρ)
  | [] => []
  | e :: es => uncaptured e :: uncapturedAll es

end

theorem uncapturedAll_eq_map (es : List (Expr ρ)) : uncapturedAll es = es.map uncaptured := by
  induction es with
  | nil => rfl
  | cons e es ih => exact congrArg (uncaptured e :: ·) ih

end Expr

/-- The pattern with every group made non-capturing, and so without any group. -/
def Pattern.uncaptured (p : Pattern) : Pattern where
  root := p.root.uncaptured
  groupCount := 0
  names := p.names

/-- The match with nothing captured. -/
def Match.uncaptured (m : Match) : Match := { m with captures := #[] }

theorem Match.nextCursor_uncaptured (m : Match) : m.uncaptured.nextCursor = m.nextCursor := rfl

/-! ## §2 Effects -/

/-- The trees that the item has still to match are without backreferences. -/
def Work.ReadsNoCapture : Work → Prop
  | visit r => r.Everywhere Expr.NotBackreference
  | close _ _ => True
  | iterate body _ _ => body.Everywhere Expr.NotBackreference
  | iterated body _ _ _ => body.Everywhere Expr.NotBackreference
  | branch first others => Expr.EverywhereAll Expr.NotBackreference (first :: others)

/-- The item without captures; nothing is left of the closing of a group. -/
def Work.uncaptured? : Work → Option Work
  | visit r => some (visit r.uncaptured)
  | close _ _ => none
  | iterate body bounds count => some (iterate body.uncaptured bounds count)
  | iterated body bounds count start => some (iterated body.uncaptured bounds count start)
  | branch first others => some (branch first.uncaptured (others.map Expr.uncaptured))

/-- The effect without captures. -/
def Effect.uncaptured (e : Effect) : Effect where
  cursor := e.cursor
  fork := e.fork.map (List.filterMap Work.uncaptured?)
  push := e.push.filterMap Work.uncaptured?

variable {text : Text}

/-- Work that reads no captures leads to work that reads none. -/
theorem Work.passedOn_readsNoCapture (text : Text) : PassedOn text ReadsNoCapture := by
  have heq : ReadsNoCapture = Work.Everywhere Expr.NotBackreference := by
    funext w
    cases w <;> rfl
  rw [heq]
  exact passedOn_everywhere text Expr.NotBackreference

theorem tryBranch_uncaptured (first : Regex) (others : List Regex) (cursor : Nat) :
    tryBranch first.uncaptured (others.map Expr.uncaptured) cursor =
      (tryBranch first others cursor).uncaptured := by
  cases others <;> rfl

namespace Work

/-- Matching a tree without captures has the effect without captures. -/
theorem visitEffect_uncaptured {r : Regex} (hr : r.Everywhere Expr.NotBackreference)
    (cursor : Nat) (captures captures' : Captures) :
    visitEffect text cursor captures' r.uncaptured =
      (visitEffect text cursor captures r).map Effect.uncaptured := by
  have hmove : ∀ c, Effect.uncaptured { cursor := c } = { cursor := c } := fun _ => rfl
  cases r with
  | unit u => exact (map_consumeIf hmove _ text cursor).symm
  | charClass c => exact (map_consumeIf hmove _ text cursor).symm
  | any => exact (map_consumeIf hmove _ text cursor).symm
  | anchor a => cases a <;> exact (map_proceedIf hmove _ cursor).symm
  | backreference g => exact hr.elim
  | group index body => cases index <;> rfl
  | concat items =>
    simp [Expr.uncaptured, visitEffect, Effect.uncaptured, Expr.uncapturedAll_eq_map, uncaptured?,
      List.filterMap_map, Function.comp_def]
  | alternation branches =>
    cases branches with
    | nil => rfl
    | cons first others =>
      simp only [Expr.uncaptured, Expr.uncapturedAll, visitEffect, Expr.uncapturedAll_eq_map,
        tryBranch_uncaptured]
      rfl
  | quantified body bounds => rfl

/-- What is left of an item without captures has the effect without captures. -/
theorem effect_uncaptured (text : Text) {w w' : Work} (hw : w.ReadsNoCapture)
    (hw' : w.uncaptured? = some w') (cursor : Nat) (captures captures' : Captures) :
    w'.effect text cursor captures' = (w.effect text cursor captures).map Effect.uncaptured := by
  cases w with
  | visit r => cases hw'; exact visitEffect_uncaptured hw cursor captures captures'
  | close group start => cases hw'
  | iterate body bounds count =>
    cases hw'
    simp only [effect, iterateEffect, Option.map_some]
    split
    · rfl
    · split <;> rfl
  | iterated body bounds count start =>
    cases hw'
    simp only [effect, iteratedEffect, Option.map_some]
    split <;> rfl
  | branch first others => cases hw'; exact congrArg some (tryBranch_uncaptured first others cursor)

end Work

/-! ## §3 Turns -/

/-- The endpoint with nothing captured. -/
def Endpoint.uncaptured (e : Endpoint) : Endpoint := { e with captures := #[] }

/-- The thread without captures. -/
def Thread.uncaptured (t : Thread) : Thread where
  work := t.work.filterMap Work.uncaptured?
  cursor := t.cursor
  captures := #[]

namespace ThreadStack

/-- The stack without captures. -/
def uncaptured (s : ThreadStack) : ThreadStack :=
  ⟨s.running.uncaptured, s.pending.map Thread.uncaptured⟩

/-- No thread of the stack reads what it captures. -/
def ReadsNoCapture (s : ThreadStack) : Prop :=
  ∀ t ∈ s.running :: s.pending, ∀ w ∈ t.work, w.ReadsNoCapture

theorem resume_uncaptured (pending : List Thread) :
    resume? (pending.map Thread.uncaptured) = (resume? pending).map uncaptured := by
  cases pending <;> rfl

theorem after_uncaptured (s : ThreadStack) (rest : List Work) (e : Effect) :
    s.uncaptured.after (rest.filterMap Work.uncaptured?) e.uncaptured =
      (s.after rest e).uncaptured := by
  obtain ⟨t, pending⟩ := s
  obtain ⟨cursor, record, fork, push⟩ := e
  cases fork <;>
    simp [after, uncaptured, Thread.after, Thread.alternative?, Thread.uncaptured,
      Effect.uncaptured, Effect.captured]

/-- No turn leads to work that reads captures. -/
theorem readsNoCapture_of_follows {s t : ThreadStack} (hs : s.ReadsNoCapture)
    (h : Follows (turn text) t s) : t.ReadsNoCapture :=
  allWork_of_follows (Work.passedOn_readsNoCapture text) hs h

end ThreadStack

/-- A turn closes a group, and then it changes captures only; or it is a turn
of the machine without captures as well. -/
theorem ThreadStack.turn_uncaptured {s : ThreadStack} (hs : s.ReadsNoCapture) :
    (∃ t, s.turn text = .work (some t) ∧ t.uncaptured = s.uncaptured) ∨
      s.uncaptured.turn text = (s.turn text).map uncaptured Endpoint.uncaptured := by
  obtain ⟨⟨work, cursor, captures⟩, pending⟩ := s
  cases work with
  | nil => exact .inr (congrArg (Turn.rest _) (resume_uncaptured pending))
  | cons w rest =>
    cases hleft : w.uncaptured? with
    | none =>
      cases w with
      | close group start =>
        have hrest : (Work.close group start :: rest).filterMap Work.uncaptured? =
            rest.filterMap Work.uncaptured? := List.filterMap_cons_none hleft
        exact .inl ⟨_, rfl, by simp [uncaptured, Thread.uncaptured, after, Thread.after,
          Thread.alternative?, hrest]⟩
      | visit | iterate | iterated | branch => cases hleft
    | some w' =>
      right
      have hw : w.ReadsNoCapture := hs _ (List.mem_cons_self ..) w (List.mem_cons_self ..)
      have heffect := Work.effect_uncaptured text hw hleft cursor captures #[]
      have hwork : (w :: rest).filterMap Work.uncaptured? =
          w' :: rest.filterMap Work.uncaptured? := List.filterMap_cons_some hleft
      simp only [turn, uncaptured, Thread.uncaptured, hwork, heffect]
      cases he : w.effect text cursor captures with
      | none => exact congrArg Turn.work (resume_uncaptured pending)
      | some e =>
        have hafter := after_uncaptured ⟨⟨w :: rest, cursor, captures⟩, pending⟩ rest e
        simp only [uncaptured, Thread.uncaptured, hwork] at hafter
        exact congrArg (fun t => Turn.work (some t)) hafter

/-! ## §4 Courses -/

/-- A machine that takes a turn of another one, or leaves it out where nothing
remains of it, stops after no more work and where the other one does. -/
theorem Stops.exists_of_forgetful {σ τ : Type} {turn : σ → Turn σ} {turn' : τ → Turn τ}
    {accepts : Endpoint → Bool} {f : σ → τ} {g : Endpoint → Endpoint} {Inv : σ → Prop}
    (hinv : ∀ s t, Inv s → Follows turn t s → Inv t)
    (hturn : ∀ s, Inv s →
      (∃ t, turn s = .work (some t) ∧ f t = f s) ∨ turn' (f s) = (turn s).map f g)
    (haccepts : ∀ e, accepts (g e) = accepts e) {s : σ} {n : Nat} {found : Option Endpoint}
    (h : Stops turn accepts s n found) (hs : Inv s) :
    ∃ n' ≤ n, Stops turn' accepts (f s) n' (found.map g) := by
  -- only work that goes on can be left out: rests and failures are turns of both machines
  have hboth : ∀ {s}, Inv s → (∀ t, turn s ≠ .work (some t)) → turn' (f s) = (turn s).map f g :=
    fun hs hne => (hturn _ hs).resolve_left fun ⟨t, ht, _⟩ => hne t ht
  induction h with
  | accepted h ha =>
    have hsame := hboth hs (by rw [h]; nofun)
    rw [h] at hsame
    exact ⟨0, Nat.le_refl 0, .accepted hsame ((haccepts _).trans ha)⟩
  | refused h ha =>
    have hsame := hboth hs (by rw [h]; nofun)
    rw [h] at hsame
    exact ⟨0, Nat.le_refl 0, .refused hsame ((haccepts _).trans ha)⟩
  | retried h ha _ ih =>
    have hsame := hboth hs (by rw [h]; nofun)
    rw [h] at hsame
    obtain ⟨n', hle, hstops⟩ := ih (hinv _ _ hs (by rw [Follows, h, Turn.next?]))
    exact ⟨n', hle, .retried hsame ((haccepts _).trans ha) hstops⟩
  | failed h =>
    have hsame := hboth hs (by rw [h]; nofun)
    rw [h] at hsame
    exact ⟨1, Nat.le_refl 1, .failed hsame⟩
  | worked h _ ih =>
    obtain ⟨n', hle, hstops⟩ := ih (hinv _ _ hs (by rw [Follows, h, Turn.next?]))
    rcases hturn _ hs with ⟨t, ht, hforgotten⟩ | hsame
    · rw [h] at ht
      cases ht
      exact ⟨n', Nat.le_succ_of_le hle, hforgotten ▸ hstops⟩
    · rw [h] at hsame
      exact ⟨n' + 1, Nat.succ_le_succ hle, .worked hsame hstops⟩

/-! ## §5 Attempts -/

namespace Pattern

variable {p : Pattern}

/-- Attempts with and without captures come to the same, the one without in no
more steps. -/
theorem exists_uncaptured_attempts (hp : p.root.Everywhere Expr.NotBackreference)
    {accepts : Endpoint → Bool} (haccepts : ∀ e : Endpoint, accepts e.uncaptured = accepts e)
    (text : Text) (start : Nat) :
    ∃ (m? : Option Match) (n n' : Nat), n' ≤ n ∧
      (∀ budget, p.attempt accepts budget text start =
        Outcome.within budget ⟨.ofOption m?, n⟩) ∧
      ∀ budget, p.uncaptured.attempt accepts budget text start =
        Outcome.within budget ⟨.ofOption (m?.map Match.uncaptured), n'⟩ := by
  rcases Nat.lt_or_ge text.size start with hstart | hstart
  · refine ⟨none, 0, 0, Nat.le_refl 0, fun budget => ?_, fun budget => ?_⟩ <;>
      rw [attempt, if_pos hstart, Outcome.within_of_not_outruns (outruns_zero budget)] <;> rfl
  · let s : ThreadStack := ⟨⟨[.visit p.root], start, .unset p.groupCount⟩, []⟩
    have hs : s.ReadsNoCapture := by
      simpa [s, ThreadStack.ReadsNoCapture, Work.ReadsNoCapture] using hp
    obtain ⟨n, found, h⟩ := Stops.exists_of_acc accepts (ThreadStack.ending text s)
    obtain ⟨n', hle, h'⟩ := h.exists_of_forgetful
      (fun _ _ hs hfollows => ThreadStack.readsNoCapture_of_follows hs hfollows)
      (fun _ hs => ThreadStack.turn_uncaptured hs) haccepts hs
    refine ⟨found.map (p.matchTo text start), n, n', hle, attempt_eq_of_stops hstart h, ?_⟩
    have hfound : (found.map (p.matchTo text start)).map Match.uncaptured =
        (found.map Endpoint.uncaptured).map (p.uncaptured.matchTo text start) := by
      cases found <;> rfl
    intro budget
    rw [hfound]
    exact attempt_eq_of_stops hstart h' budget

/-- Answers that a pair of budgets allows are the same but for the captures. -/
theorem attempt_uncaptured (hp : p.root.Everywhere Expr.NotBackreference)
    {accepts : Endpoint → Bool} (haccepts : ∀ e : Endpoint, accepts e.uncaptured = accepts e)
    {start budget budget' : Nat}
    (hne : (p.attempt accepts budget text start).verdict ≠ .exceeded)
    (hne' : (p.uncaptured.attempt accepts budget' text start).verdict ≠ .exceeded) :
    (p.uncaptured.attempt accepts budget' text start).verdict =
        (p.attempt accepts budget text start).verdict.map Match.uncaptured ∧
      (p.uncaptured.attempt accepts budget' text start).steps ≤
        (p.attempt accepts budget text start).steps := by
  obtain ⟨m?, n, n', hle, h, h'⟩ := exists_uncaptured_attempts hp haccepts text start
  rw [h] at hne ⊢
  rw [h'] at hne' ⊢
  rw [Outcome.within_eq_self hne, Outcome.within_eq_self hne']
  exact ⟨by cases m? <;> rfl, hle⟩

/-! ## §6 Searches -/

/-- What is found on a line where nothing is given up is the same but for the captures. -/
theorem lineEvents_uncaptured (hp : p.root.Everywhere Expr.NotBackreference) {budget budget' : Nat}
    {line : Text} {cursor : Nat}
    (h : (p.lineEvents budget line cursor).any ScanEvent.isAbandoned = false)
    (h' : (p.uncaptured.lineEvents budget' line cursor).any ScanEvent.isAbandoned = false) :
    p.uncaptured.lineEvents budget' line cursor =
      (p.lineEvents budget line cursor).map (.map Match.uncaptured) := by
  have hanswer : ∀ {q : Nat}, q ≤ line.size →
      (p.matchAt budget line q).verdict ≠ .exceeded →
      (p.uncaptured.lineEvents budget' line q).any ScanEvent.isAbandoned = false →
      (p.uncaptured.matchAt budget' line q).verdict =
        (p.matchAt budget line q).verdict.map Match.uncaptured := by
    intro q hq hne hnone
    refine (attempt_uncaptured hp (fun _ => rfl) hne fun hexceeded => ?_).1
    rw [lineEvents_exceeded hq hexceeded] at hnone
    cases hnone
  fun_induction lineEvents p budget line cursor with
  | case1 cursor hc => rw [lineEvents_behind hc]; rfl
  | case2 cursor hc m hm ih =>
    have hm' := hanswer (by omega) (by simp [hm]) h'
    rw [hm] at hm'
    rw [lineEvents_matched (by omega) hm', Match.nextCursor_uncaptured] at h' ⊢
    rw [ih (by simpa using h) (by simpa using h')]
    rfl
  | case3 cursor hc hm ih =>
    have hm' := hanswer (by omega) (by simp [hm]) h'
    rw [hm] at hm'
    rw [lineEvents_failed (by omega) hm'] at h' ⊢
    exact ih h h'
  | case4 cursor hc hm ih => simp at h

theorem locate_uncaptured (mode : OffsetMode) (line : Line) (m : Match) :
    m.uncaptured.locate mode text line = (m.locate mode text line).uncaptured := by
  cases mode <;> simp [Match.locate, Match.uncaptured]

theorem events_uncaptured (hp : p.root.Everywhere Expr.NotBackreference) {o : FindOptions}
    {budget : Nat} (h : (p.events o text).any ScanEvent.isAbandoned = false)
    (h' : (p.uncaptured.events { o with budget := budget } text).any ScanEvent.isAbandoned =
      false) :
    p.uncaptured.events { o with budget := budget } text =
      (p.events o text).map (.map Match.uncaptured) := by
  rw [any_isAbandoned_events, List.any_eq_false] at h h'
  rw [events_eq, events_eq, List.map_flatMap]
  refine List.flatMap_congr fun line hline => ?_
  rw [lineEvents_uncaptured hp (Bool.eq_false_iff.mpr (h line hline))
    (Bool.eq_false_iff.mpr (h' line hline)), List.map_map, List.map_map]
  refine List.map_congr_left fun e _ => ?_
  rw [Function.comp_apply, Function.comp_apply, ScanEvent.map_map, ScanEvent.map_map]
  exact congrArg (ScanEvent.map · e) (funext fun m => locate_uncaptured o.offsets line m)

/-- Without backreferences captures never influence what is matched. With every
group made non-capturing an attempt that keeps to its budget comes to the same
match but for the captures, or likewise to none, and never takes more steps; and
a search that succeeds finds the same matches but for the captures. -/
theorem captures_decide_nothing (p : Pattern) (hp : p.root.Everywhere Expr.NotBackreference)
    (text : Text) (budget budget' : Nat) :
    (∀ start, (p.matchAt budget text start).verdict ≠ .exceeded →
      (p.uncaptured.matchAt budget' text start).verdict ≠ .exceeded →
      (p.uncaptured.matchAt budget' text start).verdict =
          (p.matchAt budget text start).verdict.map Match.uncaptured ∧
        (p.uncaptured.matchAt budget' text start).steps ≤ (p.matchAt budget text start).steps) ∧
    ((p.fullMatch budget text).verdict ≠ .exceeded →
      (p.uncaptured.fullMatch budget' text).verdict ≠ .exceeded →
      (p.uncaptured.fullMatch budget' text).verdict =
          (p.fullMatch budget text).verdict.map Match.uncaptured ∧
        (p.uncaptured.fullMatch budget' text).steps ≤ (p.fullMatch budget text).steps) ∧
    ∀ o : FindOptions, (p.findAll text o).1 = .success →
      (p.uncaptured.findAll text { o with budget := budget' }).1 = .success →
      (p.uncaptured.findAll text { o with budget := budget' }).2 =
        (p.findAll text o).2.map Match.uncaptured := by
  refine ⟨fun start hne hne' => ?_, fun hne hne' => ?_, fun o h h' => ?_⟩
  · exact attempt_uncaptured hp (fun _ => rfl) hne hne'
  · exact attempt_uncaptured hp (fun _ => rfl) hne hne'
  · rw [status_findAll_eq_success_iff] at h h'
    simp only [findAll_eq_events]
    rw [events_uncaptured hp h h', ExceededPolicy.reached_map, ScanEvent.filterMap_match?_map]

/-- `(a|(b))*c`, whose second group is set in some repetitions only. -/
def lettersThenC : Pattern where
  root := .concat [
    .quantified (.group (some 1) (.alternation [.unit 97, .group (some 2) (.unit 98)])) ⟨0, none⟩,
    .unit 99]
  groupCount := 2
  names := []

/-- On `abc` a group is closed three times; the search goes over two lines. -/
theorem captures_decide_nothing_lettersThenC :
    parse .narrow "(a|(b))*c" = .ok lettersThenC ∧
      lettersThenC.root.Everywhere Expr.NotBackreference ∧
      lettersThenC.matchAt 100 "abc" 0 =
        ⟨.matched ⟨"abc", 0, ⟨0, 3⟩, #[some ⟨1, 2⟩, some ⟨1, 2⟩], []⟩, 26⟩ ∧
      (lettersThenC.uncaptured.matchAt 100 "abc" 0).verdict =
        .matched ⟨"abc", 0, ⟨0, 3⟩, #[], []⟩ ∧
      (lettersThenC.uncaptured.matchAt 100 "abc" 0).steps ≤ 26 ∧
      (lettersThenC.uncaptured.findAll "c\nabc" { budget := 100 }).2.map
          (fun m => (m.line, m.whole)) = [(0, ⟨0, 1⟩), (1, ⟨2, 5⟩)] := by
  have hparse : parse .narrow "(a|(b))*c" = .ok lettersThenC := by cbv
  have hp : lettersThenC.root.Everywhere Expr.NotBackreference := by
    simp [lettersThenC, Expr.Everywhere, Expr.EverywhereAll, Expr.NotBackreference]
  have hmatch : lettersThenC.matchAt 100 "abc" 0 =
      ⟨.matched ⟨"abc", 0, ⟨0, 3⟩, #[some ⟨1, 2⟩, some ⟨1, 2⟩], []⟩, 26⟩ := by cbv
  have hkeeps : (lettersThenC.uncaptured.matchAt 100 "abc" 0).verdict ≠ .exceeded := by
    cbv; simp
  have hsuccess : (lettersThenC.findAll "c\nabc" { budget := 100 }).1 = .success := by cbv
  have hsuccess' : (lettersThenC.uncaptured.findAll "c\nabc" { budget := 100 }).1 = .success := by
    cbv
  obtain ⟨hattempt, -, hsearch⟩ := lettersThenC.captures_decide_nothing hp "abc" 100 100
  obtain ⟨hverdict, hsteps⟩ := hattempt 0 (by simp [hmatch]) hkeeps
  rw [hmatch] at hverdict hsteps
  refine ⟨hparse, hp, hmatch, hverdict, hsteps, ?_⟩
  have hfound := (lettersThenC.captures_decide_nothing hp "c\nabc" 100 100).2.2
    { budget := 100 } hsuccess hsuccess'
  rw [hfound]
  cbv

end Pattern

end LineRegex
