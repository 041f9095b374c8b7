/-
LineRegex.Proofs.WholeText — matching a whole text against matching at its start.

`fullMatch` is `matchAt` at the start of the text with one more condition on the
endpoint. Up to the first endpoint the two take the same turns. If that is at the
end of the text, they stop there with the same answer; if not, only `fullMatch`
goes on, with the alternatives left.

  §1 Courses   — a stricter acceptance follows a looser one up to its end.
  §2 Outcomes  — how budgets cut the two off.
  §3 Attempts
-/
import LineRegex.Proofs.Captures
import LineRegex.Proofs.Stopping

namespace LineRegex

/-! ## §1 Courses -/

section Courses

variable {σ : Type} {turn : σ → Turn σ} {strict loose : Endpoint → Bool} {s : σ} {n : Nat}
  {found : Option Endpoint}

theorem refuses_of_looser (hloose : ∀ e, strict e = true → loose e = true) {e : Endpoint}
    (he : loose e = false) : strict e = false :=
  Bool.eq_false_iff.mpr fun hstrict => by simp [hloose e hstrict] at he

/-- Where a stricter acceptance accepts what a looser one stops at, both stop there. -/
theorem Stops.of_looser (hloose : ∀ e, strict e = true → loose e = true)
    (h : Stops turn loose s n found) (hfound : ∀ e, found = some e → strict e = true) :
    Stops turn strict s n found := by
  induction h with
  | accepted h _ => exact .accepted h (hfound _ rfl)
  | refused h ha => exact .refused h (refuses_of_looser hloose ha)
  | retried h ha _ ih => exact .retried h (refuses_of_looser hloose ha) (ih hfound)
  | failed h => exact .failed h
  | worked h _ ih => exact .worked h (ih hfound)

/-- Behind a rest that is refused the course goes on with the alternative. -/
theorem Stops.of_rest {accepts : Endpoint → Bool} (h : Stops turn accepts s n found) {e : Endpoint}
    {t : σ} (hturn : turn s = .rest e (some t)) (ha : accepts e = false) :
    Stops turn accepts t n found := by
  cases h with
  | retried h' _ ht => rw [hturn] at h'; cases h'; exact ht
  | accepted h' ha' => rw [hturn] at h'; cases h'; rw [ha] at ha'; cases ha'
  | refused h' | failed h' | worked h' => rw [hturn] at h'; cases h'

/-- Work is counted, and the course goes on with what it leads to. -/
theorem Stops.of_work {accepts : Endpoint → Bool} (h : Stops turn accepts s n found)
    {next : Option σ} (hturn : turn s = .work next) :
    ∃ m, n = m + 1 ∧ ∀ t, next = some t → Stops turn accepts t m found := by
  cases h with
  | failed h' => rw [hturn] at h'; cases h'; exact ⟨0, rfl, nofun⟩
  | worked h' ht => rw [hturn] at h'; cases h'; exact ⟨_, rfl, fun _ htt => by cases htt; exact ht⟩
  | accepted h' | refused h' | retried h' => rw [hturn] at h'; cases h'

/-- The course up to where a looser acceptance stops is part of the stricter one. -/
theorem Stops.le_of_looser (hloose : ∀ e, strict e = true → loose e = true)
    (h : Stops turn loose s n found) {n' : Nat} {found' : Option Endpoint}
    (h' : Stops turn strict s n' found') : n ≤ n' := by
  induction h generalizing n' with
  | accepted | refused => exact Nat.zero_le _
  | retried h ha _ ih => exact ih (h'.of_rest h (refuses_of_looser hloose ha))
  | failed h =>
    obtain ⟨m, rfl, -⟩ := h'.of_work h
    exact Nat.le_add_left 1 m
  | worked h _ ih =>
    obtain ⟨m, rfl, ht⟩ := h'.of_work h
    exact Nat.succ_le_succ (ih (ht _ rfl))

end Courses

/-! ## §2 Outcomes -/

/-- Cutting off leaves as many steps as were allowed. -/
theorem Outcome.le_steps_within {α : Type} {o : Outcome α} {budget n : Nat} (hle : n ≤ o.steps)
    (hn : outruns budget n = false) : n ≤ (o.within budget).steps := by
  cases hb : outruns budget o.steps with
  | true =>
    have hlimited := (outruns_eq_true.mp hb).1
    have hn : n ≤ budget := (outruns_eq_false.mp hn).resolve_left (by omega)
    rw [within_of_outruns hb]
    exact Nat.le_succ_of_le hn
  | false => rwa [within_of_not_outruns hb]

/-! ## §3 Attempts -/

namespace Pattern

variable {p : Pattern} {text : Text} {n : Nat} {found : Option Endpoint}

theorem attemptStops_zero {accepts : Endpoint → Bool} :
    p.AttemptStops accepts text 0 n found ↔
      Stops (Compact.turn text) accepts (.initial p.root 0 (.unset p.groupCount)) n found := by
  simp [AttemptStops]

/-- What ends with the text is taken by both kinds of attempt alike. -/
theorem AttemptStops.wholeText (h : p.AttemptStops (fun _ => true) text 0 n found)
    (hend : ∀ e, found = some e → e.cursor = text.size) :
    p.AttemptStops (·.cursor == text.size) text 0 n found := by
  rw [attemptStops_zero] at *
  exact h.of_looser (fun _ _ => rfl) fun e he => beq_iff_eq.mpr (hend e he)

/-- Matching the whole text takes no fewer steps. -/
theorem AttemptStops.le_wholeText (h : p.AttemptStops (fun _ => true) text 0 n found) {n' : Nat}
    {found' : Option Endpoint} (h' : p.AttemptStops (·.cursor == text.size) text 0 n' found') :
    n ≤ n' := by
  rw [attemptStops_zero] at *
  exact h.le_of_looser (fun _ _ => rfl) h'

/-- `fullMatch` and `matchAt` agree on the common part of their search. Unless
`matchAt` finds a match that ends before the text does, `fullMatch` has the same
outcome: the same status, match and steps. If it does find such a match,
`fullMatch` takes at least as many steps, and whatever it finds is the whole text. -/
theorem fullMatch_agrees_with_matchAt (p : Pattern) (budget : Nat) (text : Text) :
    ((∀ m, (p.matchAt budget text 0).verdict = .matched m → m.whole.stop = text.size) →
      p.fullMatch budget text = p.matchAt budget text 0) ∧
    ∀ m, (p.matchAt budget text 0).verdict = .matched m → m.whole.stop ≠ text.size →
      m.whole.stop < text.size ∧
        (p.matchAt budget text 0).steps ≤ (p.fullMatch budget text).steps ∧
        ∀ m', (p.fullMatch budget text).verdict = .matched m' → m'.whole = ⟨0, text.size⟩ := by
  obtain ⟨n, found, h⟩ := p.exists_attemptStops (fun _ => true) text 0
  obtain ⟨n', found', h'⟩ := p.exists_attemptStops (·.cursor == text.size) text 0
  have hle : n ≤ n' := h.le_wholeText h'
  have hat : p.matchAt budget text 0 =
      Outcome.within budget ⟨.ofOption (found.map (p.matchTo text 0)), n⟩ := h.attempt_eq budget
  have hfull : p.fullMatch budget text =
      Outcome.within budget ⟨.ofOption (found'.map (p.matchTo text 0)), n'⟩ := h'.attempt_eq budget
  constructor
  · intro hend
    cases hn : outruns budget n with
    | true =>
      rw [hat, hfull, Outcome.within_of_outruns (outruns_mono hle hn),
        Outcome.within_of_outruns hn]
    | false =>
      rw [Outcome.within_of_not_outruns hn] at hat
      have hwhole : p.AttemptStops (·.cursor == text.size) text 0 n found := by
        refine h.wholeText fun e he => hend (p.matchTo text 0 e) ?_
        rw [hat, he]
        rfl
      rw [hat, fullMatch, hwhole.attempt_eq budget, Outcome.within_of_not_outruns hn]
  · intro m hm hshort
    have hn : outruns budget n = false := by
      refine Bool.eq_false_iff.mpr fun hn => ?_
      rw [hat, Outcome.within_of_outruns hn] at hm
      cases hm
    refine ⟨Nat.lt_of_le_of_ne (stop_of_attempt hm).2 hshort, ?_, fun m' hm' => ?_⟩
    · rw [hat, hfull, Outcome.within_of_not_outruns hn]
      exact Outcome.le_steps_within hle hn
    · exact whole_of_fullMatch hm'

/-- `(a)|ab` -/
def unitOrBoth : Pattern where
  root := .alternation [.group (some 1) (.unit 97), .concat [.unit 97, .unit 98]]
  groupCount := 1
  names := []

/-- On `a` both end with the text; on `ab` only `fullMatch` goes on to the second branch. -/
theorem fullMatch_agrees_unitOrBoth :
    parse .narrow "(a)|ab" = .ok unitOrBoth ∧
      unitOrBoth.matchAt 9 "a" 0 = ⟨.matched ⟨"a", 0, ⟨0, 1⟩, #[some ⟨0, 1⟩], []⟩, 4⟩ ∧
      unitOrBoth.fullMatch 9 "a" = unitOrBoth.matchAt 9 "a" 0 ∧
      unitOrBoth.matchAt 9 "ab" 0 = ⟨.matched ⟨"ab", 0, ⟨0, 1⟩, #[some ⟨0, 1⟩], []⟩, 4⟩ ∧
      4 ≤ (unitOrBoth.fullMatch 9 "ab").steps ∧
      ∃ m, (unitOrBoth.fullMatch 9 "ab").verdict = .matched m ∧ m.whole = ⟨0, 2⟩ := by
  have hparse : parse .narrow "(a)|ab" = .ok unitOrBoth := by cbv
  have hshort : unitOrBoth.matchAt 9 "a" 0 =
      ⟨.matched ⟨"a", 0, ⟨0, 1⟩, #[some ⟨0, 1⟩], []⟩, 4⟩ := by cbv
  have hboth : unitOrBoth.matchAt 9 "ab" 0 =
      ⟨.matched ⟨"ab", 0, ⟨0, 1⟩, #[some ⟨0, 1⟩], []⟩, 4⟩ := by cbv
  have hfull : ∃ m, (unitOrBoth.fullMatch 9 "ab").verdict = .matched m := ⟨_, by cbv⟩
  have hsame : unitOrBoth.fullMatch 9 "a" = unitOrBoth.matchAt 9 "a" 0 := by
    refine (unitOrBoth.fullMatch_agrees_with_matchAt 9 "a").1 fun m hm => ?_
    rw [hshort] at hm
    cases hm
    rfl
  obtain ⟨-, hsteps, hwhole⟩ :=
    (unitOrBoth.fullMatch_agrees_with_matchAt 9 "ab").2 _ (by rw [hboth]) (by decide)
  rw [hboth] at hsteps
  obtain ⟨m, hm⟩ := hfull
  exact ⟨hparse, hshort, hsame, hboth, hsteps, m, hm, hwhole m hm⟩

end Pattern

end LineRegex
