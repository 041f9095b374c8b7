/-
LineRegex.Proofs.Captures — captures lie inside their match.

Whatever a tree does to a state is to move the cursor on and to capture from
where it was up to where it is. So a property that these two keep is kept by
every outcome, and that all captures lie between the start and the cursor is
such a property; so is the number of slots.

  §1 Preservation  — what moving on and capturing keep, matching keeps.
  §2 Enclosure     — the captures lie between the start and the cursor.
  §3 Matches       — what this says about the match of an attempt.
-/
import LineRegex.Proofs.Recognition

namespace LineRegex

/-! ## §1 Preservation -/

/-- A property of states that holds on after the cursor has moved on, and after
a capture from where the cursor was in an earlier state. -/
structure KeptByMatching (text : Text) (P : Endpoint → Prop) : Prop where
  move : ∀ s cursor, P s → Advances text s.cursor cursor → P { s with cursor := cursor }
  capture : ∀ s t group, P s → P t → Advances text s.cursor t.cursor →
    P (t.capture group s.cursor)

section Preservation

variable {text : Text} {P : Endpoint → Prop}

theorem KeptByMatching.oneUnit (hP : KeptByMatching text P) {accepts : CodeUnit → Bool}
    {s : Endpoint} (hs : P s) : ∀ t ∈ oneUnit text accepts s, P t := by
  intro t ht
  have hadv := advances_of_mem_oneUnit ht
  unfold LineRegex.oneUnit at ht
  split at ht
  · simp at ht
  · split at ht <;> simp at ht
    subst ht
    exact hP.move s _ hs hadv

theorem KeptByMatching.sameUnits (hP : KeptByMatching text P) {captured : Text}
    {s : Endpoint} (hs : P s) : ∀ t ∈ sameUnits text captured s, P t := by
  intro t ht
  have hadv := advances_of_mem_sameUnits ht
  unfold LineRegex.sameUnits at ht
  split at ht <;> simp at ht
  subst ht
  exact hP.move s _ hs hadv

theorem repetitions_preserve {body : Endpoint → List Endpoint} {bounds : Bounds}
    (hbody : ∀ s, P s → ∀ t ∈ body s, P t) (count : Nat) (s : Endpoint) (hs : P s) :
    ∀ t ∈ repetitions text body bounds count s, P t := by
  fun_induction repetitions text body bounds count s with
  | case1 count s hreached =>
    intro t ht
    rw [List.mem_singleton.mp ht]
    exact hs
  | case2 count s hreached ih =>
    intro t ht
    rw [List.mem_append, List.mem_flatMap] at ht
    rcases ht with ⟨u, hu, ht⟩ | ht
    · have hu' : P u := hbody s hs u hu
      split at ht
      · rw [List.mem_singleton.mp ht]
        exact hu'
      · rename_i hstop
        split at ht
        · rename_i hadv
          exact ih u hstop hadv hu' t ht
        · simp at ht
    · split at ht <;> simp at ht
      rw [ht]
      exact hs

namespace Expr

mutual

/-- Every outcome has the property if the state it comes from has it. -/
theorem outcomes_preserve (hP : KeptByMatching text P) : ∀ (r : Regex) (s : Endpoint), P s →
    ∀ t ∈ outcomes text r s, P t
  | unit _, _, hs => hP.oneUnit hs
  | charClass _, _, hs => hP.oneUnit hs
  | any, _, hs => hP.oneUnit hs
  | anchor .lineStart, s, hs => by
    intro t ht
    simp only [outcomes] at ht
    split at ht <;> simp at ht
    exact ht ▸ hs
  | anchor .lineEnd, s, hs => by
    intro t ht
    simp only [outcomes] at ht
    split at ht <;> simp at ht
    exact ht ▸ hs
  | group none body, s, hs => outcomes_preserve hP body s hs
  | group (some g) body, s, hs => by
    intro t ht
    obtain ⟨u, hu, rfl⟩ := List.mem_map.mp ht
    have hadv := advances_of_mem_outcomes body s u hu
    exact hP.capture s u g hs (outcomes_preserve hP body s hs u hu) hadv
  | backreference g, s, hs => by
    intro t ht
    simp only [outcomes] at ht
    split at ht
    · simp at ht
    · exact hP.sameUnits hs t ht
  | concat items, s, hs => outcomesInTurn_preserve hP items s hs
  | alternation branches, s, hs => outcomesOfAny_preserve hP branches s hs
  | quantified body _, s, hs =>
    repetitions_preserve (fun s hs => outcomes_preserve hP body s hs) 0 s hs

theorem outcomesInTurn_preserve (hP : KeptByMatching text P) : ∀ (rs : List Regex) (s : Endpoint),
    P s → ∀ t ∈ outcomesInTurn text rs s, P t
  | [], s, hs => by
    intro t ht
    obtain rfl : t = s := by simpa [outcomesInTurn] using ht
    exact hs
  | r :: rs, s, hs => by
    intro t ht
    obtain ⟨u, hu, ht⟩ := List.mem_flatMap.mp ht
    exact outcomesInTurn_preserve hP rs u (outcomes_preserve hP r s hs u hu) t ht

theorem outcomesOfAny_preserve (hP : KeptByMatching text P) : ∀ (rs : List Regex) (s : Endpoint),
    P s → ∀ t ∈ outcomesOfAny text rs s, P t
  | [], s, _ => by simp [outcomesOfAny]
  | r :: rs, s, hs => by
    intro t ht
    rcases List.mem_append.mp ht with ht | ht
    · exact outcomes_preserve hP r s hs t ht
    · exact outcomesOfAny_preserve hP rs s hs t ht

end

end Expr

end Preservation

/-! ## §2 Enclosure -/

namespace Captures

theorem span_unset (groupCount group : Nat) : (unset groupCount).span group = none := by
  cases group with
  | zero => rfl
  | succ g =>
    simp only [unset, span]
    rw [Array.getElem?_replicate]
    split <;> rfl

theorem size_record (slots : Captures) (group : Nat) (s : Option Span) :
    (slots.record group s).size = slots.size := by
  cases group with
  | zero => rfl
  | succ g => exact Array.size_setIfInBounds

/-- Behind a record, a group has the span recorded or the one it had. -/
theorem span_record_cases {slots : Captures} {group g : Nat} {s : Option Span} {c : Span}
    (h : (slots.record group s).span g = some c) : s = some c ∨ slots.span g = some c := by
  cases group with
  | zero => exact .inr h
  | succ n =>
    cases g with
    | zero => cases h
    | succ g =>
      simp only [record, span] at h ⊢
      rw [Array.getElem?_setIfInBounds] at h
      split at h
      · split at h
        · exact .inl h
        · cases h
      · exact .inr h

end Captures

/-- The cursor is not left of the start, and the captures lie in between. -/
structure Endpoint.Encloses (s : Endpoint) (start : Nat) : Prop where
  start_le : start ≤ s.cursor
  captured : ∀ g c, s.captures.span g = some c →
    start ≤ c.start ∧ c.start ≤ c.stop ∧ c.stop ≤ s.cursor

theorem Advances.le {text : Text} {c d : Nat} (h : Advances text c d) : c ≤ d := by
  rcases h with rfl | ⟨hlt, -⟩
  · exact Nat.le_refl _
  · exact Nat.le_of_lt hlt

theorem keptByMatching_encloses (text : Text) (start : Nat) :
    KeptByMatching text (·.Encloses start) where
  move s cursor hs hadv := by
    refine ⟨Nat.le_trans hs.start_le hadv.le, fun g c hc => ?_⟩
    obtain ⟨hstart, hspan, hstop⟩ := hs.captured g c hc
    exact ⟨hstart, hspan, Nat.le_trans hstop hadv.le⟩
  capture s t group hs ht hadv := by
    refine ⟨ht.start_le, fun g c hc => ?_⟩
    rcases Captures.span_record_cases hc with heq | hold
    · obtain rfl := Option.some.inj heq
      exact ⟨hs.start_le, hadv.le, Nat.le_refl _⟩
    · exact ht.captured g c hold

/-- No capture adds a slot. -/
theorem keptByMatching_size (text : Text) (groupCount : Nat) :
    KeptByMatching text (·.captures.size = groupCount) where
  move _ _ hs _ := hs
  capture _ t group _ ht _ := (Captures.size_record t.captures group _).trans ht

/-! ## §3 Matches -/

namespace Pattern

variable {p : Pattern} {accepts : Endpoint → Bool} {budget : Nat} {text : Text} {start : Nat}
  {m : Match}

/-- A match covers a part of its line. -/
theorem stop_of_attempt (h : (p.attempt accepts budget text start).verdict = .matched m) :
    m.whole.start ≤ m.whole.stop ∧ m.whole.stop ≤ text.size := by
  have hstart := start_le_of_attempt h
  obtain ⟨e, he, -, rfl⟩ := exists_outcome_of_match hstart h
  have hadv : Advances text start e.cursor := Expr.advances_of_mem_outcomes _ _ e he
  show start ≤ e.cursor ∧ e.cursor ≤ text.size
  rcases hadv with heq | ⟨hlt, hle⟩
  · omega
  · exact ⟨hlt.le, hle⟩

/-- The captures of a match lie inside it. -/
theorem captures_of_attempt (h : (p.attempt accepts budget text start).verdict = .matched m) :
    ∀ g c, m.captures.span g = some c →
      m.whole.start ≤ c.start ∧ c.start ≤ c.stop ∧ c.stop ≤ m.whole.stop := by
  obtain ⟨e, he, -, rfl⟩ := exists_outcome_of_match (start_le_of_attempt h) h
  have hunset : Endpoint.Encloses ⟨start, Captures.unset p.groupCount⟩ start := by
    refine ⟨Nat.le_refl _, fun g c hc => ?_⟩
    rw [Captures.span_unset] at hc
    cases hc
  exact (Expr.outcomes_preserve (keptByMatching_encloses text start) _ _ hunset e he).captured

/-- A match has a slot for each capturing group of its pattern. -/
theorem size_captures_of_attempt
    (h : (p.attempt accepts budget text start).verdict = .matched m) :
    m.captures.size = p.groupCount := by
  obtain ⟨e, he, -, rfl⟩ := exists_outcome_of_match (start_le_of_attempt h) h
  have hunset : (Captures.unset p.groupCount).size = p.groupCount := Array.size_replicate
  exact Expr.outcomes_preserve (keptByMatching_size text p.groupCount) _ _ hunset e he

end Pattern

end LineRegex
