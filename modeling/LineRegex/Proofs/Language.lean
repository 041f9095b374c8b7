/-
LineRegex.Proofs.Language — the regular language of a tree without
backreferences, and that the matcher decides it.

`Expr.Spans text r i j` says that `r` matches the units of `text` from `i` up
to `j`. It is the textbook relation: nothing in it speaks of priorities, of
captures or of repetitions that consume nothing.

  §1 The relation   — `Repeats`, `Expr.Spans`.
  §2 Repetitions    — the matcher cuts repetitions that consumed nothing;
                      what is left still reaches every position.
  §3 Trees          — outcomes end exactly where the relation says.
-/
import LineRegex.Proofs.Backtracking
import LineRegex.Proofs.Everywhere

namespace LineRegex

/-! ## §1 The relation -/

/-- `Repeats R k i j`: `k` steps of `R` lead from `i` to `j`. -/
inductive Repeats (R : Nat → Nat → Prop) : Nat → Nat → Nat → Prop where
  | zero (i : Nat) : Repeats R 0 i i
  | succ {k i m j : Nat} (hstep : R i m) (hrest : Repeats R k m j) : Repeats R (k + 1) i j

/-- Whether a number of repetitions lies within the bounds. -/
def Bounds.Allows (b : Bounds) (k : Nat) : Prop := b.min ≤ k ∧ ∀ m, b.max = some m → k ≤ m

namespace Expr

mutual

/-- `Spans text r i j`: the tree matches the units of the text from `i` up to `j`. -/
def Spans (text : Text) : Regex → Nat → Nat → Prop
  | unit u, i, j => text[i]? = some u ∧ j = i + 1
  | charClass c, i, j => ∃ u, text[i]? = some u ∧ c.accepts u = true ∧ j = i + 1
  | any, i, j => ∃ u, text[i]? = some u ∧ u.isLineTerminator = false ∧ j = i + 1
  | anchor .lineStart, i, j => i = 0 ∧ j = i
  | anchor .lineEnd, i, j => i = text.size ∧ j = i
  | group _ body, i, j => Spans text body i j
  | backreference _, _, _ => False
  | concat items, i, j => SpansInTurn text items i j
  | alternation branches, i, j => SpansAny text branches i j
  | quantified body bounds, i, j => ∃ k, bounds.Allows k ∧ Repeats (Spans text body) k i j

/-- The trees match one after another. -/
def SpansInTurn (text : Text) : List Regex → Nat → Nat → Prop
  | [], i, j => i = j
  | r :: rs, i, j => ∃ m, Spans text r i m ∧ SpansInTurn text rs m j

/-- Some of the trees matches. -/
def SpansAny (text : Text) : List Regex → Nat → Nat → Prop
  | [], _, _ => False
  | r :: rs, i, j => Spans text r i j ∨ SpansAny text rs i j

end

/-- The tree is no backreference. -/
def NotBackreference : Regex → Prop
  | backreference _ => False
  | _ => True

/-- If the tree is quantified, its bounds are in order. -/
def OrderedBounds {ρ : Type} : Expr ρ → Prop
  | quantified _ bounds => ∀ m, bounds.max = some m → bounds.min ≤ m
  | _ => True

/-! ## §2 Repetitions -/

/-- `Reaches outcomes s j`: some outcome from `s` ends at `j`. -/
def Reaches (out : Endpoint → List Endpoint) (s : Endpoint) (j : Nat) : Prop :=
  ∃ t ∈ out s, t.cursor = j

section Repetitions

variable {text : Text} {body : Regex} {bounds : Bounds}

theorem isReached_iff {count : Nat} :
    bounds.isReached count = true ↔ ∃ m, bounds.max = some m ∧ m ≤ count := by
  simp [Bounds.isReached, Option.any_eq_true]

/-- What the matcher explores is a number of repetitions that is allowed. -/
theorem repeats_of_mem_repetitions
    (hbody : ∀ s j, Reaches (outcomes text body) s j → Spans text body s.cursor j)
    (hordered : ∀ m, bounds.max = some m → bounds.min ≤ m) (count : Nat) (s : Endpoint)
    (hcount : ∀ m, bounds.max = some m → count ≤ m) {t : Endpoint}
    (ht : t ∈ repetitions text (outcomes text body) bounds count s) :
    ∃ k, bounds.Allows (count + k) ∧ Repeats (Spans text body) k s.cursor t.cursor := by
  fun_induction repetitions text (outcomes text body) bounds count s with
  | case1 count s hreached =>
    obtain rfl : t = s := by simpa using ht
    obtain ⟨m, hm, hle⟩ := isReached_iff.mp hreached
    exact ⟨0, ⟨Nat.le_trans (hordered m hm) hle, hcount⟩, .zero _⟩
  | case2 count s hreached ih =>
    have hnext : ∀ m, bounds.max = some m → count + 1 ≤ m := fun m hm => by
      by_contra hlt
      exact hreached (isReached_iff.mpr ⟨m, hm, by omega⟩)
    rw [List.mem_append, List.mem_flatMap] at ht
    rcases ht with ⟨u, hu, ht⟩ | ht
    · have hstep : Spans text body s.cursor u.cursor := hbody s u.cursor ⟨u, hu, rfl⟩
      split at ht
      · rename_i hstop
        obtain rfl : t = u := by simpa using ht
        exact ⟨1, ⟨by omega, hnext⟩, .succ hstep (.zero _)⟩
      · rename_i hstop
        split at ht
        · rename_i hadv
          obtain ⟨k, hk, hrest⟩ := ih u hstop hadv hnext ht
          exact ⟨k + 1, by rwa [Nat.add_right_comm, Nat.add_assoc] at hk, .succ hstep hrest⟩
        · simp at ht
    · split at ht <;> simp at ht
      rename_i hmin
      subst ht
      exact ⟨0, ⟨hmin, hcount⟩, .zero _⟩

/-- The matcher reaches whatever an allowed number of repetitions reaches. A
repetition that consumed nothing beyond the minimum may be left out: what
follows it is reached from the same position with one repetition less. -/
theorem mem_repetitions_of_repeats
    (hbody : ∀ s j, Spans text body s.cursor j → Reaches (outcomes text body) s j)
    {k i j : Nat} (hrep : Repeats (Spans text body) k i j) (count : Nat) (s : Endpoint)
    (hs : s.cursor = i) (hallows : bounds.Allows (count + k)) :
    Reaches (repetitions text (outcomes text body) bounds count) s j := by
  obtain ⟨hmin, hmax⟩ := hallows
  induction hrep generalizing count s with
  | zero i =>
    refine ⟨s, ?_, hs⟩
    rw [repetitions_eq]
    split
    · simp
    · rw [if_pos (show bounds.min ≤ count from hmin)]
      simp
  | @succ k i m j hstep hrest ih =>
    have hreached : ¬ bounds.isReached count = true := fun h => by
      obtain ⟨n, hn, hle⟩ := isReached_iff.mp h
      have := hmax n hn
      omega
    obtain ⟨u, hu, hum⟩ := hbody s m (hs ▸ hstep)
    by_cases hstop : u.cursor = s.cursor ∧ bounds.min < count + 1
    · exact ih count s (by omega) (by omega) fun n hn => Nat.le_of_succ_le (hmax n hn)
    · obtain ⟨t, ht, htj⟩ := ih (count + 1) u hum (by omega) fun n hn => by
        have := hmax n hn; omega
      refine ⟨t, ?_, htj⟩
      rw [repetitions_eq, if_neg hreached]
      exact List.mem_append_left _ (List.mem_flatMap.mpr ⟨u, hu, by rwa [if_neg hstop]⟩)

end Repetitions

/-! ## §3 Trees -/

theorem reaches_oneUnit {text : Text} {accepts : CodeUnit → Bool} {s : Endpoint} {j : Nat} :
    Reaches (oneUnit text accepts) s j ↔
      ∃ u, text[s.cursor]? = some u ∧ accepts u = true ∧ j = s.cursor + 1 := by
  unfold Reaches oneUnit
  cases text[s.cursor]? with
  | none => simp
  | some u =>
    by_cases hu : accepts u
    · simp only [hu, if_true, List.mem_singleton, exists_eq_left, Option.some.injEq,
        exists_eq_left', true_and]
      exact eq_comm
    · simp [hu]

mutual

/-- The outcomes of a tree end exactly where the tree matches up to,
whatever the groups have captured before. -/
theorem reaches_outcomes_iff (text : Text) : ∀ {r : Regex}, Everywhere NotBackreference r →
    Everywhere OrderedBounds r → ∀ (s : Endpoint) (j : Nat),
      Reaches (outcomes text r) s j ↔ Spans text r s.cursor j
  | unit u, _, _, s, j => by
    rw [Spans, show outcomes text (unit u) = oneUnit text (· == u) from rfl, reaches_oneUnit]
    simp
  | charClass c, _, _, s, j => reaches_oneUnit
  | any, _, _, s, j => by
    rw [Spans, show outcomes text any = oneUnit text (!·.isLineTerminator) from rfl,
      reaches_oneUnit]
    simp
  | anchor .lineStart, _, _, s, j => by
    by_cases h : s.cursor = 0 <;> simp [Reaches, outcomes, Spans, h, eq_comm]
  | anchor .lineEnd, _, _, s, j => by
    by_cases h : s.cursor = text.size <;> simp [Reaches, outcomes, Spans, h, eq_comm]
  | group none body, hb, ho, s, j => reaches_outcomes_iff text hb.2 ho.2 s j
  | group (some g) body, hb, ho, s, j => by
    rw [Spans, ← reaches_outcomes_iff text hb.2 ho.2 s j]
    simp [Reaches, outcomes, Endpoint.capture]
  | backreference g, hb, _, _, _ => hb.elim
  | concat items, hb, ho, s, j => reaches_outcomesInTurn_iff text hb.2 ho.2 s j
  | alternation branches, hb, ho, s, j => reaches_outcomesOfAny_iff text hb.2 ho.2 s j
  | quantified body bounds, hb, ho, s, j => by
    have hbody := reaches_outcomes_iff text hb.2 ho.2
    have hordered : ∀ m, bounds.max = some m → bounds.min ≤ m := ho.1
    rw [Spans]
    constructor
    · rintro ⟨t, ht, rfl⟩
      obtain ⟨k, hk, hrep⟩ := repeats_of_mem_repetitions (fun s j => (hbody s j).mp) hordered 0 s
        (fun m _ => Nat.zero_le m) ht
      exact ⟨k, by rwa [Nat.zero_add] at hk, hrep⟩
    · rintro ⟨k, hk, hrep⟩
      exact mem_repetitions_of_repeats (fun s j => (hbody s j).mpr) hrep 0 s rfl
        (by rwa [Nat.zero_add])

theorem reaches_outcomesInTurn_iff (text : Text) : ∀ {rs : List Regex},
    EverywhereAll NotBackreference rs → EverywhereAll OrderedBounds rs →
    ∀ (s : Endpoint) (j : Nat),
      Reaches (outcomesInTurn text rs) s j ↔ SpansInTurn text rs s.cursor j
  | [], _, _, s, j => by simp [Reaches, outcomesInTurn, SpansInTurn]
  | r :: rs, hb, ho, s, j => by
    have hr := reaches_outcomes_iff text hb.1 ho.1 s
    have hrs := reaches_outcomesInTurn_iff text hb.2 ho.2
    rw [SpansInTurn]
    constructor
    · rintro ⟨t, ht, rfl⟩
      obtain ⟨u, hu, ht⟩ := List.mem_flatMap.mp ht
      exact ⟨u.cursor, (hr u.cursor).mp ⟨u, hu, rfl⟩, (hrs u t.cursor).mp ⟨t, ht, rfl⟩⟩
    · rintro ⟨m, hm, hj⟩
      obtain ⟨u, hu, rfl⟩ := (hr m).mpr hm
      obtain ⟨t, ht, rfl⟩ := (hrs u j).mpr hj
      exact ⟨t, List.mem_flatMap.mpr ⟨u, hu, ht⟩, rfl⟩

theorem reaches_outcomesOfAny_iff (text : Text) : ∀ {rs : List Regex},
    EverywhereAll NotBackreference rs → EverywhereAll OrderedBounds rs →
    ∀ (s : Endpoint) (j : Nat),
      Reaches (outcomesOfAny text rs) s j ↔ SpansAny text rs s.cursor j
  | [], _, _, s, j => by simp [Reaches, outcomesOfAny, SpansAny]
  | r :: rs, hb, ho, s, j => by
    rw [SpansAny, ← reaches_outcomes_iff text hb.1 ho.1 s j,
      ← reaches_outcomesOfAny_iff text hb.2 ho.2 s j]
    simp only [Reaches, outcomesOfAny, List.mem_append, or_and_right, exists_or]

end

end Expr

end LineRegex
