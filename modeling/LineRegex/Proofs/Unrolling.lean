/-
LineRegex.Proofs.Unrolling — counted repetition is its unrolling.

`b{m,n}` is `m` times `b` and then `b{0,n-m}`. On the side of the outcomes there
are two reasons for it: below the minimum there is no choice and no test for
repetitions that consumed nothing, so every repetition is one more item of a
sequence; and from the minimum on only the distances to the minimum and to the
maximum count. Equal outcomes may then be exchanged wherever a tree occurs.

  §1 Contexts     — a tree with one place left open.
  §2 Repetitions  — below the minimum, and from the minimum on.
  §3 Unrolling    — the outcomes of a quantified tree.
  §4 Attempts     — with a tree and with its unrolling.
-/
import LineRegex.Proofs.Backtracking

namespace LineRegex

/-! ## §1 Contexts -/

/-- A tree with one place left open. -/
inductive Expr.Context (ρ : Type) where
  | hole
  | group (index : Option Nat) (inside : Context ρ)
  | concat (before : List (Expr ρ)) (inside : Context ρ) (behind : List (Expr ρ))
  | alternation (before : List (Expr ρ)) (inside : Context ρ) (behind : List (Expr ρ))
  | quantified (inside : Context ρ) (bounds : Bounds)

/-- The tree with `r` at the open place. -/
def Expr.Context.fill {ρ : Type} : Expr.Context ρ → Expr ρ → Expr ρ
  | hole, r => r
  | group index inside, r => .group index (inside.fill r)
  | concat before inside behind, r => .concat (before ++ inside.fill r :: behind)
  | alternation before inside behind, r => .alternation (before ++ inside.fill r :: behind)
  | quantified inside bounds, r => .quantified (inside.fill r) bounds

namespace Expr

variable {text : Text}

theorem outcomesInTurn_append (rs rs' : List Regex) (s : Endpoint) :
    outcomesInTurn text (rs ++ rs') s =
      (outcomesInTurn text rs s).flatMap (outcomesInTurn text rs') := by
  rw [← workOutcomes_visit, List.map_append, workOutcomes_append, workOutcomes_visit]
  exact List.flatMap_congr fun t _ => workOutcomes_visit text rs' t

theorem outcomesOfAny_append (rs rs' : List Regex) (s : Endpoint) :
    outcomesOfAny text (rs ++ rs') s = outcomesOfAny text rs s ++ outcomesOfAny text rs' s := by
  induction rs with
  | nil => rfl
  | cons r rs ih => simp only [List.cons_append, outcomesOfAny, ih, List.append_assoc]

/-- Trees with the same outcomes may stand for each other wherever they occur. -/
theorem outcomes_fill_congr {r r' : Regex} (h : r.outcomes text = r'.outcomes text)
    (c : Context Nat) : (c.fill r).outcomes text = (c.fill r').outcomes text := by
  induction c with
  | hole => exact h
  | group index inside ih =>
    funext s
    cases index <;> simp only [Context.fill, outcomes, ih]
  | concat before inside behind ih =>
    funext s
    simp only [Context.fill, outcomes, outcomesInTurn_append]
    refine List.flatMap_congr fun t _ => ?_
    simp only [outcomesInTurn, ih]
  | alternation before inside behind ih =>
    funext s
    simp only [Context.fill, outcomes, outcomesOfAny_append, outcomesOfAny, ih]
  | quantified inside bounds ih =>
    funext s
    simp only [Context.fill, outcomes, ih]

end Expr

/-! ## §2 Repetitions -/

/-- The bounds on what remains after the least number of repetitions. -/
def Bounds.beyondMin (b : Bounds) : Bounds := ⟨0, b.max.map (· - b.min)⟩

namespace Bounds

theorem isReached_beyondMin (b : Bounds) (count : Nat) :
    b.beyondMin.isReached count = b.isReached (b.min + count) := by
  obtain ⟨min, max⟩ := b
  cases max with
  | none => rfl
  | some n => simp only [beyondMin, isReached, Option.map_some, Option.any_some,
      Nat.sub_le_iff_le_add']

/-- No number below the least one is the greatest. -/
theorem isReached_eq_false {b : Bounds} (hordered : ∀ n, b.max = some n → b.min ≤ n) {count : Nat}
    (hcount : count < b.min) : b.isReached count = false := by
  cases hmax : b.max with
  | none => simp [isReached, hmax]
  | some n =>
    have hn : b.min ≤ n := hordered n hmax
    simp only [isReached, hmax, Option.any_some, decide_eq_false_iff_not]
    omega

end Bounds

/-- From the minimum on, repetitions depend on the distance to the bounds only. -/
theorem repetitions_beyondMin (text : Text) (body : Endpoint → List Endpoint) (bounds : Bounds)
    (count : Nat) (s : Endpoint) :
    repetitions text body bounds.beyondMin count s =
      repetitions text body bounds (bounds.min + count) s := by
  fun_induction repetitions text body bounds.beyondMin count s with
  | case1 count s hreached =>
    rw [Bounds.isReached_beyondMin] at hreached
    rw [repetitions, if_pos hreached]
  | case2 count s hreached ih =>
    rw [Bounds.isReached_beyondMin] at hreached
    rw [repetitions, if_neg hreached]
    have hmin : bounds.beyondMin.min < count + 1 := Nat.succ_pos count
    have hmin' : bounds.min < bounds.min + count + 1 := by omega
    have hleave : bounds.beyondMin.min ≤ count := Nat.zero_le count
    rw [if_pos hleave, if_pos (Nat.le_add_right bounds.min count)]
    congr 1
    refine List.flatMap_congr fun t _ => ?_
    by_cases hstop : t.cursor = s.cursor
    · rw [dif_pos ⟨hstop, hmin⟩, dif_pos ⟨hstop, hmin'⟩]
    · have hstay : ¬(t.cursor = s.cursor ∧ bounds.beyondMin.min < count + 1) := fun h => hstop h.1
      have hstay' : ¬(t.cursor = s.cursor ∧ bounds.min < bounds.min + count + 1) :=
        fun h => hstop h.1
      rw [dif_neg hstay, dif_neg hstay']
      by_cases hadv : Advances text s.cursor t.cursor
      · rw [dif_pos hadv, dif_pos hadv]
        exact ih t hstay hadv
      · rw [dif_neg hadv, dif_neg hadv]

namespace Expr

variable {text : Text}

/-- Below the minimum a repetition is an item of a sequence: nothing is offered
as an alternative to it, and one that consumed nothing counts as any other. -/
theorem repetitions_of_lt_min (body : Regex) {bounds : Bounds}
    (hordered : ∀ n, bounds.max = some n → bounds.min ≤ n) {count : Nat}
    (hcount : count < bounds.min) (s : Endpoint) :
    repetitions text (body.outcomes text) bounds count s =
      (body.outcomes text s).flatMap
        (repetitions text (body.outcomes text) bounds (count + 1)) := by
  rw [repetitions_eq, Bounds.isReached_eq_false hordered hcount, if_neg Bool.false_ne_true,
    if_neg (show ¬bounds.min ≤ count by omega), List.append_nil]
  refine List.flatMap_congr fun t _ => if_neg ?_
  rintro ⟨-, hlt⟩
  omega

/-! ## §3 Unrolling -/

/-- The last `k` repetitions of the minimum written out, with the rest behind them. -/
theorem outcomesInTurn_replicate (body : Regex) {bounds : Bounds}
    (hordered : ∀ n, bounds.max = some n → bounds.min ≤ n) {k : Nat} (hk : k ≤ bounds.min)
    (s : Endpoint) :
    outcomesInTurn text (List.replicate k body ++ [.quantified body bounds.beyondMin]) s =
      repetitions text (body.outcomes text) bounds (bounds.min - k) s := by
  -- by induction on what is still written out: the minimum less `k` is the count so far
  induction k generalizing s with
  | zero =>
    have hrest : outcomesInTurn text [.quantified body bounds.beyondMin] s =
        repetitions text (body.outcomes text) bounds.beyondMin 0 s := by
      simp [outcomesInTurn, outcomes]
    rw [List.replicate_zero, List.nil_append, hrest, repetitions_beyondMin]
    rfl
  | succ k ih =>
    have hnext : bounds.min - (k + 1) + 1 = bounds.min - k := by omega
    rw [List.replicate_succ, List.cons_append, outcomesInTurn,
      repetitions_of_lt_min body hordered (by omega), hnext]
    exact List.flatMap_congr fun t _ => ih (by omega) t

/-- The body as often as it must occur, and then the repetitions that may follow. -/
def unrolled (body : Regex) (bounds : Bounds) : Regex :=
  .concat (List.replicate bounds.min body ++ [.quantified body bounds.beyondMin])

theorem outcomes_unrolled (body : Regex) (bounds : Bounds)
    (hordered : ∀ n, bounds.max = some n → bounds.min ≤ n) :
    (quantified body bounds).outcomes text = (unrolled body bounds).outcomes text := by
  funext s
  rw [unrolled, outcomes, outcomes, outcomesInTurn_replicate body hordered (Nat.le_refl _),
    Nat.sub_self]

/-- At most one repetition: the body, or else nothing. -/
theorem outcomes_optional (body : Regex) :
    (quantified body ⟨0, some 1⟩).outcomes text =
      (alternation [body, concat []]).outcomes text := by
  funext s
  have honce : ∀ t : Endpoint, repetitions text (body.outcomes text) ⟨0, some 1⟩ 1 t = [t] :=
    fun t => by rw [repetitions_eq, if_pos (by rfl)]
  have hbody : ((body.outcomes text s).flatMap fun t =>
      if t.cursor = s.cursor ∧ 0 < 0 + 1 then [t]
      else repetitions text (body.outcomes text) ⟨0, some 1⟩ (0 + 1) t) = body.outcomes text s := by
    simp only [Nat.zero_add, honce, ite_self, List.flatMap_singleton']
  have honly : (quantified body ⟨0, some 1⟩).outcomes text s = body.outcomes text s ++ [s] := by
    rw [outcomes, repetitions_eq, if_neg (by decide), hbody, if_pos (Nat.le_refl 0)]
  rw [honly]
  simp only [outcomes, outcomesOfAny, outcomesInTurn, List.append_nil]

end Expr

/-! ## §4 Attempts -/

namespace Pattern

/-- At every position of every text the attempts with the two patterns come to the
same, as far as neither runs out of its budget: to no match, or to equal matches. -/
def AttemptsAgree (p q : Pattern) : Prop :=
  ∀ (budget budget' : Nat) (text : Text),
    (∀ start, (p.matchAt budget text start).verdict ≠ .exceeded →
      (q.matchAt budget' text start).verdict ≠ .exceeded →
      (p.matchAt budget text start).verdict = (q.matchAt budget' text start).verdict) ∧
    ((p.fullMatch budget text).verdict ≠ .exceeded →
      (q.fullMatch budget' text).verdict ≠ .exceeded →
      (p.fullMatch budget text).verdict = (q.fullMatch budget' text).verdict)

/-- Trees with the same outcomes make patterns whose attempts agree. -/
theorem attemptsAgree_of_outcomes {r r' : Regex}
    (h : ∀ text, r.outcomes text = r'.outcomes text) (groupCount : Nat) (names : NameTable) :
    AttemptsAgree ⟨r, groupCount, names⟩ ⟨r', groupCount, names⟩ := by
  intro budget budget' text
  have hagree : ∀ (accepts : Endpoint → Bool) (start : Nat),
      (attempt ⟨r, groupCount, names⟩ accepts budget text start).verdict ≠ .exceeded →
      (attempt ⟨r', groupCount, names⟩ accepts budget' text start).verdict ≠ .exceeded →
      (attempt ⟨r, groupCount, names⟩ accepts budget text start).verdict =
        (attempt ⟨r', groupCount, names⟩ accepts budget' text start).verdict := by
    intro accepts start hne hne'
    rcases Nat.lt_or_ge text.size start with hstart | hstart
    · rw [attempt, attempt, if_pos hstart, if_pos hstart]
    · rw [(verdict_attempt _ accepts budget hstart).resolve_left hne,
        (verdict_attempt _ accepts budget' hstart).resolve_left hne']
      simp only [outcomes, h text]
      rfl
  exact ⟨fun start => hagree (fun _ => true) start, hagree (fun e => e.cursor == text.size) 0⟩

/-- Counted repetition is its unrolling, wherever it occurs in a tree: `b{m,}` is
`m` times `b` and then `b{0,}`; `b{m,n}` is `m` times `b` and then `b{0,n-m}`; and
`b{0,1}` is `b` or nothing. -/
theorem counted_eq_unrolled (c : Expr.Context Nat) (body : Regex) (groupCount : Nat)
    (names : NameTable) {m n : Nat} (hmn : m ≤ n) :
    AttemptsAgree ⟨c.fill (.quantified body ⟨m, none⟩), groupCount, names⟩
      ⟨c.fill (.concat (List.replicate m body ++ [.quantified body ⟨0, none⟩])), groupCount,
        names⟩ ∧
    AttemptsAgree ⟨c.fill (.quantified body ⟨m, some n⟩), groupCount, names⟩
      ⟨c.fill (.concat (List.replicate m body ++ [.quantified body ⟨0, some (n - m)⟩])),
        groupCount, names⟩ ∧
    AttemptsAgree ⟨c.fill (.quantified body ⟨0, some 1⟩), groupCount, names⟩
      ⟨c.fill (.alternation [body, .concat []]), groupCount, names⟩ := by
  have hfill : ∀ {r r' : Regex}, (∀ text, r.outcomes text = r'.outcomes text) →
      AttemptsAgree ⟨c.fill r, groupCount, names⟩ ⟨c.fill r', groupCount, names⟩ :=
    fun h => attemptsAgree_of_outcomes (fun text => Expr.outcomes_fill_congr (h text) c) _ _
  refine ⟨hfill fun text => ?atLeast, hfill fun text => ?between, hfill fun text => ?atMostOne⟩
  case atLeast => exact Expr.outcomes_unrolled body ⟨m, none⟩ (by simp)
  case between => exact Expr.outcomes_unrolled body ⟨m, some n⟩ (by simpa using hmn)
  case atMostOne => exact Expr.outcomes_optional body

/-- `(a?)`, which captures and can match the empty text. -/
def maybeA : Regex := .group (some 1) (.quantified (.unit 97) ⟨0, some 1⟩)

/-- The place in front of the `a` of a sequence. -/
def beforeA : Expr.Context Nat := .concat [] .hole [.unit 97]

/-- `(a?){1,2}a` and `(?:(a?)(a?){0,1})a` on `aa`: the second repetition gives its
unit back, and the group has captured nothing. -/
theorem counted_eq_unrolled_maybeA :
    1 ≤ 2 ∧
    (matchAt ⟨beforeA.fill (.quantified maybeA ⟨1, some 2⟩), 1, []⟩ 40 #[97, 97] 0).verdict =
      .matched ⟨#[97, 97], 0, ⟨0, 2⟩, #[some ⟨1, 1⟩], []⟩ ∧
    (matchAt ⟨beforeA.fill (.concat [maybeA, .quantified maybeA ⟨0, some 1⟩]), 1, []⟩ 40
        #[97, 97] 0).verdict = .matched ⟨#[97, 97], 0, ⟨0, 2⟩, #[some ⟨1, 1⟩], []⟩ := by
  have hcounted : (matchAt ⟨beforeA.fill (.quantified maybeA ⟨1, some 2⟩), 1, []⟩ 40
      #[97, 97] 0).verdict = .matched ⟨#[97, 97], 0, ⟨0, 2⟩, #[some ⟨1, 1⟩], []⟩ := by cbv
  have hkeeps : (matchAt ⟨beforeA.fill (.concat [maybeA, .quantified maybeA ⟨0, some 1⟩]), 1, []⟩
      40 #[97, 97] 0).verdict ≠ .exceeded := by cbv; simp
  have hagree := (counted_eq_unrolled beforeA maybeA 1 [] (Nat.le_succ 1)).2.1
  refine ⟨Nat.le_succ 1, hcounted, ?_⟩
  exact ((hagree 40 40 #[97, 97]).1 0 (by simp [hcounted]) hkeeps).symm.trans hcounted

end Pattern

end LineRegex
