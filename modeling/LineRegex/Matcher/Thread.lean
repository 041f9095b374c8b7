/-
LineRegex.Matcher.Thread — the attempt as a stack of independent threads.

A thread holds all that an attempt needs to go on: the remaining work, the
cursor and the captures. The machine runs its first thread; an alternative
is pushed as a whole thread and taken up when the first one fails.

  §1 Threads      — `Thread.step`, one effect on a thread.
  §2 The machine  — `ThreadStack.turn`.
  §3 Halting      — a thread halts if every sequence of turns from it, on
                    top of any stack that ends, ends. Work halts if it
                    leads only to threads that halt.
  §4 Trees        — every item of work halts. The one loop is that of
                    `iterate`: each repetition consumes some of the line or
                    counts towards the minimum.
  §5 Ending       — `ThreadStack.ending`: every sequence of turns ends.
-/
import LineRegex.Matcher.Machine

namespace LineRegex

/-! ## §1 Threads -/

/-- An attempt at some point of its course. -/
structure Thread where
  work : List Work
  cursor : Nat
  captures : Captures

namespace Thread

/-- The thread after an effect, with the rest of its work. -/
def after (t : Thread) (rest : List Work) (e : Effect) : Thread :=
  ⟨e.push ++ rest, e.cursor, e.captured t.captures⟩

/-- The thread that an effect offers as the alternative. -/
def alternative? (t : Thread) (rest : List Work) (e : Effect) : Option Thread :=
  e.fork.map fun work => ⟨work ++ rest, t.cursor, t.captures⟩

end Thread

/-! ## §2 The machine -/

/-- A running thread, and the alternatives to it, newest first. -/
structure ThreadStack where
  running : Thread
  pending : List Thread

namespace ThreadStack

/-- The stack with its first thread running, if there is one. -/
def resume? : List Thread → Option ThreadStack
  | [] => none
  | t :: pending => some ⟨t, pending⟩

/-- The stack after an effect on its running thread. -/
def after (s : ThreadStack) (rest : List Work) (e : Effect) : ThreadStack :=
  ⟨s.running.after rest e, (s.running.alternative? rest e).toList ++ s.pending⟩

/-- One turn: the next item of the running thread takes effect, or fails and
hands over to the newest alternative. -/
def turn (line : Text) (s : ThreadStack) : Turn ThreadStack :=
  match s.running.work with
  | [] => .rest ⟨s.running.cursor, s.running.captures⟩ (resume? s.pending)
  | w :: rest =>
    match w.effect line s.running.cursor s.running.captures with
    | none => .work (resume? s.pending)
    | some e => .work (some (s.after rest e))

end ThreadStack

/-! ## §3 Halting -/

/-- Every sequence of turns ends, from the stack with its first thread running. -/
def Resumable (line : Text) : List Thread → Prop
  | [] => True
  | t :: pending => Acc (Follows (ThreadStack.turn line)) ⟨t, pending⟩

/-- The thread comes to an end on top of any stack that does. -/
def Thread.Halts (line : Text) (t : Thread) : Prop :=
  ∀ pending, Resumable line pending → Acc (Follows (ThreadStack.turn line)) ⟨t, pending⟩

/-- What resumes from a stack that ends, ends. -/
theorem Resumable.acc {line : Text} {pending : List Thread} (h : Resumable line pending)
    {s : ThreadStack} (hs : ThreadStack.resume? pending = some s) :
    Acc (Follows (ThreadStack.turn line)) s := by
  cases pending with
  | nil => simp [ThreadStack.resume?] at hs
  | cons t pending => simp [ThreadStack.resume?] at hs; subst hs; exact h

/-- A thread without work halts. -/
theorem Thread.halts_nil (line : Text) (cursor : Nat) (captures : Captures) :
    Thread.Halts line ⟨[], cursor, captures⟩ :=
  fun _ h => ⟨_, fun _ hs => h.acc hs⟩

/-- A thread halts if its first item fails, or leads to threads that halt. -/
theorem Thread.halts_cons {line : Text} {w : Work} {rest : List Work} {cursor : Nat}
    {captures : Captures}
    (h : ∀ e, w.effect line cursor captures = some e →
      Thread.Halts line (Thread.after ⟨w :: rest, cursor, captures⟩ rest e) ∧
      ∀ work, e.fork = some work → Thread.Halts line ⟨work ++ rest, cursor, captures⟩) :
    Thread.Halts line ⟨w :: rest, cursor, captures⟩ := by
  intro pending hp
  refine ⟨_, fun s hs => ?_⟩
  simp only [Follows, ThreadStack.turn] at hs
  cases he : w.effect line cursor captures with
  | none => rw [he] at hs; exact hp.acc hs
  | some e =>
    rw [he] at hs
    cases hs
    obtain ⟨hafter, hfork⟩ := h e he
    refine hafter _ ?_
    cases hf : e.fork with
    | none => simpa [Thread.alternative?, hf] using hp
    | some work => simpa [Thread.alternative?, hf, Resumable] using hfork work hf pending hp

/-! The cursor never moves left, and if it moves it stays on the line. -/

/-- Whether a step that begins at the cursor `c` may leave it at `d`. -/
def Advances (line : Text) (c d : Nat) : Prop := c = d ∨ c < d ∧ d ≤ line.size

instance (line : Text) (c d : Nat) : Decidable (Advances line c d) :=
  inferInstanceAs (Decidable (c = d ∨ c < d ∧ d ≤ line.size))

theorem Advances.refl (line : Text) (c : Nat) : Advances line c c := .inl rfl

theorem Advances.trans {line : Text} {a b c : Nat} (h : Advances line a b)
    (h' : Advances line b c) : Advances line a c := by
  unfold Advances at *; omega

/-- The thread halts when the work is in front of anything that halts from
wherever the cursor may move. -/
def Work.Halts (line : Text) (w : Work) : Prop :=
  ∀ (rest : List Work) (cursor : Nat),
    (∀ cursor', Advances line cursor cursor' → ∀ captures,
      Thread.Halts line ⟨rest, cursor', captures⟩) →
    ∀ captures, Thread.Halts line ⟨w :: rest, cursor, captures⟩

/-- Items that halt, halt one after another. -/
theorem Work.halts_append {line : Text} {ws rest : List Work} {cursor : Nat}
    (hws : ∀ w ∈ ws, w.Halts line)
    (hrest : ∀ cursor', Advances line cursor cursor' → ∀ captures,
      Thread.Halts line ⟨rest, cursor', captures⟩) (captures : Captures) :
    Thread.Halts line ⟨ws ++ rest, cursor, captures⟩ := by
  induction ws generalizing cursor captures with
  | nil => exact hrest cursor (.refl line cursor) captures
  | cons w ws ih =>
    refine hws w (by simp) _ _ (fun cursor' hc captures' => ?_) captures
    exact ih (fun v hv => hws v (by simp [hv]))
      (fun cursor'' hc' => hrest cursor'' (hc.trans hc')) captures'

/-- Work halts if all its effects move the cursor rightly and push and fork
only work that halts. -/
theorem Work.halts_of_effect {line : Text} {w : Work}
    (h : ∀ cursor captures e, w.effect line cursor captures = some e →
      Advances line cursor e.cursor ∧ (∀ v ∈ e.push, v.Halts line) ∧
      ∀ work, e.fork = some work → ∀ v ∈ work, v.Halts line) : w.Halts line := by
  intro rest cursor hrest captures
  refine Thread.halts_cons fun e he => ?_
  obtain ⟨hc, hpush, hfork⟩ := h cursor captures e he
  refine ⟨Work.halts_append hpush (fun c' h' => hrest c' (hc.trans h')) _, fun work hw => ?_⟩
  exact Work.halts_append (hfork work hw) hrest _

/-! ## §4 Trees -/

theorem Advances.of_consumeIf {line : Text} {accepts : CodeUnit → Bool} {cursor : Nat} {e : Effect}
    (h : consumeIf accepts line cursor = some e) :
    Advances line cursor e.cursor ∧ e.push = [] ∧ e.fork = none := by
  unfold consumeIf at h
  split at h
  · rename_i u hu
    have : cursor < line.size := (Array.getElem?_eq_some_iff.mp hu).1
    split at h <;> simp at h
    subst h
    exact ⟨.inr ⟨Nat.lt_succ_self cursor, this⟩, rfl, rfl⟩
  · simp at h

theorem Advances.of_proceedIf {line : Text} {condition : Bool} {cursor : Nat} {e : Effect}
    (h : proceedIf condition cursor = some e) :
    Advances line cursor e.cursor ∧ e.push = [] ∧ e.fork = none := by
  unfold proceedIf at h
  split at h <;> simp at h
  subst h
  exact ⟨.refl line cursor, rfl, rfl⟩

theorem Advances.of_consumeText {captured line : Text} {cursor : Nat} {e : Effect}
    (h : consumeText captured line cursor = some e) :
    Advances line cursor e.cursor ∧ e.push = [] ∧ e.fork = none := by
  unfold consumeText at h
  split at h <;> simp at h
  rename_i ht
  subst h
  have := congrArg Array.size ht
  simp only [Array.size_extract] at this
  refine ⟨?_, rfl, rfl⟩
  simp only [Advances]
  omega

/-- Choosing among branches halts if matching each of them does. -/
theorem Work.branch_halts {line : Text} {others : List Regex}
    (hothers : ∀ r ∈ others, (Work.visit r).Halts line) :
    ∀ {first : Regex}, (Work.visit first).Halts line → (Work.branch first others).Halts line := by
  induction others with
  | nil =>
    intro first hfirst
    refine halts_of_effect fun cursor captures e he => ?_
    simp only [effect, tryBranch, Option.some.injEq] at he
    subst he
    exact ⟨.refl line cursor, by simpa using hfirst, by simp⟩
  | cons next others ih =>
    intro first hfirst
    have hnext := ih (fun r hr => hothers r (by simp [hr])) (hothers next (by simp))
    refine halts_of_effect fun cursor captures e he => ?_
    simp only [effect, tryBranch, Option.some.injEq] at he
    subst he
    exact ⟨.refl line cursor, by simpa using hfirst, by simpa using hnext⟩

/-- Deciding about repetitions halts if matching the body does. -/
theorem Work.iterate_halts_at {line : Text} {body : Regex} {bounds : Bounds}
    (hbody : (Work.visit body).Halts line) (rest : List Work) (cursor count : Nat)
    (hrest : ∀ cursor', Advances line cursor cursor' → ∀ captures,
      Thread.Halts line ⟨rest, cursor', captures⟩) (captures : Captures) :
    Thread.Halts line ⟨.iterate body bounds count :: rest, cursor, captures⟩ := by
  refine Thread.halts_cons fun e he => ?_
  simp only [effect, iterateEffect, Option.some.injEq] at he
  split at he
  · subst he
    exact ⟨hrest cursor (.refl line cursor) _, by simp⟩
  · subst he
    refine ⟨?_, fun work hw => ?_⟩
    · refine hbody _ _ (fun cursor' (hc : Advances line cursor cursor') captures' => ?_) _
      refine Thread.halts_cons fun e he => ?_
      simp only [effect, iteratedEffect, Option.some.injEq] at he
      split at he
      · subst he
        exact ⟨hrest cursor' hc _, by simp⟩
      · rename_i hstop
        subst he
        refine ⟨?_, by simp⟩
        have hless : line.size - cursor' < line.size - cursor ∨
            line.size - cursor' = line.size - cursor ∧
              bounds.min - (count + 1) < bounds.min - count := by
          simp only [Bool.and_eq_true, decide_eq_true_eq] at hstop
          unfold Advances at hc
          omega
        exact iterate_halts_at hbody rest cursor' (count + 1)
          (fun cursor'' hc' => hrest cursor'' (hc.trans hc')) _
    · split at hw <;> simp at hw
      subst hw
      exact hrest cursor (.refl line cursor) captures
termination_by (line.size - cursor, bounds.min - count)
decreasing_by
  rcases hless with h | ⟨h, h'⟩
  · exact Prod.Lex.left _ _ h
  · rw [h]; exact Prod.Lex.right _ h'

mutual

/-- Matching a tree halts. -/
theorem Work.visit_halts (line : Text) : (r : Regex) → (Work.visit r).Halts line
  | .unit u => halts_of_effect fun _ _ _ he =>
      have ⟨h, hp, hf⟩ := Advances.of_consumeIf he
      ⟨h, by simp [hp], by simp [hf]⟩
  | .charClass c => halts_of_effect fun _ _ _ he =>
      have ⟨h, hp, hf⟩ := Advances.of_consumeIf he
      ⟨h, by simp [hp], by simp [hf]⟩
  | .any => halts_of_effect fun _ _ _ he =>
      have ⟨h, hp, hf⟩ := Advances.of_consumeIf he
      ⟨h, by simp [hp], by simp [hf]⟩
  | .anchor .lineStart => halts_of_effect fun _ _ _ he =>
      have ⟨h, hp, hf⟩ := Advances.of_proceedIf he
      ⟨h, by simp [hp], by simp [hf]⟩
  | .anchor .lineEnd => halts_of_effect fun _ _ _ he =>
      have ⟨h, hp, hf⟩ := Advances.of_proceedIf he
      ⟨h, by simp [hp], by simp [hf]⟩
  | .group none body => by
    have hbody := Work.visit_halts line body
    refine halts_of_effect fun cursor captures e he => ?_
    cases he
    exact ⟨.refl line cursor, by simpa using hbody, by simp⟩
  | .group (some g) body => by
    have hbody := Work.visit_halts line body
    refine halts_of_effect fun cursor captures e he => ?_
    cases he
    refine ⟨.refl line cursor, ?_, by simp⟩
    have hclose : (Work.close g cursor).Halts line :=
      halts_of_effect fun c _ e' he' => by cases he'; exact ⟨.refl line c, by simp, by simp⟩
    simpa using ⟨hbody, hclose⟩
  | .backreference g => by
    refine halts_of_effect fun cursor captures e he => ?_
    simp only [effect, visitEffect] at he
    split at he
    · simp at he
    · have ⟨h, hp, hf⟩ := Advances.of_consumeText he
      exact ⟨h, by simp [hp], by simp [hf]⟩
  | .concat items => by
    have hitems := Work.visitAll_halts line items
    refine halts_of_effect fun cursor captures e he => ?_
    cases he
    exact ⟨.refl line cursor, by simpa using hitems, by simp⟩
  | .alternation [] => halts_of_effect fun _ _ _ he => by simp [effect, visitEffect] at he
  | .alternation (first :: others) => by
    have hfirst := Work.visit_halts line first
    have hothers := Work.visitAll_halts line others
    refine halts_of_effect fun cursor captures e he => ?_
    cases he
    refine ⟨.refl line cursor, by simpa [tryBranch] using hfirst, fun work hw => ?_⟩
    cases others with
    | nil => simp [tryBranch] at hw
    | cons next others =>
      have hnext : (Work.branch next others).Halts line :=
        Work.branch_halts (fun r hr => hothers r (by simp [hr])) (hothers next (by simp))
      simp only [tryBranch, Option.some.injEq] at hw
      subst hw
      simpa using hnext
  | .quantified body bounds => by
    have hbody := Work.visit_halts line body
    refine halts_of_effect fun cursor captures e he => ?_
    cases he
    refine ⟨.refl line cursor, ?_, by simp⟩
    have : (Work.iterate body bounds 0).Halts line :=
      fun rest cursor hrest captures => Work.iterate_halts_at hbody rest cursor 0 hrest captures
    simpa using this

/-- Matching each tree of a list halts. -/
theorem Work.visitAll_halts (line : Text) :
    (rs : List Regex) → ∀ r ∈ rs, (Work.visit r).Halts line
  | [] => by simp
  | r :: rs => by
    have h := Work.visit_halts line r
    have hs := Work.visitAll_halts line rs
    simpa using ⟨h, hs⟩

end

/-- Every item of work halts. -/
theorem Work.halts (line : Text) (w : Work) : w.Halts line := by
  cases w with
  | visit r => exact visit_halts line r
  | close g start =>
    exact halts_of_effect fun c _ e he => by cases he; exact ⟨.refl line c, by simp, by simp⟩
  | iterate body bounds count =>
    exact fun rest cursor => iterate_halts_at (visit_halts line body) rest cursor count
  | iterated body bounds count start =>
    refine halts_of_effect fun cursor captures e he => ?_
    simp only [effect, iteratedEffect, Option.some.injEq] at he
    split at he <;> subst he
    · exact ⟨.refl line cursor, by simp, by simp⟩
    · refine ⟨.refl line cursor, ?_, by simp⟩
      have : (Work.iterate body bounds count).Halts line :=
        fun rest cursor => iterate_halts_at (visit_halts line body) rest cursor count
      simpa using this
  | branch first others =>
    exact branch_halts (visitAll_halts line others) (visit_halts line first)

/-! ## §5 Ending -/

/-- Every thread halts. -/
theorem Thread.halts (line : Text) (t : Thread) : t.Halts line := by
  obtain ⟨work, cursor, captures⟩ := t
  have : Thread.Halts line ⟨work ++ [], cursor, captures⟩ :=
    Work.halts_append (fun w _ => w.halts line) (fun c _ s => Thread.halts_nil line c s) captures
  simpa using this

/-- Every stack of threads can be resumed. -/
theorem Resumable.all (line : Text) (pending : List Thread) : Resumable line pending := by
  induction pending with
  | nil => trivial
  | cons t pending ih => exact t.halts line pending ih

namespace ThreadStack

/-- Every sequence of turns ends, from whatever state. -/
theorem ending (line : Text) (s : ThreadStack) : Acc (Follows (turn line)) s :=
  s.running.halts line s.pending (.all line s.pending)

end ThreadStack

end LineRegex
