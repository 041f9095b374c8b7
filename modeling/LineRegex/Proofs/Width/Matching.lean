/-
LineRegex.Proofs.Width.Matching — an attempt sees of a class what its text shows.

A step asks a class about one unit of the text and about nothing else. So where
the classes of a tree are replaced by classes that accept the same units of the
text, every turn of the machine has the same effect, and an attempt has the same
outcome, the steps included.

  §1 Effects   — the effect of an item with its classes replaced.
  §2 Machines  — turns on stacks of threads with their classes replaced.
  §3 Attempts
-/
import LineRegex.Proofs.Backtracking
import LineRegex.Proofs.Width.Trees

namespace LineRegex

/-! ## §1 Effects -/

/-- The item with `f` applied to every class. -/
def Work.mapClasses (f : CharClass → CharClass) : Work → Work
  | visit r => visit (r.mapClasses f)
  | close group start => close group start
  | iterate body bounds count => iterate (body.mapClasses f) bounds count
  | iterated body bounds count start => iterated (body.mapClasses f) bounds count start
  | branch first others => branch (first.mapClasses f) (others.map (Expr.mapClasses f))

/-- The effect with `f` applied to every class. -/
def Effect.mapClasses (f : CharClass → CharClass) (e : Effect) : Effect :=
  { e with
    fork := e.fork.map (List.map (Work.mapClasses f))
    push := e.push.map (Work.mapClasses f) }

/-- The classes that `f` yields accept the same units of the text. -/
def SameOn (text : Text) (f : CharClass → CharClass) : Prop :=
  ∀ c, ∀ u ∈ text, (f c).accepts u = c.accepts u

variable {text : Text} {f : CharClass → CharClass}

theorem consumeIf_congr {accepts accepts' : CodeUnit → Bool}
    (h : ∀ u ∈ text, accepts' u = accepts u) (cursor : Nat) :
    consumeIf accepts' text cursor = consumeIf accepts text cursor := by
  unfold consumeIf
  cases hu : text[cursor]? with
  | none => rfl
  | some u => simp only [h u (Array.mem_of_getElem? hu)]

theorem tryBranch_mapClasses (first : Regex) (others : List Regex) (cursor : Nat) :
    tryBranch (first.mapClasses f) (others.map (Expr.mapClasses f)) cursor =
      (tryBranch first others cursor).mapClasses f := by
  cases others <;> rfl

namespace Work

theorem visitEffect_mapClasses (h : SameOn text f) (cursor : Nat) (captures : Captures)
    (r : Regex) :
    visitEffect text cursor captures (r.mapClasses f) =
      (visitEffect text cursor captures r).map (Effect.mapClasses f) := by
  have hmove : ∀ c, Effect.mapClasses f { cursor := c } = { cursor := c } := fun _ => rfl
  cases r with
  | unit u => exact (map_consumeIf hmove _ text cursor).symm
  | charClass c =>
    exact (consumeIf_congr (h c) cursor).trans (map_consumeIf hmove _ text cursor).symm
  | any => exact (map_consumeIf hmove _ text cursor).symm
  | anchor a => cases a <;> exact (map_proceedIf hmove _ cursor).symm
  | group index body => cases index <;> rfl
  | backreference g =>
    simp only [Expr.mapClasses, visitEffect]
    cases captures.span g with
    | none => rfl
    | some s => exact (map_consumeText hmove _ text cursor).symm
  | concat items =>
    simp [Expr.mapClasses, visitEffect, Effect.mapClasses, Expr.mapClassesAll_eq_map, mapClasses,
      Function.comp_def]
  | alternation branches =>
    cases branches with
    | nil => rfl
    | cons first others =>
      simp only [Expr.mapClasses, Expr.mapClassesAll, visitEffect, Expr.mapClassesAll_eq_map,
        tryBranch_mapClasses]
      rfl
  | quantified body bounds => rfl

theorem effect_mapClasses (h : SameOn text f) (cursor : Nat) (captures : Captures) (w : Work) :
    (w.mapClasses f).effect text cursor captures =
      (w.effect text cursor captures).map (Effect.mapClasses f) := by
  cases w with
  | visit r => exact visitEffect_mapClasses h cursor captures r
  | close group start => rfl
  | iterate body bounds count =>
    simp only [mapClasses, effect, iterateEffect, Option.map_some]
    split
    · rfl
    · split <;> rfl
  | iterated body bounds count start =>
    simp only [mapClasses, effect, iteratedEffect, Option.map_some]
    split <;> rfl
  | branch first others => exact congrArg some (tryBranch_mapClasses first others cursor)

end Work

/-! ## §2 Machines -/

/-- The thread with `f` applied to every class. -/
def Thread.mapClasses (f : CharClass → CharClass) (t : Thread) : Thread :=
  { t with work := t.work.map (Work.mapClasses f) }

/-- The stack with `f` applied to every class. -/
def ThreadStack.mapClasses (f : CharClass → CharClass) (s : ThreadStack) : ThreadStack :=
  ⟨s.running.mapClasses f, s.pending.map (Thread.mapClasses f)⟩

namespace ThreadStack

theorem after_mapClasses (s : ThreadStack) (rest : List Work) (e : Effect) :
    (s.mapClasses f).after (rest.map (Work.mapClasses f)) (e.mapClasses f) =
      (s.after rest e).mapClasses f := by
  obtain ⟨t, pending⟩ := s
  obtain ⟨cursor, record, fork, push⟩ := e
  cases fork <;>
    simp [after, mapClasses, Thread.after, Thread.alternative?, Thread.mapClasses,
      Effect.mapClasses, Effect.captured]

/-- A turn on a stack with the classes replaced is the turn on the stack. -/
theorem simulates_mapClasses (h : SameOn text f) :
    Simulates (turn text) (turn text) fun s t => s = t.mapClasses f := by
  rintro _ ⟨⟨work, cursor, captures⟩, pending⟩ rfl
  cases work with
  | nil =>
    cases pending with
    | nil => exact .restNone _
    | cons t pending => exact .restSome _ rfl
  | cons w rest =>
    have heffect := Work.effect_mapClasses h cursor captures w
    simp only [turn, mapClasses, Thread.mapClasses, List.map_cons, heffect]
    cases he : w.effect text cursor captures with
    | none =>
      cases pending with
      | nil => exact .workNone
      | cons t pending => exact .workSome rfl
    | some e =>
      refine .workSome ?_
      exact after_mapClasses ⟨⟨w :: rest, cursor, captures⟩, pending⟩ rest e

end ThreadStack

/-! ## §3 Attempts -/

namespace Pattern

/-- An attempt with the classes replaced has the same outcome, if they accept the
same units of the text. -/
theorem attempt_mapClasses (p : Pattern) (h : SameOn text f) (accepts : Endpoint → Bool)
    (budget start : Nat) :
    (p.mapClasses f).attempt accepts budget text start = p.attempt accepts budget text start := by
  have hendpoints : (p.mapClasses f).endpoints accepts budget text start =
      p.endpoints accepts budget text start := by
    rw [endpoints_eq_run, endpoints_eq_run]
    exact (ThreadStack.simulates_mapClasses h).run_eq accepts budget rfl 0
  unfold attempt
  rw [hendpoints]
  rfl

end Pattern

end LineRegex
