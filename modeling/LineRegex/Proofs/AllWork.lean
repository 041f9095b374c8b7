/-
LineRegex.Proofs.AllWork — properties of all the work of an attempt.

Work leads to work on the tree that it is about, or on the trees inside that.
So what holds of every node of the pattern holds, in every state of an attempt,
of the trees that any thread has still to match.

  §1 Effects  — properties that an item passes on to all it leads to.
  §2 Turns    — such a property of all the work in a stack is kept by turns.
  §3 Trees    — that every node of the trees to match has some property is
                passed on.
-/
import LineRegex.Matcher.Thread
import LineRegex.Proofs.Everywhere

namespace LineRegex

/-! ## §1 Effects -/

/-- All work that the effect leads to has the property. -/
def Effect.LeadsTo (Q : Work → Prop) (e : Effect) : Prop :=
  (∀ w ∈ e.push, Q w) ∧ ∀ work, e.fork = some work → ∀ w ∈ work, Q w

/-- Work with the property leads to nothing but work with the property. -/
def PassedOn (text : Text) (Q : Work → Prop) : Prop :=
  ∀ w, Q w → ∀ cursor captures e, w.effect text cursor captures = some e → e.LeadsTo Q

theorem Effect.LeadsTo.of_leaf {Q : Work → Prop} {e : Effect} (h : e.push = [] ∧ e.fork = none) :
    e.LeadsTo Q := by
  obtain ⟨hpush, hfork⟩ := h
  constructor
  · simp [hpush]
  · simp [hfork]

/-! ## §2 Turns -/

namespace ThreadStack

variable {text : Text} {Q : Work → Prop}

/-- All work of all threads has the property. -/
def AllWork (Q : Work → Prop) (s : ThreadStack) : Prop :=
  ∀ t ∈ s.running :: s.pending, ∀ w ∈ t.work, Q w

theorem allWork_after {s : ThreadStack} {rest : List Work} {e : Effect}
    (hrest : ∀ w ∈ rest, Q w) (he : e.LeadsTo Q) (hpending : ∀ t ∈ s.pending, ∀ w ∈ t.work, Q w) :
    (s.after rest e).AllWork Q := by
  have happend : ∀ {work : List Work}, (∀ w ∈ work, Q w) → ∀ w ∈ work ++ rest, Q w :=
    fun hwork w hw => (List.mem_append.mp hw).elim (hwork w) (hrest w)
  intro t ht
  rcases List.mem_cons.mp ht with rfl | ht
  · exact happend he.1
  · rcases List.mem_append.mp ht with ht | ht
    · cases hfork : e.fork with
      | none => simp [Thread.alternative?, hfork] at ht
      | some work =>
        obtain rfl : t = ⟨work ++ rest, s.running.cursor, s.running.captures⟩ := by
          simpa [Thread.alternative?, hfork] using ht
        exact happend (he.2 work hfork)
    · exact hpending t ht

/-- No turn leads to work without the property. -/
theorem allWork_of_follows (hQ : PassedOn text Q) {s t : ThreadStack} (hs : s.AllWork Q)
    (h : Follows (turn text) t s) : t.AllWork Q := by
  obtain ⟨⟨work, cursor, captures⟩, pending⟩ := s
  have hpending : ∀ t ∈ pending, ∀ w ∈ t.work, Q w := fun t ht => hs t (List.mem_cons_of_mem _ ht)
  have hresume : ∀ {t}, resume? pending = some t → t.AllWork Q := by
    intro t ht
    cases pending with
    | nil => cases ht
    | cons first others => cases ht; exact hpending
  cases work with
  | nil => exact hresume h
  | cons w rest =>
    have hw : ∀ v ∈ w :: rest, Q v := hs _ (List.mem_cons_self ..)
    simp only [Follows, turn] at h
    cases he : w.effect text cursor captures with
    | none => rw [he] at h; exact hresume h
    | some e =>
      rw [he] at h
      cases h
      have heffect : e.LeadsTo Q := hQ w (hw w (List.mem_cons_self ..)) cursor captures e he
      exact allWork_after (fun v hv => hw v (List.mem_cons_of_mem _ hv)) heffect hpending

end ThreadStack

/-! ## §3 Trees -/

/-- Every node of the trees that the item has still to match has the property. -/
def Work.Everywhere (P : Regex → Prop) : Work → Prop
  | visit r => r.Everywhere P
  | close _ _ => True
  | iterate body _ _ => body.Everywhere P
  | iterated body _ _ _ => body.Everywhere P
  | branch first others => Expr.EverywhereAll P (first :: others)

section Trees

variable {text : Text} {P : Regex → Prop}

theorem tryBranch_leadsTo {first : Regex} {others : List Regex}
    (h : Expr.EverywhereAll P (first :: others)) (cursor : Nat) :
    (tryBranch first others cursor).LeadsTo (Work.Everywhere P) := by
  cases others with
  | nil => simpa [tryBranch, Effect.LeadsTo, Work.Everywhere] using h.1
  | cons next others =>
    simpa [tryBranch, Effect.LeadsTo, Work.Everywhere] using show _ ∧ _ from h

namespace Work

theorem visitEffect_leadsTo {r : Regex} (hr : r.Everywhere P) {cursor : Nat} {captures : Captures}
    {e : Effect} (he : visitEffect text cursor captures r = some e) :
    e.LeadsTo (Work.Everywhere P) := by
  cases r with
  | unit u => exact .of_leaf (Advances.of_consumeIf he).2
  | charClass c => exact .of_leaf (Advances.of_consumeIf he).2
  | any => exact .of_leaf (Advances.of_consumeIf he).2
  | anchor a =>
    have hleaf : ∀ {condition}, proceedIf condition cursor = some e → e.push = [] ∧ e.fork = none :=
      fun h => (Advances.of_proceedIf h : Advances text cursor e.cursor ∧ _).2
    cases a <;> exact .of_leaf (hleaf he)
  | backreference g =>
    simp only [visitEffect] at he
    split at he
    · cases he
    · exact .of_leaf (Advances.of_consumeText he).2
  | group index body =>
    cases index <;> cases he <;> simpa [Effect.LeadsTo, Work.Everywhere] using hr.2
  | concat items =>
    cases he
    simpa [Effect.LeadsTo, Work.Everywhere] using (Expr.everywhereAll_iff items).mp hr.2
  | alternation branches =>
    cases branches with
    | nil => cases he
    | cons first others => cases he; exact tryBranch_leadsTo hr.2 cursor
  | quantified body bounds =>
    cases he
    simpa [Effect.LeadsTo, Work.Everywhere] using hr.2

/-- What every node of a tree has, the work on the tree passes on. -/
theorem passedOn_everywhere (text : Text) (P : Regex → Prop) :
    PassedOn text (Work.Everywhere P) := by
  intro w hw cursor captures e he
  cases w with
  | visit r => exact visitEffect_leadsTo hw he
  | close group start => cases he; exact .of_leaf ⟨rfl, rfl⟩
  | iterate body bounds count =>
    cases he
    unfold iterateEffect
    split
    · exact .of_leaf ⟨rfl, rfl⟩
    · split <;> simpa [Effect.LeadsTo, Work.Everywhere] using hw
  | iterated body bounds count start =>
    cases he
    unfold iteratedEffect
    split
    · exact .of_leaf ⟨rfl, rfl⟩
    · simpa [Effect.LeadsTo, Work.Everywhere] using hw
  | branch first others => cases he; exact tryBranch_leadsTo hw cursor

end Work

end Trees

end LineRegex
