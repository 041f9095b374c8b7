/-
LineRegex.Proofs.Outcomes — what a tree can match, in the order of preference.

An outcome is a cursor with captures. A tree has, from every state, a finite
list of outcomes, the preferred ones first. The list is defined by recursion
on the tree, without any machine, continuation or budget.

  §1 Repetitions  — `repetitions`, over the outcomes of any body.
  §2 Trees        — `Expr.outcomes`.
  §3 Progress     — outcomes never lie behind the state they come from, so
                    the guard of `repetitions` never applies.
-/
import Mathlib.Data.List.Basic
import LineRegex.Matcher.Thread

namespace LineRegex

/-! ## §1 Repetitions -/

/-- The outcomes of repeating `body` when `count` repetitions are complete.
A repetition that consumed nothing is the last one beyond the minimum. The
condition `Advances` makes the recursion end for every `body`; the outcomes
of a tree always meet it (`Expr.repetitions_eq`). -/
def repetitions (text : Text) (body : Endpoint → List Endpoint) (bounds : Bounds) (count : Nat)
    (s : Endpoint) : List Endpoint :=
  if bounds.isReached count then [s]
  else
    (body s).flatMap (fun t =>
      if hstop : t.cursor = s.cursor ∧ bounds.min < count + 1 then [t]
      else if hadv : Advances text s.cursor t.cursor then repetitions text body bounds (count + 1) t
      else []) ++
    if bounds.min ≤ count then [s] else []
termination_by (text.size - s.cursor, bounds.min - count)
decreasing_by
  rcases hadv with heq | ⟨hlt, hle⟩
  · rw [heq]; exact Prod.Lex.right _ (by omega)
  · exact Prod.Lex.left _ _ (by omega)

/-! ## §2 Trees -/

/-- The outcome of consuming one accepted unit. -/
def oneUnit (text : Text) (accepts : CodeUnit → Bool) (s : Endpoint) : List Endpoint :=
  match text[s.cursor]? with
  | none => []
  | some u => if accepts u then [{ s with cursor := s.cursor + 1 }] else []

/-- The outcome of finding the units `captured` at the cursor. -/
def sameUnits (text captured : Text) (s : Endpoint) : List Endpoint :=
  if captured.toList <+: text.toList.drop s.cursor then
    [{ s with cursor := s.cursor + captured.size }]
  else []

/-- The state with the units from `start` to the cursor captured for a group. -/
def Endpoint.capture (s : Endpoint) (group start : Nat) : Endpoint :=
  { s with captures := s.captures.record group (some ⟨start, s.cursor⟩) }

namespace Expr

mutual

/-- The outcomes of a tree from a state, the preferred ones first. -/
def outcomes (text : Text) : Regex → Endpoint → List Endpoint
  | unit u, s => oneUnit text (· == u) s
  | charClass c, s => oneUnit text c.accepts s
  | any, s => oneUnit text (!·.isLineTerminator) s
  | anchor .lineStart, s => if s.cursor = 0 then [s] else []
  | anchor .lineEnd, s => if s.cursor = text.size then [s] else []
  | group none body, s => outcomes text body s
  | group (some g) body, s => (outcomes text body s).map (·.capture g s.cursor)
  | backreference g, s =>
    match s.captures.span g with
    | none => []
    | some captured => sameUnits text (captured.slice text) s
  | concat items, s => outcomesInTurn text items s
  | alternation branches, s => outcomesOfAny text branches s
  | quantified body bounds, s => repetitions text (outcomes text body) bounds 0 s

/-- The outcomes of trees one after another. -/
def outcomesInTurn (text : Text) : List Regex → Endpoint → List Endpoint
  | [], s => [s]
  | r :: rs, s => (outcomes text r s).flatMap (outcomesInTurn text rs)

/-- The outcomes of each tree, those of earlier ones first. -/
def outcomesOfAny (text : Text) : List Regex → Endpoint → List Endpoint
  | [], _ => []
  | r :: rs, s => outcomes text r s ++ outcomesOfAny text rs s

end

end Expr

/-! ## §3 Progress -/

theorem advances_of_mem_oneUnit {text : Text} {accepts : CodeUnit → Bool} {s t : Endpoint}
    (h : t ∈ oneUnit text accepts s) : Advances text s.cursor t.cursor := by
  unfold oneUnit at h
  split at h
  · simp at h
  · rename_i u hu
    have hlt : s.cursor < text.size := (Array.getElem?_eq_some_iff.mp hu).1
    split at h <;> simp at h
    subst h
    exact .inr ⟨Nat.lt_succ_self _, hlt⟩

theorem advances_of_mem_sameUnits {text captured : Text} {s t : Endpoint}
    (h : t ∈ sameUnits text captured s) : Advances text s.cursor t.cursor := by
  unfold sameUnits at h
  split at h <;> simp at h
  rename_i hp
  subst h
  have := hp.length_le
  simp only [Array.length_toList, List.length_drop] at this
  simp only [Advances]
  omega

/-- Repeating a body that advances, advances. -/
theorem advances_of_mem_repetitions {text : Text} {body : Endpoint → List Endpoint}
    {bounds : Bounds} (hbody : ∀ s, ∀ t ∈ body s, Advances text s.cursor t.cursor)
    (count : Nat) (s : Endpoint) :
    ∀ t ∈ repetitions text body bounds count s, Advances text s.cursor t.cursor := by
  fun_induction repetitions text body bounds count s with
  | case1 count s hreached => simp only [List.mem_singleton]; rintro t rfl; exact .refl text _
  | case2 count s hreached ih =>
    intro t ht
    rw [List.mem_append, List.mem_flatMap] at ht
    rcases ht with ⟨u, hu, ht⟩ | ht
    · split at ht
      · obtain rfl : t = u := by simpa using ht
        exact hbody s t hu
      · rename_i hstop
        split at ht
        · rename_i hadv
          exact hadv.trans (ih u hstop hadv t ht)
        · simp at ht
    · split at ht <;> simp at ht
      subst ht
      exact .refl text _

namespace Expr

mutual

/-- The outcomes of a tree do not lie behind the state it began in. -/
theorem advances_of_mem_outcomes {text : Text} : ∀ (r : Regex) (s : Endpoint),
    ∀ t ∈ outcomes text r s, Advances text s.cursor t.cursor
  | unit u, s => fun _ ht => advances_of_mem_oneUnit ht
  | charClass c, s => fun _ ht => advances_of_mem_oneUnit ht
  | any, s => fun _ ht => advances_of_mem_oneUnit ht
  | anchor .lineStart, s => by
    intro t ht
    simp only [outcomes] at ht
    split at ht <;> simp at ht
    subst ht
    exact .refl text _
  | anchor .lineEnd, s => by
    intro t ht
    simp only [outcomes] at ht
    split at ht <;> simp at ht
    subst ht
    exact .refl text _
  | group none body, s => advances_of_mem_outcomes body s
  | group (some g) body, s => by
    intro t ht
    obtain ⟨u, hu, rfl⟩ := List.mem_map.mp ht
    exact advances_of_mem_outcomes body s u hu
  | backreference g, s => by
    intro t ht
    simp only [outcomes] at ht
    split at ht
    · simp at ht
    · exact advances_of_mem_sameUnits ht
  | concat items, s => advances_of_mem_outcomesInTurn items s
  | alternation branches, s => advances_of_mem_outcomesOfAny branches s
  | quantified body bounds, s =>
    advances_of_mem_repetitions (fun s => advances_of_mem_outcomes body s) 0 s

theorem advances_of_mem_outcomesInTurn {text : Text} : ∀ (rs : List Regex) (s : Endpoint),
    ∀ t ∈ outcomesInTurn text rs s, Advances text s.cursor t.cursor
  | [], s => by
    intro t ht
    obtain rfl : t = s := by simpa [outcomesInTurn] using ht
    exact .refl text _
  | r :: rs, s => by
    intro t ht
    obtain ⟨u, hu, ht⟩ := List.mem_flatMap.mp ht
    exact (advances_of_mem_outcomes r s u hu).trans (advances_of_mem_outcomesInTurn rs u t ht)

theorem advances_of_mem_outcomesOfAny {text : Text} : ∀ (rs : List Regex) (s : Endpoint),
    ∀ t ∈ outcomesOfAny text rs s, Advances text s.cursor t.cursor
  | [], s => by simp [outcomesOfAny]
  | r :: rs, s => by
    intro t ht
    rcases List.mem_append.mp ht with ht | ht
    · exact advances_of_mem_outcomes r s t ht
    · exact advances_of_mem_outcomesOfAny rs s t ht

end

/-- The equation of repetitions of a tree, without the guard. -/
theorem repetitions_eq (text : Text) (body : Regex) (bounds : Bounds) (count : Nat)
    (s : Endpoint) :
    repetitions text (outcomes text body) bounds count s =
      if bounds.isReached count then [s]
      else
        (outcomes text body s).flatMap (fun t =>
          if t.cursor = s.cursor ∧ bounds.min < count + 1 then [t]
          else repetitions text (outcomes text body) bounds (count + 1) t) ++
        if bounds.min ≤ count then [s] else [] := by
  conv => lhs; rw [repetitions]
  split
  · rfl
  · congr 1
    refine List.flatMap_congr fun t ht => ?_
    have hadv : Advances text s.cursor t.cursor := advances_of_mem_outcomes body s t ht
    simp only [dite_eq_ite, hadv, if_true]

end Expr

end LineRegex
