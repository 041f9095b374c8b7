/-
LineRegex.Proofs.Everywhere — properties that every node of a tree has.

  §1 Definition — `Expr.Everywhere P` and one equation for each constructor.
  §2 Weakening  — what follows from `P` holds wherever `P` does.
  §3 Joining    — sequences and choices of one member have no node of their own.
-/
import LineRegex.Regex

namespace LineRegex.Expr

variable {ρ : Type} {P Q : Expr ρ → Prop}

/-! ## §1 Definition -/

mutual

/-- The property holds of the tree and of every tree inside it. -/
def Everywhere (P : Expr ρ → Prop) : Expr ρ → Prop
  | group index body => P (group index body) ∧ Everywhere P body
  | concat items => P (concat items) ∧ EverywhereAll P items
  | alternation branches => P (alternation branches) ∧ EverywhereAll P branches
  | quantified body bounds => P (quantified body bounds) ∧ Everywhere P body
  | e => P e

/-- `Everywhere` for each tree of a list. -/
def EverywhereAll (P : Expr ρ → Prop) : List (Expr ρ) → Prop
  | [] => True
  | e :: es => Everywhere P e ∧ EverywhereAll P es

end

theorem everywhereAll_iff (es : List (Expr ρ)) :
    EverywhereAll P es ↔ ∀ e ∈ es, Everywhere P e := by
  induction es with
  | nil => simp [EverywhereAll]
  | cons e es ih => simp [EverywhereAll, ih]

/-- A tree has the properties of its nodes. -/
theorem Everywhere.root {e : Expr ρ} (h : Everywhere P e) : P e := by
  cases e with
  | group | concat | alternation | quantified => exact h.1
  | unit | charClass | any | anchor | backreference => exact h

/-! ## §2 Weakening -/

mutual

theorem Everywhere.imp (hPQ : ∀ e, P e → Q e) : ∀ {e : Expr ρ}, Everywhere P e → Everywhere Q e
  | unit _, h => hPQ _ h
  | charClass _, h => hPQ _ h
  | any, h => hPQ _ h
  | anchor _, h => hPQ _ h
  | backreference _, h => hPQ _ h
  | group _ _, h => ⟨hPQ _ h.1, h.2.imp hPQ⟩
  | concat _, h => ⟨hPQ _ h.1, EverywhereAll.imp hPQ h.2⟩
  | alternation _, h => ⟨hPQ _ h.1, EverywhereAll.imp hPQ h.2⟩
  | quantified _ _, h => ⟨hPQ _ h.1, h.2.imp hPQ⟩

theorem EverywhereAll.imp (hPQ : ∀ e, P e → Q e) :
    ∀ {es : List (Expr ρ)}, EverywhereAll P es → EverywhereAll Q es
  | [], _ => trivial
  | _ :: _, h => ⟨h.1.imp hPQ, EverywhereAll.imp hPQ h.2⟩

end

/-! ## §3 Joining -/

theorem inSequence_eq_concat {es : List (Expr ρ)} (h : es.length ≠ 1) :
    inSequence es = concat es := by
  match es with
  | [] => rfl
  | [e] => exact absurd rfl h
  | _ :: _ :: _ => rfl

theorem oneOf_eq_alternation {es : List (Expr ρ)} (h : es.length ≠ 1) :
    oneOf es = alternation es := by
  match es with
  | [] => rfl
  | [e] => exact absurd rfl h
  | _ :: _ :: _ => rfl

/-- What a sequence owes to its items alone is the same with and without a node. -/
theorem apply_inSequence {α : Type} {f : Expr ρ → α} {g : List (Expr ρ) → α}
    (hmany : ∀ es, f (concat es) = g es) (hone : ∀ e, g [e] = f e) (es : List (Expr ρ)) :
    f (inSequence es) = g es := by
  match es with
  | [] => exact hmany []
  | [e] => exact (hone e).symm
  | e :: e' :: es => exact hmany (e :: e' :: es)

theorem apply_oneOf {α : Type} {f : Expr ρ → α} {g : List (Expr ρ) → α}
    (hmany : ∀ es, f (alternation es) = g es) (hone : ∀ e, g [e] = f e) (es : List (Expr ρ)) :
    f (oneOf es) = g es := by
  match es with
  | [] => exact hmany []
  | [e] => exact (hone e).symm
  | e :: e' :: es => exact hmany (e :: e' :: es)

theorem everywhere_inSequence {es : List (Expr ρ)} (hP : es.length ≠ 1 → P (concat es))
    (hes : EverywhereAll P es) : Everywhere P (inSequence es) := by
  by_cases hone : es.length = 1
  · obtain ⟨e, rfl⟩ := List.length_eq_one_iff.mp hone
    exact hes.1
  · rw [inSequence_eq_concat hone]
    exact ⟨hP hone, hes⟩

theorem everywhere_oneOf {es : List (Expr ρ)} (hP : es.length ≠ 1 → P (alternation es))
    (hes : EverywhereAll P es) : Everywhere P (oneOf es) := by
  by_cases hone : es.length = 1
  · obtain ⟨e, rfl⟩ := List.length_eq_one_iff.mp hone
    exact hes.1
  · rw [oneOf_eq_alternation hone]
    exact ⟨hP hone, hes⟩

end LineRegex.Expr
