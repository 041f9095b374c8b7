/-
LineRegex.Proofs.Width.Trees — replacing the classes of a tree.

Replacing every class of a tree by a function of it leaves all else as it is,
and so goes together with whatever builds trees or resolves their references.

  §1 Trees      — `Expr.mapClasses`.
  §2 Joining    — sequences and choices.
  §3 Resolving  — references are resolved alike, errors included.
  §4 Patterns
-/
import LineRegex.Pattern
import LineRegex.Proofs.Everywhere

namespace LineRegex

namespace Expr

variable {ρ σ ε : Type}

/-! ## §1 Trees -/

mutual

/-- The tree with `f` applied to every class. -/
def mapClasses (f : CharClass → CharClass) : Expr ρ → Expr ρ
  | unit u => unit u
  | charClass c => charClass (f c)
  | any => any
  | anchor a => anchor a
  | group index body => group index (mapClasses f body)
  | backreference r => backreference r
  | concat items => concat (mapClassesAll f items)
  | alternation branches => alternation (mapClassesAll f branches)
  | quantified body bounds => quantified (mapClasses f body) bounds

/-- `mapClasses` for each tree of a list. -/
def mapClassesAll (f : CharClass → CharClass) : List (Expr ρ) → List (Expr ρ)
  | [] => []
  | e :: es => mapClasses f e :: mapClassesAll f es

end

variable (f : CharClass → CharClass)

theorem mapClassesAll_eq_map (es : List (Expr ρ)) :
    mapClassesAll f es = es.map (mapClasses f) := by
  induction es with
  | nil => rfl
  | cons e es ih => exact congrArg (mapClasses f e :: ·) ih

theorem isAnchor_mapClasses (e : Expr ρ) : (e.mapClasses f).isAnchor = e.isAnchor := by
  cases e <;> rfl

/-! ## §2 Joining -/

theorem mapClasses_inSequence (es : List (Expr ρ)) :
    (inSequence es).mapClasses f = inSequence (es.map (mapClasses f)) := by
  match es with
  | [] => rfl
  | [e] => rfl
  | e :: e' :: es => exact congrArg concat (mapClassesAll_eq_map f (e :: e' :: es))

theorem mapClasses_oneOf (es : List (Expr ρ)) :
    (oneOf es).mapClasses f = oneOf (es.map (mapClasses f)) := by
  match es with
  | [] => rfl
  | [e] => rfl
  | e :: e' :: es => exact congrArg alternation (mapClassesAll_eq_map f (e :: e' :: es))

/-! ## §3 Resolving -/

mutual

theorem resolve_mapClasses (g : ρ → Except ε σ) (e : Expr ρ) :
    (e.mapClasses f).resolve g = mapClasses f <$> e.resolve g := by
  cases e with
  | unit | charClass | any | anchor => rfl
  | backreference r => simp [resolve, mapClasses]
  | group index body => simp [resolve, mapClasses, resolve_mapClasses g body]
  | quantified body bounds => simp [resolve, mapClasses, resolve_mapClasses g body]
  | concat items => simp [resolve, mapClasses, resolveAll_mapClassesAll g items]
  | alternation branches => simp [resolve, mapClasses, resolveAll_mapClassesAll g branches]

theorem resolveAll_mapClassesAll (g : ρ → Except ε σ) (es : List (Expr ρ)) :
    resolveAll g (mapClassesAll f es) = mapClassesAll f <$> resolveAll g es := by
  cases es with
  | nil => rfl
  | cons e es =>
    simp [resolveAll, mapClassesAll, resolve_mapClasses g e, resolveAll_mapClassesAll g es]

end

end Expr

/-! ## §4 Patterns -/

/-- The pattern with `f` applied to every class. -/
def Pattern.mapClasses (f : CharClass → CharClass) (p : Pattern) : Pattern :=
  { p with root := p.root.mapClasses f }

end LineRegex
