/-
LineRegex.Regex — the syntax trees of patterns.

A tree is parametrised by what a backreference holds: while a pattern is
being read, groups may be referred to by name or before they exist; in a
finished pattern every backreference holds the number of its group.

  §1 Parts                — repetition bounds, anchors.
  §2 Trees                — `Expr`, and its finished form `Regex`.
  §3 Joining              — sequences and choices of one member add no node.
  §4 Renaming references  — `Expr.resolve`, left to right, first error wins.
-/
import LineRegex.UnitRange

namespace LineRegex

/-! ## §1 Parts -/

/-- How often a quantified tree repeats; without `max` there is no upper limit. -/
structure Bounds where
  min : Nat
  max : Option Nat
  deriving DecidableEq, Repr

/-- A position that matches without consuming anything. -/
inductive Anchor where
  | lineStart
  | lineEnd
  deriving DecidableEq, Repr

/-! ## §2 Trees -/

/-- The syntax tree of a pattern whose backreferences hold a `ρ`. -/
inductive Expr (ρ : Type) where
  /-- Exactly this unit. -/
  | unit (u : CodeUnit)
  /-- One unit of the class. -/
  | charClass (c : CharClass)
  /-- Any one unit that does not end a line. -/
  | any
  /-- Nothing, at the named position. -/
  | anchor (a : Anchor)
  /-- The body; with an index, the span it matched is captured under it. -/
  | group (index : Option Nat) (body : Expr ρ)
  /-- The text last captured by a group. -/
  | backreference (group : ρ)
  /-- The items one after another; no items match the empty text. -/
  | concat (items : List (Expr ρ))
  /-- One of the branches, earlier ones preferred. -/
  | alternation (branches : List (Expr ρ))
  /-- Repetitions of the body, as many as possible first. -/
  | quantified (body : Expr ρ) (bounds : Bounds)

/-- A finished tree: backreferences hold the number of a capturing group. -/
abbrev Regex := Expr Nat

namespace Expr

variable {ρ σ ε : Type}

/-- Whether the tree is an anchor, which leaves nothing to repeat. -/
def isAnchor : Expr ρ → Bool
  | anchor _ => true
  | _ => false

/-- The class at the root of a tree, if it is one. -/
def charClass? : Expr ρ → Option CharClass
  | charClass c => some c
  | _ => none

/-! ## §3 Joining -/

/-- The items in sequence; a single item stands for itself. -/
def inSequence : List (Expr ρ) → Expr ρ
  | [e] => e
  | items => concat items

/-- The branches as a choice; a single branch stands for itself. -/
def oneOf : List (Expr ρ) → Expr ρ
  | [e] => e
  | branches => alternation branches

/-! ## §4 Renaming references -/

mutual

/-- Replaces what every backreference holds, from left to right; the first
one that cannot be replaced decides the error. -/
def resolve (f : ρ → Except ε σ) : Expr ρ → Except ε (Expr σ)
  | unit u => .ok (unit u)
  | charClass c => .ok (charClass c)
  | any => .ok any
  | anchor a => .ok (anchor a)
  | group index body => do return group index (← resolve f body)
  | backreference r => do return backreference (← f r)
  | concat items => do return concat (← resolveAll f items)
  | alternation branches => do return alternation (← resolveAll f branches)
  | quantified body bounds => do return quantified (← resolve f body) bounds

/-- `resolve` for each tree of a list, in order. -/
def resolveAll (f : ρ → Except ε σ) : List (Expr ρ) → Except ε (List (Expr σ))
  | [] => .ok []
  | e :: es => do return (← resolve f e) :: (← resolveAll f es)

end

end Expr

end LineRegex
