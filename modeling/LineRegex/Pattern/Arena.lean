/-
LineRegex.Pattern.Arena — the nodes of a tree as a flat list.

The list is in postorder: children before their parent, left to right, the
root last. A node refers to its children by their places in the list.

  §1 Nodes    — a tree constructor with places instead of subtrees.
  §2 Listing  — `Regex.nodesFrom base` numbers the nodes from `base` on.
-/
import LineRegex.Pattern

namespace LineRegex

/-! ## §1 Nodes -/

/-- One constructor of a tree, with the places of its children. -/
inductive Node where
  | unit (u : CodeUnit)
  | charClass (c : CharClass)
  | any
  | anchor (a : Anchor)
  | group (index : Option Nat) (body : Nat)
  | backreference (group : Nat)
  | concat (items : List Nat)
  | alternation (branches : List Nat)
  | quantified (body : Nat) (bounds : Bounds)
  deriving DecidableEq, Repr

/-! ## §2 Listing -/

namespace Expr

variable {ρ : Type}

mutual

/-- The number of nodes of a tree. -/
def nodeCount : Expr ρ → Nat
  | group _ body => nodeCount body + 1
  | concat items => nodeCountAll items + 1
  | alternation branches => nodeCountAll branches + 1
  | quantified body _ => nodeCount body + 1
  | _ => 1

/-- The number of nodes of several trees. -/
def nodeCountAll : List (Expr ρ) → Nat
  | [] => 0
  | e :: es => nodeCount e + nodeCountAll es

end

/-- The places of the roots when the trees are listed one after another from `base` on. -/
def rootsFrom (base : Nat) : List (Expr ρ) → List Nat
  | [] => []
  | e :: es => (base + e.nodeCount - 1) :: rootsFrom (base + e.nodeCount) es

mutual

/-- The nodes of a tree in postorder, for a list that already holds `base` nodes. -/
def nodesFrom (base : Nat) : Regex → List Node
  | unit u => [.unit u]
  | charClass c => [.charClass c]
  | any => [.any]
  | anchor a => [.anchor a]
  | group index body =>
    nodesFrom base body ++ [.group index (base + body.nodeCount - 1)]
  | backreference n => [.backreference n]
  | concat items => nodesFromAll base items ++ [.concat (rootsFrom base items)]
  | alternation branches =>
    nodesFromAll base branches ++ [.alternation (rootsFrom base branches)]
  | quantified body bounds =>
    nodesFrom base body ++ [.quantified (base + body.nodeCount - 1) bounds]

/-- `nodesFrom` for several trees, one after another. -/
def nodesFromAll (base : Nat) : List Regex → List Node
  | [] => []
  | e :: es => nodesFrom base e ++ nodesFromAll (base + e.nodeCount) es

end

end Expr

/-- The nodes of a pattern in postorder. -/
def Pattern.nodes (p : Pattern) : List Node := p.root.nodesFrom 0

/-- The place of the root among the nodes. -/
def Pattern.rootPlace (p : Pattern) : Nat := p.root.nodeCount - 1

end LineRegex
