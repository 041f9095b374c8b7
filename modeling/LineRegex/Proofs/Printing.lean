/-
LineRegex.Proofs.Printing — writing patterns down.

Every group is written with its own opening and every quantifier in braces.
Digits are written as hexadecimal escapes: behind a backreference a digit
would be read as one more digit of its number.

  §1 Units and classes
  §2 Quantifiers and groups
  §3 Trees
  §4 Canonical patterns      — the patterns that come back when they are parsed.
-/
import LineRegex.Proofs.Everywhere
import LineRegex.Proofs.Grammar.Names
import LineRegex.Proofs.Ranges

namespace LineRegex

/-! ## §1 Units and classes -/

/-- A unit written for itself, where the special units mean something else. -/
def printUnit (special : List CodeUnit) (u : CodeUnit) : List CodeUnit :=
  if u.isDigit then [unit '\\', unit 'x', unit '3', u]
  else if u ∈ special then [unit '\\', u]
  else [u]

/-- The units that may mean something inside brackets. -/
def bracketUnits : List CodeUnit := [unit '\\', unit ']', unit '^', unit '-']

def UnitRange.print (r : UnitRange) : List CodeUnit :=
  if r.lo = r.hi then printUnit bracketUnits r.lo
  else printUnit bracketUnits r.lo ++ unit '-' :: printUnit bracketUnits r.hi

def CharClass.print (c : CharClass) : List CodeUnit :=
  unit '[' :: (if c.negated then [unit '^'] else []) ++ c.ranges.flatMap (·.print) ++ [unit ']']

/-! ## §2 Quantifiers and groups -/

/-- `{m}`, `{m,}` or `{m,n}` -/
def Bounds.print (b : Bounds) : List CodeUnit :=
  unit '\x7b' :: (decimalText b.min).toList ++
    match b.max with
    | none => [unit ',', unit '}']
    | some m =>
      if m = b.min then [unit '}'] else unit ',' :: (decimalText m).toList ++ [unit '}']

/-- The name of a group, if it has one. -/
def NameTable.nameOf? (table : NameTable) (index : Nat) : Option Text :=
  (List.find? (fun e => e.2 == index) table).map (·.1)

/-- `(`, `(?:` or `(?<name>` -/
def printOpening (names : NameTable) : Option Nat → List CodeUnit
  | none => [unit '(', unit '?', unit ':']
  | some g =>
    match names.nameOf? g with
    | none => [unit '(']
    | some name => unit '(' :: unit '?' :: unit '<' :: name.toList ++ [unit '>']

/-! ## §3 Trees -/

mutual

def Expr.print (names : NameTable) : Regex → List CodeUnit
  | .unit u => printUnit Grammar.specialUnits u
  | .charClass c => c.print
  | .any => [unit '.']
  | .anchor .lineStart => [unit '^']
  | .anchor .lineEnd => [unit '$']
  | .group index body => printOpening names index ++ (body.print names ++ [unit ')'])
  | .backreference g => unit '\\' :: (decimalText g).toList
  | .concat items => printAll names items
  | .alternation branches => printBranches names branches
  | .quantified body bounds => body.print names ++ bounds.print

/-- The trees one after another. -/
def printAll (names : NameTable) : List Regex → List CodeUnit
  | [] => []
  | r :: rs => r.print names ++ printAll names rs

/-- The trees with bars between them. -/
def printBranches (names : NameTable) : List Regex → List CodeUnit
  | [] => []
  | [r] => r.print names
  | r :: r' :: rs => r.print names ++ unit '|' :: printBranches names (r' :: rs)

end

/-- The text of a pattern. -/
def Pattern.print (p : Pattern) : Text := (p.root.print p.names).toArray

/-! ## §4 Canonical patterns -/

namespace Expr

variable {ρ : Type}

def IsConcat : Expr ρ → Prop
  | concat _ => True
  | _ => False

def IsAlternation : Expr ρ → Prop
  | alternation _ => True
  | _ => False

/-- The trees that may be repeated without a group around them. -/
def IsRepeatable : Expr ρ → Prop
  | unit _ | charClass _ | any | group _ _ | backreference _ => True
  | anchor _ | concat _ | alternation _ | quantified _ _ => False

theorem not_isConcat {e : Expr ρ} (he : e.IsRepeatable) : ¬ e.IsConcat := by
  cases e <;> first | exact id | exact he.elim

theorem not_isAlternation {e : Expr ρ} (he : e.IsRepeatable) : ¬ e.IsAlternation := by
  cases e <;> first | exact id | exact he.elim

end Expr

/-- The bounds that braces can hold. -/
def Bounds.InBraces (b : Bounds) : Prop :=
  b.min ≤ maxRepeatCount ∧ ∀ m, b.max = some m → b.min ≤ m ∧ m ≤ maxRepeatCount

namespace Expr

/-- The tree has the shape that parsing gives to what it is printed as, if the
trees inside it do. -/
def WellShaped : Regex → Prop
  | charClass c => c.ranges ≠ [] ∧ UnitRange.IsNormal c.ranges
  | concat items => items.length ≠ 1 ∧ ∀ r ∈ items, ¬ r.IsConcat ∧ ¬ r.IsAlternation
  | alternation branches => 2 ≤ branches.length ∧ ∀ r ∈ branches, ¬ r.IsAlternation
  | quantified body bounds => body.IsRepeatable ∧ bounds.InBraces
  | unit _ | any | anchor _ | group _ _ | backreference _ => True

/-- If the tree is a backreference, then to one of the first groups. -/
def RefersWithin (groupCount : Nat) : Regex → Prop
  | backreference g => 1 ≤ g ∧ g ≤ groupCount
  | _ => True

variable {ρ : Type}

mutual

/-- The numbers of the capturing groups, in the order of their openings. -/
def indices : Expr ρ → List Nat
  | group none body => indices body
  | group (some g) body => g :: indices body
  | concat items => indicesAll items
  | alternation branches => indicesAll branches
  | quantified body _ => indices body
  | unit _ | charClass _ | any | anchor _ | backreference _ => []

def indicesAll : List (Expr ρ) → List Nat
  | [] => []
  | r :: rs => indices r ++ indicesAll rs

end

theorem indices_group (index : Option Nat) (body : Expr ρ) :
    (group index body).indices = index.toList ++ body.indices := by
  cases index <;> rfl

mutual

/-- How many groups of any kind lie inside each other. -/
def depth : Expr ρ → Nat
  | group _ body => depth body + 1
  | concat items => depthAll items
  | alternation branches => depthAll branches
  | quantified body _ => depth body
  | unit _ | charClass _ | any | anchor _ | backreference _ => 0

def depthAll : List (Expr ρ) → Nat
  | [] => 0
  | r :: rs => max (depth r) (depthAll rs)

end

end Expr

/-- A pattern in the form that parsing yields. -/
structure Pattern.Canonical (p : Pattern) : Prop where
  shape : p.root.Everywhere Expr.WellShaped
  /-- Groups are numbered in the order of their openings. -/
  numbered : p.root.indices = List.range' 1 p.groupCount
  groupCount : p.groupCount ≤ maxRepeatCount
  references : p.root.Everywhere (Expr.RefersWithin p.groupCount)
  depth : p.root.depth ≤ maxNestingDepth
  /-- Names are sorted, distinct identifiers of distinct groups. -/
  sorted : p.names.Sorted
  identifiers : ∀ e ∈ p.names, Grammar.IsName e.1.toList
  distinct : (p.names.map (·.2)).Nodup
  named : ∀ e ∈ p.names, 1 ≤ e.2 ∧ e.2 ≤ p.groupCount

end LineRegex
