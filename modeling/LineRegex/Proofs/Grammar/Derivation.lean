/-
LineRegex.Proofs.Grammar.Derivation — the grammar of patterns.

    alternation ::= sequence ('|' sequence)*
    sequence    ::= item*
    item        ::= atom quantifier?  |  '(' opening alternation ')' quantifier?

A derivation is a tree of forms. It spells a text, and it denotes a pattern.
Which derivations there are is said in two steps: what each part must be by
itself and beside its neighbours (`Valid`), and what holds of the whole: how
deep groups nest, that no name is given twice, and that every backreference
means a group (`Reads`, `Resolves`).

  §1 Atoms
  §2 Derivations   — the data, and the units they spell.
  §3 Validity
  §4 Groups        — numbers, names, depth and backreferences.
  §5 Denotation    — the tree, and the whole pattern.
  §6 Membership    — `Alternation.Derives`.
-/
import LineRegex.Proofs.Grammar.Forms

namespace LineRegex.Grammar

/-! ## §1 Atoms -/

inductive Atom where
  | literal (u : CodeUnit)
  | any
  | anchor (a : Anchor)
  | escape (e : EscapeForm)
  /-- `\N` -/
  | reference (digits : List CodeUnit)
  /-- `\k<name>` -/
  | namedReference (name : List CodeUnit)
  | bracket (negated : Bool) (members : List BracketMember)

/-- The units that do not stand for themselves. -/
def specialUnits : List CodeUnit :=
  [unit '(', unit ')', unit '[', unit '.', unit '^', unit '$', unit '\\', unit '|', unit '*',
    unit '+', unit '?', unit '\x7b']

namespace Atom

def first : Atom → CodeUnit
  | literal u => u
  | any => unit '.'
  | anchor .lineStart => unit '^'
  | anchor .lineEnd => unit '$'
  | escape _ | reference _ | namedReference _ => unit '\\'
  | bracket _ _ => unit '['

def tail : Atom → List CodeUnit
  | literal _ | any | anchor _ => []
  | escape e => e.units
  | reference digits => digits
  | namedReference name => unit 'k' :: unit '<' :: name ++ [unit '>']
  | bracket negated members =>
    (if negated then [unit '^'] else []) ++ memberUnits members ++ [unit ']']

/-- A literal is no special unit; `\b` belongs into brackets; `\0` is no
backreference; brackets are not empty, and a caret in front negates them. -/
def Valid : Atom → Prop
  | literal u => u ∉ specialUnits
  | any | anchor _ => True
  | escape e => e.Valid ∧ e ≠ .backspace
  | reference digits => IsNumeral digits ∧ digits.head? ≠ some (unit '0')
  | namedReference name => IsName name
  | bracket negated members =>
    members ≠ [] ∧ ValidMembers members ∧
      (negated = false → (memberUnits members).head? ≠ some (unit '^'))

def IsAnchor : Atom → Prop
  | anchor _ => True
  | _ => False

def IsReference : Atom → Prop
  | reference _ => True
  | _ => False

/-- What the atom refers to. -/
def targets : Atom → List Target
  | reference digits => [.number (decimalValue digits)]
  | namedReference name => [.name name.toArray]
  | _ => []

/-- The tree of an atom at a position; `ref` makes what a backreference holds. -/
def expr {ρ : Type} (w : Width) (ref : Nat → Target → ρ) (position : Nat) : Atom → Expr ρ
  | literal u => .unit u
  | any => .any
  | anchor a => .anchor a
  | escape e =>
    match e.meaning with
    | .single u => .unit u
    | .shorthand s => .charClass ⟨s.ranges w, false⟩
  | reference digits => .backreference (ref position (.number (decimalValue digits)))
  | namedReference name => .backreference (ref position (.name name.toArray))
  | bracket negated members => .charClass (.ofMembers w negated (members.map (·.member)))

end Atom

/-! ## §2 Derivations -/

mutual

inductive Item where
  | atom (a : Atom) (q : Option Quantifier)
  | group (o : Opening) (body : Alternation) (q : Option Quantifier)

/-- One or more sequences with bars between them. -/
inductive Alternation where
  | last (items : List Item)
  | more (items : List Item) (rest : Alternation)

end

mutual

def Item.units : Item → List CodeUnit
  | .atom a q => a.first :: a.tail ++ suffixUnits q
  | .group o body q => unit '(' :: o.units ++ (body.units ++ unit ')' :: suffixUnits q)

def itemUnits : List Item → List CodeUnit
  | [] => []
  | i :: is => i.units ++ itemUnits is

def Alternation.units : Alternation → List CodeUnit
  | .last items => itemUnits items
  | .more items rest => itemUnits items ++ unit '|' :: rest.units

end

/-! ## §3 Validity -/

/-- Whether the next unit could prolong a run of digits. -/
def StartsDigit (units : List CodeUnit) : Prop := ∃ u ∈ units.head?, u.isDigit = true

/-- The item ends with the digits of a backreference. -/
def Item.EndsInDigits : Item → Prop
  | .atom a q => a.IsReference ∧ q = none
  | .group _ _ _ => False

mutual

/-- An anchor takes no quantifier. -/
def Item.Valid : Item → Prop
  | .atom a q => a.Valid ∧ (a.IsAnchor → q = none) ∧ ∀ q' ∈ q, q'.Valid
  | .group o body q => o.Valid ∧ body.Valid ∧ ∀ q' ∈ q, q'.Valid

/-- The digits of a backreference are all that stand there. -/
def ValidItems : List Item → Prop
  | [] => True
  | i :: is => i.Valid ∧ (i.EndsInDigits → ¬ StartsDigit (itemUnits is)) ∧ ValidItems is

def Alternation.Valid : Alternation → Prop
  | .last items => ValidItems items
  | .more items rest => ValidItems items ∧ rest.Valid

end

/-! ## §4 Groups -/

mutual

/-- How many groups of any kind are open at once. -/
def Item.depth : Item → Nat
  | .atom _ _ => 0
  | .group _ body _ => body.depth + 1

def itemsDepth : List Item → Nat
  | [] => 0
  | i :: is => max i.depth (itemsDepth is)

def Alternation.depth : Alternation → Nat
  | .last items => itemsDepth items
  | .more items rest => max (itemsDepth items) rest.depth

end

mutual

/-- The number of capturing groups. -/
def Item.groupCount : Item → Nat
  | .atom _ _ => 0
  | .group o body _ => o.groupCount + body.groupCount

def itemsGroupCount : List Item → Nat
  | [] => 0
  | i :: is => i.groupCount + itemsGroupCount is

def Alternation.groupCount : Alternation → Nat
  | .last items => itemsGroupCount items
  | .more items rest => itemsGroupCount items + rest.groupCount

end

mutual

/-- The names and the numbers of their groups in the order of opening, when
`n` groups come before. -/
def Item.names (n : Nat) : Item → List (Text × Nat)
  | .atom _ _ => []
  | .group o body _ => o.names n ++ body.names (n + o.groupCount)

def itemsNames (n : Nat) : List Item → List (Text × Nat)
  | [] => []
  | i :: is => i.names n ++ itemsNames (n + i.groupCount) is

def Alternation.names (n : Nat) : Alternation → List (Text × Nat)
  | .last items => itemsNames n items
  | .more items rest => itemsNames n items ++ rest.names (n + itemsGroupCount items)

end

mutual

/-- All that backreferences refer to. -/
def Item.targets : Item → List Target
  | .atom a _ => a.targets
  | .group _ body _ => body.targets

def itemsTargets : List Item → List Target
  | [] => []
  | i :: is => i.targets ++ itemsTargets is

def Alternation.targets : Alternation → List Target
  | .last items => itemsTargets items
  | .more items rest => itemsTargets items ++ rest.targets

end

/-! ## §5 Denotation -/

section Denotation

variable {ρ : Type} (w : Width) (ref : Nat → Target → ρ)

mutual

/-- The tree of an item at a position, with `n` groups before it. -/
def Item.expr (position n : Nat) : Item → Expr ρ
  | .atom a q => quantify q (a.expr w ref position)
  | .group o body q =>
    quantify q (.group (o.index n)
      (.oneOf (body.branches (position + 1 + o.units.length) (n + o.groupCount))))

def itemExprs (position n : Nat) : List Item → List (Expr ρ)
  | [] => []
  | i :: is => i.expr position n :: itemExprs (position + i.units.length) (n + i.groupCount) is

def Alternation.branches (position n : Nat) : Alternation → List (Expr ρ)
  | .last items => [.inSequence (itemExprs position n items)]
  | .more items rest =>
    .inSequence (itemExprs position n items) ::
      rest.branches (position + (itemUnits items).length + 1) (n + itemsGroupCount items)

end

end Denotation

/-- A table with further names. -/
def addNames (table : NameTable) (names : List (Text × Nat)) : NameTable :=
  names.foldl (fun t e => t.insert e.1 e.2) table

/-- The number of the group that is referred to. -/
def targetIndex (table : NameTable) : Target → Nat
  | .number n => n
  | .name name => (table.find? name).getD 0

namespace Alternation

def nameTable (a : Alternation) : NameTable := addNames [] (a.names 0)

/-- The pattern that a derivation denotes. -/
def pattern (w : Width) (a : Alternation) : Pattern where
  root := .oneOf (a.branches w (fun _ t => targetIndex a.nameTable t) 0 0)
  groupCount := a.groupCount
  names := a.nameTable

/-! ## §6 Membership -/

/-- The derivation spells the text, groups nest at most as deep as they may,
and each name is given once. -/
structure Reads (a : Alternation) (source : Text) : Prop where
  units : a.units = source.toList
  valid : a.Valid
  depth : a.depth ≤ maxNestingDepth
  names : ((a.names 0).map (·.1)).Nodup

/-- Every backreference means a group of the pattern. -/
def Resolves (a : Alternation) : Prop :=
  ∀ t ∈ a.targets, match t with
    | .number n => n ≤ a.groupCount
    | .name name => name ∈ (a.names 0).map (·.1)

/-- The text belongs to the grammar by this derivation. -/
structure Derives (a : Alternation) (source : Text) : Prop where
  reads : a.Reads source
  resolves : a.Resolves

end Alternation

end LineRegex.Grammar
