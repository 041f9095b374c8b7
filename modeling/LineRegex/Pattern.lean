/-
LineRegex.Pattern — parsed patterns: a tree, its groups and their names.

  §1 Name tables  — group names with their group numbers, in the order of names.
  §2 Patterns     — what the parser yields and the matcher consumes.
-/
import LineRegex.Regex

namespace LineRegex

/-! ## §1 Name tables -/

/-- Group names and the numbers of their groups, sorted by name. -/
abbrev NameTable := List (Text × Nat)

namespace NameTable

/-- The number of the group with the given name. -/
def find? (table : NameTable) (name : Text) : Option Nat := table.lookup name

/-- Adds a name in its place; the order of names compares unit by unit. -/
def insert (table : NameTable) (name : Text) (index : Nat) : NameTable :=
  match table with
  | [] => [(name, index)]
  | entry :: rest =>
    if name.toList < entry.1.toList then (name, index) :: entry :: rest
    else entry :: insert rest name index

end NameTable

/-! ## §2 Patterns -/

/-- A parsed pattern. Capturing groups are numbered from 1 in the order of
their opening parentheses. -/
structure Pattern where
  root : Regex
  groupCount : Nat
  names : NameTable

/-- A pattern together with the text it was parsed from. -/
structure Compiled where
  source : Text
  pattern : Pattern

/-- The number of the group with the given name. -/
def Compiled.groupIndex (c : Compiled) (name : Text) : Option Nat := c.pattern.names.find? name

end LineRegex
