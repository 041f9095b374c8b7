/-
LineRegex.Proofs.WellFormed — parsed patterns are well formed.

The matcher looks up nodes by their places and captures by their numbers, and
checks neither. That it may comes from the parser: what it yields is one tree,
listed with children first, whose groups are numbered without gaps and whose
references and names stay within these numbers.

  §1 References    — within a tree, and where they come from.
  §2 Names
  §3 Well-formed patterns — and the arena in which the parser hands them out.
-/
import Mathlib
import LineRegex.Proofs.Descent.Filling
import LineRegex.Proofs.Grammar.References
import LineRegex.Proofs.Grammar.Shape
import LineRegex.Proofs.Listing

namespace LineRegex

open Grammar

/-! ## §1 References -/

namespace Expr

variable {groupCount : Nat}

mutual

/-- A tree refers to the first groups if its references do. -/
theorem everywhere_refersWithin (e : Regex) (h : ∀ g ∈ e.references, 1 ≤ g ∧ g ≤ groupCount) :
    Everywhere (RefersWithin groupCount) e := by
  cases e with
  | unit | charClass | any | anchor => trivial
  | backreference g => exact h g (List.mem_singleton.mpr rfl)
  | group index body => exact ⟨trivial, everywhere_refersWithin body h⟩
  | quantified body bounds => exact ⟨trivial, everywhere_refersWithin body h⟩
  | concat items => exact ⟨trivial, everywhereAll_refersWithin items h⟩
  | alternation branches => exact ⟨trivial, everywhereAll_refersWithin branches h⟩

theorem everywhereAll_refersWithin (es : List Regex)
    (h : ∀ g ∈ referencesAll es, 1 ≤ g ∧ g ≤ groupCount) :
    EverywhereAll (RefersWithin groupCount) es := by
  cases es with
  | nil => trivial
  | cons e es =>
    obtain ⟨he, hes⟩ := List.forall_mem_append.mp h
    exact ⟨everywhere_refersWithin e he, everywhereAll_refersWithin es hes⟩

end

end Expr

namespace Grammar.Alternation

variable {a : Alternation} {source : Text}

/-! ## §2 Names -/

theorem perm_nameTable (a : Alternation) : a.nameTable.Perm (a.names 0) := by
  have hperm := perm_addNames [] (a.names 0)
  rwa [List.append_nil] at hperm

theorem Reads.nodup_names (h : a.Reads source) : (a.nameTable.map (·.1)).Nodup :=
  (a.perm_nameTable.map _).nodup_iff.mpr h.names

/-- No two names are given to one group. -/
theorem nodup_namedGroups (a : Alternation) : (a.nameTable.map (·.2)).Nodup :=
  (a.perm_nameTable.map _).nodup_iff.mpr ((a.sublist_names 0).nodup List.nodup_range')

/-- Names are given to groups of the pattern. -/
theorem namedGroup_within (a : Alternation) :
    ∀ e ∈ a.nameTable, 1 ≤ e.2 ∧ e.2 ≤ a.groupCount := by
  intro e he
  have hmem : e.2 ∈ (a.names 0).map (·.2) :=
    List.mem_map_of_mem (a.perm_nameTable.mem_iff.mp he)
  have hrange := List.mem_range'_1.mp ((a.sublist_names 0).subset hmem)
  omega

theorem mem_of_find? {table : NameTable} {name : Text} {g : Nat}
    (h : table.find? name = some g) : (name, g) ∈ table := by
  induction table with
  | nil => cases h
  | cons e table ih =>
    rw [NameTable.find?_cons] at h
    split at h
    · rename_i hname
      rw [Option.some.injEq] at h
      subst hname h
      exact List.mem_cons_self
    · exact List.mem_cons_of_mem e (ih h)

/-- Whatever a target means is a group of the pattern. -/
theorem groupMeant?_within {t : Target} {g : Nat} (h : a.groupMeant? t = some g) :
    1 ≤ g ∧ g ≤ a.groupCount := by
  cases t with
  | number n =>
    rw [groupMeant?] at h
    split at h
    · rename_i hn
      rw [Option.some.injEq] at h
      rwa [← h]
    · cases h
  | name name => exact a.namedGroup_within _ (mem_of_find? h)

/-- The pattern that a derivation is read as refers to its own groups only. -/
theorem refersWithin_patternRead (w : Width) (h : a.firstUnresolved? = none) :
    (a.patternRead w).root.Everywhere (Expr.RefersWithin a.groupCount) := by
  refine Expr.everywhere_refersWithin _ fun g hg => ?_
  have hmeant : some g ∈ (a.references 0).map fun r => a.groupMeant? r.target.capped := by
    rw [← references_patternRead w h]
    exact List.mem_map_of_mem hg
  obtain ⟨r, -, hr⟩ := List.mem_map.mp hmeant
  exact groupMeant?_within hr

end Grammar.Alternation

/-! ## §3 Well-formed patterns -/

/-- What the matcher relies on in a pattern. -/
structure Pattern.WellFormed (p : Pattern) : Prop where
  /-- The nodes are the tree in postorder, with the root at the end. -/
  listed : Expr.Listed p.nodes 0 p.root p.nodes.length
  rootLast : p.rootPlace + 1 = p.nodes.length
  childrenFirst : ∀ (i : Nat) (node : Node), p.nodes[i]? = some node → ∀ c ∈ node.children, c < i
  childrenApart : ∀ node ∈ p.nodes, node.children.Nodup
  oneParent : ∀ c < p.rootPlace,
    ∃! i : Nat, ∃ node : Node, p.nodes[i]? = some node ∧ c ∈ node.children
  /-- Quantifiers, sequences, choices and classes are as the grammar makes them. -/
  shape : p.root.Everywhere Expr.WellShaped
  /-- Groups are numbered in the order of their openings. -/
  numbered : p.root.indices = List.range' 1 p.groupCount
  references : p.root.Everywhere (Expr.RefersWithin p.groupCount)
  names : (p.names.map (·.1)).Nodup
  namesApart : (p.names.map (·.2)).Nodup
  named : ∀ e ∈ p.names, 1 ≤ e.2 ∧ e.2 ≤ p.groupCount
  depth : p.root.depth ≤ maxNestingDepth

section

variable {w : Width} {source : Text} {p : Pattern}

theorem Pattern.WellFormed.of_parse (h : parse w source = .ok p) : p.WellFormed := by
  obtain ⟨a, ha, hresolved, rfl⟩ := exists_patternRead_of_parse h
  exact {
    listed := Pattern.listed_nodes _
    rootLast := Pattern.rootPlace_succ _
    childrenFirst := fun _ _ hnode _ hc => Pattern.lt_of_mem_children hnode hc
    childrenApart := Pattern.nodup_children _
    oneParent := fun _ hc => Pattern.existsUnique_parent hc
    shape := a.wellShaped_branches w _ 0 0 ha.valid
    numbered := (indices_oneOf _).trans (a.indices_branches w _ 0 0)
    references := Alternation.refersWithin_patternRead w hresolved
    names := ha.nodup_names
    namesApart := a.nodup_namedGroups
    named := a.namedGroup_within
    depth := by
      show (Expr.oneOf _).depth ≤ maxNestingDepth
      rw [depth_oneOf, a.depth_branches]
      exact ha.depth }

theorem Pattern.length_nodes_le (h : parse w source = .ok p) :
    p.nodes.length ≤ 2 * source.size + 1 := by
  obtain ⟨a, ha, -, rfl⟩ := exists_patternRead_of_parse h
  have hsize := a.nodeCount_oneOf_le w (fun _ t => (a.groupMeant? t.capped).getD 0) 0 0
  rw [ha.units, Array.length_toList] at hsize
  rwa [Pattern.length_nodes]

/-- Every parsed pattern is well formed, with at most two nodes for each unit of its text and
one more. The descent that adds the nodes to an arena one by one, and puts those of references
right at the end, comes to just these nodes, with the root at the place said. -/
theorem wellFormed_of_parse (h : parse w source = .ok p) :
    p.WellFormed ∧ p.nodes.length ≤ 2 * source.size + 1 ∧
      ∀ rounds, source.size < rounds →
        ∃ t, Descent.fill w source rounds .initial =
          some (.ok ⟨p.nodes, p.rootPlace, p.groupCount, p.names⟩, t) := by
  refine ⟨.of_parse h, p.length_nodes_le h, fun rounds hrounds => ?_⟩
  have hfill := Descent.fill_eq_parse w source hrounds
  rwa [h] at hfill

end

/-- `(?<x>a|b)\1{2}|[b-da]` -/
def namedOrRange : Pattern where
  root := .alternation
    [.concat [.group (some 1) (.alternation [.unit 97, .unit 98]),
      .quantified (.backreference 1) ⟨2, some 2⟩],
    .charClass ⟨[⟨97, 100⟩], false⟩]
  groupCount := 1
  names := [(#[120], 1)]

/-- Each node stands behind its children, and the ranges of the class are merged; so they do
in the arena, where the reference holds its number. -/
theorem wellFormed_namedOrRange :
    parse .narrow "(?<x>a|b)\\1\x7b2\x7d|[b-da]" = .ok namedOrRange ∧
      namedOrRange.nodes =
        [.unit 97, .unit 98, .alternation [0, 1], .group (some 1) 2, .backreference 1,
          .quantified 4 ⟨2, some 2⟩, .concat [3, 5], .charClass ⟨[⟨97, 100⟩], false⟩,
          .alternation [6, 7]] ∧
      namedOrRange.WellFormed ∧
      ∃ t, Descent.fill .narrow "(?<x>a|b)\\1\x7b2\x7d|[b-da]" 30 .initial =
        some (.ok ⟨namedOrRange.nodes, 8, 1, [(#[120], 1)]⟩, t) := by
  have hparse : parse .narrow "(?<x>a|b)\\1\x7b2\x7d|[b-da]" = .ok namedOrRange := by cbv
  obtain ⟨hformed, -, hfill⟩ := wellFormed_of_parse hparse
  exact ⟨hparse, rfl, hformed, hfill 30 (by decide)⟩

end LineRegex
