/-
LineRegex.Proofs.Wrapping — a non-capturing group is transparent.

To put a pattern into `(?:` and `)` is to put its derivation into a group: the
units around it neither end its alternation early nor lengthen its last atom, and
its groups keep their numbers, its backreferences what they mean. Only the
positions move, and a finished tree does not show them. To the matcher the group
is nothing but its body; so with `$` behind it, what matches from the beginning
of a text is what matches the whole of the text.

  §1 Positions    — a finished tree does not show where it was read.
  §2 Derivations  — the derivation of a pattern in a group.
  §3 Parsing
  §4 Matching
-/
import LineRegex.Pattern.Arena
import LineRegex.Proofs.Backtracking
import LineRegex.Proofs.Grammar.References
import LineRegex.Proofs.Grammar.Shape
import LineRegex.Search

namespace LineRegex

namespace Grammar

/-! ## §1 Positions -/

section Positions

variable {ρ : Type} (w : Width) (f : Target → ρ) (position position' n : Nat)

theorem Atom.expr_position (a : Atom) :
    a.expr w (fun _ => f) position = a.expr w (fun _ => f) position' := by
  cases a <;> rfl

mutual

theorem Item.expr_position (position position' n : Nat) (i : Item) :
    i.expr w (fun _ => f) position n = i.expr w (fun _ => f) position' n := by
  cases i with
  | atom a q => rw [Item.expr, Item.expr, a.expr_position w f position position']
  | group o body q =>
    rw [Item.expr, Item.expr, body.branches_position _ (position' + 1 + o.units.length)]

theorem itemExprs_position (position position' n : Nat) (is : List Item) :
    itemExprs w (fun _ => f) position n is = itemExprs w (fun _ => f) position' n is := by
  cases is with
  | nil => rfl
  | cons i is =>
    rw [itemExprs, itemExprs, i.expr_position position position',
      itemExprs_position _ (position' + i.units.length) _ is]

/-- What does not depend on the position of a reference makes the same trees anywhere. -/
theorem Alternation.branches_position (position position' n : Nat) (a : Alternation) :
    a.branches w (fun _ => f) position n = a.branches w (fun _ => f) position' n := by
  cases a with
  | last items => rw [Alternation.branches, Alternation.branches, itemExprs_position]
  | more items rest =>
    rw [Alternation.branches, Alternation.branches, itemExprs_position position position',
      rest.branches_position _ (position' + (itemUnits items).length + 1)]

end

end Positions

/-! ## §2 Derivations -/

/-- The items have nothing to do with groups, and these are their trees. -/
structure GroupFree (w : Width) (is : List Item) (rs : List Regex) : Prop where
  valid : ValidItems is
  depth : itemsDepth is = 0
  groupCount : itemsGroupCount is = 0
  names : ∀ n, itemsNames n is = []
  targets : itemsTargets is = []
  exprs : ∀ ref position n, itemExprs w ref position n is = rs

theorem groupFree_nil (w : Width) : GroupFree w [] [] :=
  ⟨trivial, rfl, rfl, fun _ => rfl, rfl, fun _ _ _ => rfl⟩

theorem groupFree_lineEnd (w : Width) :
    GroupFree w [.atom (.anchor .lineEnd) none] [.anchor .lineEnd] where
  valid := ⟨⟨trivial, fun _ => rfl, by simp⟩, fun h => h.1.elim, trivial⟩
  depth := rfl
  groupCount := rfl
  names _ := rfl
  targets := rfl
  exprs _ _ _ := rfl

namespace Alternation

theorem firstUnresolved?_eq_none_iff (a : Alternation) :
    a.firstUnresolved? = none ↔ ∀ t ∈ a.targets, (a.groupMeant? t.capped).isSome = true := by
  rw [firstUnresolved?, List.find?_eq_none, ← a.map_target_references 0, List.forall_mem_map]
  exact forall₂_congr fun r _ => by simp [Option.isSome_iff_ne_none]

/-- The derivation in a non-capturing group, with items behind the group. -/
def wrapped (a : Alternation) (behind : List Item) : Alternation :=
  .last (.group .plain a none :: behind)

section Wrapped

variable (a : Alternation) {w : Width} {is : List Item} {rs : List Regex}

theorem units_wrapped :
    (a.wrapped is).units = (Text.ofString "(?:").toList ++ a.units ++ unit ')' :: itemUnits is := by
  have hopening : unit '(' :: Opening.plain.units = (Text.ofString "(?:").toList := rfl
  rw [wrapped, Alternation.units, itemUnits, Item.units, ← hopening]
  simp [suffixUnits]

theorem names_wrapped (his : GroupFree w is rs) : (a.wrapped is).names 0 = a.names 0 := by
  rw [wrapped, Alternation.names, itemsNames, his.names, List.append_nil]
  rfl

theorem groupCount_wrapped (his : GroupFree w is rs) :
    (a.wrapped is).groupCount = a.groupCount := by
  rw [wrapped, Alternation.groupCount, itemsGroupCount, his.groupCount]
  exact Nat.zero_add _

theorem nameTable_wrapped (his : GroupFree w is rs) : (a.wrapped is).nameTable = a.nameTable := by
  rw [nameTable, names_wrapped a his, nameTable]

theorem groupMeant?_wrapped (his : GroupFree w is rs) (t : Target) :
    (a.wrapped is).groupMeant? t = a.groupMeant? t := by
  cases t with
  | number n => rw [groupMeant?, groupMeant?, groupCount_wrapped a his]
  | name name => rw [groupMeant?, groupMeant?, nameTable_wrapped a his]

theorem targets_wrapped (his : GroupFree w is rs) : (a.wrapped is).targets = a.targets := by
  rw [wrapped, Alternation.targets, itemsTargets, his.targets, List.append_nil]
  rfl

/-- A group more nests one level deeper, and that is all. -/
theorem Reads.wrapped {a : Alternation} {source : Text} (h : a.Reads source)
    (hdepth : a.depth < maxNestingDepth) (his : GroupFree w is rs) :
    (a.wrapped is).Reads ("(?:" ++ source ++ (unit ')' :: itemUnits is).toArray) where
  units := by rw [units_wrapped, h.units]; simp
  valid := ⟨⟨trivial, h.valid, by simp⟩, False.elim, his.valid⟩
  depth := by
    show max (a.depth + 1) (itemsDepth is) ≤ maxNestingDepth
    rw [his.depth, Nat.max_zero]
    exact hdepth
  names := by rw [names_wrapped a his]; exact h.names

theorem firstUnresolved?_wrapped (his : GroupFree w is rs) (h : a.firstUnresolved? = none) :
    (a.wrapped is).firstUnresolved? = none := by
  rw [firstUnresolved?_eq_none_iff] at *
  simpa only [targets_wrapped a his, groupMeant?_wrapped a his] using h

/-- The pattern is read into a group without an index. -/
theorem patternRead_wrapped (his : GroupFree w is rs) :
    (a.wrapped is).patternRead w =
      { a.patternRead w with
        root := .inSequence (.group none (a.patternRead w).root :: rs) } := by
  have hroot : (a.wrapped is).branches w (fun _ t => (a.groupMeant? t.capped).getD 0) 0 0 =
      [.inSequence (.group none (a.patternRead w).root :: rs)] := by
    rw [wrapped, branches, itemExprs, his.exprs, Item.expr,
      a.branches_position w (fun t => (a.groupMeant? t.capped).getD 0) _ 0]
    rfl
  simp only [patternRead, groupMeant?_wrapped a his, hroot, groupCount_wrapped a his,
    nameTable_wrapped a his]
  rfl

end Wrapped

end Alternation

/-! ## §3 Parsing -/

/-- What is parsed is parsed in a group too, if the group is not one too many. -/
theorem parse_wrapped {w : Width} {source : Text} {p : Pattern} (h : parse w source = .ok p)
    (hdepth : p.root.depth < maxNestingDepth) {is : List Item} {rs : List Regex}
    (his : GroupFree w is rs) :
    parse w ("(?:" ++ source ++ (unit ')' :: itemUnits is).toArray) =
      .ok { p with root := .inSequence (.group none p.root :: rs) } := by
  obtain ⟨a, ha, hresolved, rfl⟩ := exists_patternRead_of_parse h
  have hdepth' : a.depth < maxNestingDepth := by
    rwa [Alternation.patternRead, depth_oneOf, Alternation.depth_branches] at hdepth
  rw [parse_of_reads w (ha.wrapped hdepth' his), a.firstUnresolved?_wrapped his hresolved,
    ← a.patternRead_wrapped his]

end Grammar

/-! ## §4 Matching -/

namespace Pattern

/-- The pattern in a non-capturing group, with `$` behind it. -/
def beforeLineEnd (p : Pattern) : Pattern :=
  { p with root := .concat [.group none p.root, .anchor .lineEnd] }

variable {p : Pattern}

/-- In front of `$` the outcomes are those that end with the text. -/
theorem outcomes_beforeLineEnd (text : Text) (start : Nat) :
    p.beforeLineEnd.outcomes text start =
      (p.outcomes text start).filter (·.cursor == text.size) := by
  simp only [outcomes, beforeLineEnd, Expr.outcomes, Expr.outcomesInTurn]
  -- the anchor keeps or drops every outcome by itself, so their order does not change
  induction p.root.outcomes text ⟨start, .unset p.groupCount⟩ with
  | nil => rfl
  | cons e es ih =>
    rw [List.flatMap_cons, ih, List.filter_cons]
    by_cases he : e.cursor = text.size <;> simp [he]

/-- To match the whole of a text is to match what stands in front of `$` from
the beginning of the text. -/
theorem fullMatch_eq_matchAt_beforeLineEnd {budget budget' : Nat} {text : Text}
    (hne : (p.fullMatch budget text).verdict ≠ .exceeded)
    (hne' : (p.beforeLineEnd.matchAt budget' text 0).verdict ≠ .exceeded) :
    (p.fullMatch budget text).verdict = (p.beforeLineEnd.matchAt budget' text 0).verdict := by
  have hfull := (p.verdict_attempt (·.cursor == text.size) budget (Nat.zero_le _)).resolve_left hne
  have hat := (p.beforeLineEnd.verdict_attempt (fun _ => true) budget'
    (Nat.zero_le _)).resolve_left hne'
  rw [fullMatch, matchAt, hfull, hat, outcomes_beforeLineEnd, List.find?_filter]
  simp only [and_true, Bool.decide_eq_true]
  rfl

end Pattern

open Grammar

/-- A non-capturing group is transparent. Around a pattern whose groups leave room
for one more it is accepted, as a node without an index over the pattern's root,
with all else as it was. With `$` behind the group it is accepted too, and matches
from the beginning of a text what the pattern matches the whole of the text with. -/
theorem group_is_transparent (w : Width) {source : Text} {p : Pattern}
    (h : parse w source = .ok p) (hdepth : p.root.depth ≤ 255) :
    ∃ q r : Pattern,
      parse w ("(?:" ++ source ++ ")") = .ok q ∧
      q.nodes = p.nodes ++ [.group none p.rootPlace] ∧ q.groupCount = p.groupCount ∧
      q.names = p.names ∧
      parse w ("(?:" ++ source ++ ")$") = .ok r ∧
      ∀ (text : Text) (budget budget' : Nat),
        (fullMatch w source text budget).1 ≠ .budgetExceeded →
        (r.matchAt budget' text 0).verdict ≠ .exceeded →
        (fullMatch w source text budget).2 = (r.matchAt budget' text 0).verdict.matched? := by
  have hroom : p.root.depth < maxNestingDepth := Nat.lt_succ_of_le hdepth
  have hgroup := parse_wrapped h hroom (groupFree_nil w)
  have htoEnd := parse_wrapped h hroom (groupFree_lineEnd w)
  refine ⟨{ p with root := .group none p.root }, p.beforeLineEnd, hgroup, ?_, rfl, rfl, htoEnd, ?_⟩
  · simp [Pattern.nodes, Pattern.rootPlace, Expr.nodesFrom]
  · intro text budget budget' hsuccess hne'
    have hfull : fullMatch w source text budget =
        ((p.fullMatch budget text).verdict.status, (p.fullMatch budget text).verdict.matched?) := by
      rw [fullMatch, h]
    rw [hfull] at hsuccess ⊢
    have hne : (p.fullMatch budget text).verdict ≠ .exceeded := by
      intro hexceeded
      rw [hexceeded] at hsuccess
      exact hsuccess rfl
    exact congrArg Verdict.matched? (Pattern.fullMatch_eq_matchAt_beforeLineEnd hne hne')

/-- `(a)|ab`, which gives its first branch up on all of `ab`. -/
def oneOrBoth : Pattern where
  root := .alternation [.group (some 1) (.unit 97), .concat [.unit 97, .unit 98]]
  groupCount := 1
  names := []

theorem group_is_transparent_oneOrBoth :
    parse .narrow "(a)|ab" = .ok oneOrBoth ∧ oneOrBoth.root.depth ≤ 255 ∧
      ∃ q : Pattern, parse .narrow "(?:(a)|ab)" = .ok q ∧
        q.nodes = [.unit 97, .group (some 1) 0, .unit 97, .unit 98, .concat [2, 3],
          .alternation [1, 4], .group none 5] ∧
        (oneOrBoth.beforeLineEnd.matchAt 100 "ab" 0).verdict.matched? =
          some ⟨"ab", 0, ⟨0, 2⟩, #[none], []⟩ := by
  have hparse : parse .narrow "(a)|ab" = .ok oneOrBoth := by cbv
  have hdepth : oneOrBoth.root.depth ≤ 255 := by decide
  have htoEnd : parse .narrow "(?:(a)|ab)$" = .ok oneOrBoth.beforeLineEnd := by cbv
  have hmatch : fullMatch .narrow "(a)|ab" "ab" 100 =
      (.success, some ⟨"ab", 0, ⟨0, 2⟩, #[none], []⟩) := by cbv
  have hkeeps : (oneOrBoth.beforeLineEnd.matchAt 100 "ab" 0).verdict ≠ .exceeded := by cbv; simp
  obtain ⟨q, r, hq, hnodes, -, -, hr, hagree⟩ := group_is_transparent .narrow hparse hdepth
  obtain rfl : oneOrBoth.beforeLineEnd = r := by
    have hsame := htoEnd.symm.trans hr
    rwa [Except.ok.injEq] at hsame
  refine ⟨hparse, hdepth, q, hq, hnodes, ?_⟩
  rw [← hagree "ab" 100 100 (by simp [hmatch]) hkeeps, hmatch]

end LineRegex
