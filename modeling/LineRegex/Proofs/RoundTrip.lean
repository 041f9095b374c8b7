/-
LineRegex.Proofs.RoundTrip — what is printed is parsed to what it was.

The text of a canonical pattern has a derivation, built along the tree, that
denotes the tree. Positions do not matter for that, since the references of
the tree are numbers; what does matter is how many groups come before, and
`Numbered` says that the numbers in the tree agree with it.

  §1 Groups          — their numbers and names.
  §2 Sequences       — items that spell and denote a list of trees.
  §3 Alternations    — the same for branches.
  §4 Trees           — by recursion, every tree has such a derivation.
  §5 Patterns
-/
import Mathlib.Data.List.Nodup
import LineRegex.Proofs.Grammar.Parsing
import LineRegex.Proofs.PrintedForms

namespace LineRegex

open Grammar

/-! ## §1 Groups -/

/-- The groups are numbered on from `n`. -/
def Numbered (n : Nat) : List Nat → Prop
  | [] => True
  | g :: gs => g = n + 1 ∧ Numbered (n + 1) gs

theorem numbered_append {n : Nat} {gs gs' : List Nat} :
    Numbered n (gs ++ gs') ↔ Numbered n gs ∧ Numbered (n + gs.length) gs' := by
  induction gs generalizing n with
  | nil => simp [Numbered]
  | cons g gs ih => simp [Numbered, ih, and_assoc, Nat.add_assoc, Nat.add_comm 1]

theorem numbered_range' (n k : Nat) : Numbered n (List.range' (n + 1) k) := by
  induction k generalizing n with
  | zero => trivial
  | succ k ih => exact ⟨rfl, ih (n + 1)⟩

/-- The names that groups are given, with the numbers of the groups. -/
def givenNames (names : NameTable) (gs : List Nat) : List (Text × Nat) :=
  gs.filterMap fun g => (names.nameOf? g).map fun name => (name, g)

theorem givenNames_append (names : NameTable) (gs gs' : List Nat) :
    givenNames names (gs ++ gs') = givenNames names gs ++ givenNames names gs' :=
  List.filterMap_append

theorem opening_index (names : NameTable) {index : Option Nat} {n : Nat} {gs : List Nat}
    (h : Numbered n (index.toList ++ gs)) : (opening names index).index n = index := by
  cases index with
  | none => rfl
  | some g =>
    obtain rfl : g = n + 1 := h.1
    simp only [opening]
    cases names.nameOf? (n + 1) <;> rfl

theorem opening_groupCount (names : NameTable) (index : Option Nat) :
    (opening names index).groupCount = index.toList.length := by
  cases index with
  | none => rfl
  | some g =>
    simp only [opening]
    cases names.nameOf? g <;> rfl

theorem opening_names (names : NameTable) {index : Option Nat} {n : Nat} {gs : List Nat}
    (h : Numbered n (index.toList ++ gs)) :
    (opening names index).names n = givenNames names index.toList := by
  cases index with
  | none => rfl
  | some g =>
    obtain rfl : g = n + 1 := h.1
    simp only [opening, givenNames, Option.toList_some, List.filterMap_cons]
    cases names.nameOf? (n + 1) <;> rfl

/-! ## §2 Sequences -/

/-- The tree repeated, if there are bounds. -/
def Expr.repeated {ρ : Type} (bounds : Option Bounds) (r : Expr ρ) : Expr ρ :=
  match bounds with
  | none => r
  | some b => .quantified r b

section Repeated

variable (bounds : Option Bounds) (r : Regex)

theorem quantify_map_quantifier : quantify (bounds.map (·.quantifier)) r = r.repeated bounds := by
  cases bounds with
  | none => rfl
  | some b => simp [quantify, Expr.repeated, b.quantifier_bounds]

theorem print_repeated (names : NameTable) : (r.repeated bounds).print names =
    r.print names ++ suffixUnits (bounds.map (·.quantifier)) := by
  cases bounds with
  | none => simp [Expr.repeated, suffixUnits]
  | some b => simp [Expr.repeated, Expr.print, suffixUnits, b.quantifier_units]

theorem indices_repeated : (r.repeated bounds).indices = r.indices := by
  cases bounds <;> rfl

theorem depth_repeated : (r.repeated bounds).depth = r.depth := by
  cases bounds <;> rfl

end Repeated

theorem quantifiers_valid {bounds : Option Bounds} (h : ∀ b ∈ bounds, b.InBraces) :
    ∀ q ∈ bounds.map (·.quantifier), q.Valid := by
  intro q hq
  obtain ⟨b, hb, rfl⟩ := Option.map_eq_some_iff.mp hq
  exact Bounds.quantifier_valid (h b hb)

/-- The items spell and denote the trees, whose groups have the given names
and whose backreferences go to the first groups. -/
structure ItemsPrint (names : NameTable) (groupCount : Nat) (is : List Item) (rs : List Regex) :
    Prop where
  units : itemUnits is = printAll names rs
  valid : ValidItems is
  /-- No backreference in front is prolonged. -/
  front : ¬ StartsDigit (itemUnits is)
  depth : itemsDepth is = Expr.depthAll rs
  count : itemsGroupCount is = (Expr.indicesAll rs).length
  targets : ∀ t ∈ itemsTargets is, ∃ k ≤ groupCount, t = .number k
  given : ∀ n, Numbered n (Expr.indicesAll rs) →
    itemsNames n is = givenNames names (Expr.indicesAll rs)
  exprs : ∀ (w : Width) (table : NameTable) (position n : Nat), Numbered n (Expr.indicesAll rs) →
    itemExprs w (fun _ t => targetIndex table t) position n is = rs

section Sequences

variable {names : NameTable} {groupCount : Nat}

theorem ItemsPrint.nil : ItemsPrint names groupCount [] [] where
  units := rfl
  valid := trivial
  front := not_startsDigit_nil
  depth := rfl
  count := rfl
  targets := by simp [itemsTargets]
  given := fun _ _ => rfl
  exprs := fun _ _ _ _ _ => rfl

theorem ItemsPrint.cons {i : Item} {r : Regex} {is : List Item} {rs : List Regex}
    (h : ItemsPrint names groupCount [i] [r]) (hs : ItemsPrint names groupCount is rs) :
    ItemsPrint names groupCount (i :: is) (r :: rs) := by
  have hunits := h.units
  have hfront := h.front
  have hdepth := h.depth
  have hcount := h.count
  have htargets := h.targets
  have hgiven := h.given
  have hexprs := h.exprs
  simp only [itemUnits, printAll, itemsDepth, itemsGroupCount, itemsTargets, itemsNames, itemExprs,
    Expr.depthAll, Expr.indicesAll, List.append_nil, Nat.add_zero, Nat.max_zero,
    List.cons.injEq, and_true] at hunits hfront hdepth hcount htargets hgiven hexprs
  refine ⟨?_, ⟨h.valid.1, fun _ => hs.front, hs.valid⟩, startsDigit_append hfront hs.front, ?_, ?_,
    ?_, ?_, ?_⟩
  · rw [itemUnits, hunits, hs.units, printAll]
  · rw [itemsDepth, hdepth, hs.depth, Expr.depthAll]
  · rw [itemsGroupCount, hcount, hs.count, Expr.indicesAll, List.length_append]
  · rw [itemsTargets, List.forall_mem_append]
    exact ⟨htargets, hs.targets⟩
  · intro n hn
    obtain ⟨hfirst, hothers⟩ := numbered_append.mp hn
    rw [itemsNames, hgiven n hfirst, hcount, hs.given _ hothers, Expr.indicesAll,
      givenNames_append]
  · intro w table position n hn
    obtain ⟨hfirst, hothers⟩ := numbered_append.mp hn
    rw [itemExprs, hexprs w table position n hfirst, hcount, hs.exprs w table _ _ hothers]

/-- An atom, repeated or not. -/
theorem itemsPrint_atom {a : Atom} {r : Regex} {bounds : Option Bounds} (ha : a.Valid)
    (hanchor : a.IsAnchor → bounds = none) (hbounds : ∀ b ∈ bounds, b.InBraces)
    (hunits : a.first :: a.tail = r.print names) (hfront : a.first.isDigit = false)
    (hdepth : r.depth = 0) (hindices : r.indices = [])
    (htargets : ∀ t ∈ a.targets, ∃ k ≤ groupCount, t = .number k)
    (hexpr : ∀ (w : Width) (table : NameTable) (position : Nat),
      a.expr w (fun _ t => targetIndex table t) position = r) :
    ItemsPrint names groupCount [.atom a (bounds.map (·.quantifier))] [r.repeated bounds] where
  units := by
    simp only [itemUnits, Item.units, printAll, print_repeated, List.append_nil, ← hunits]
  valid := by
    have hnone : a.IsAnchor → bounds.map (·.quantifier) = none := fun h => by rw [hanchor h]; rfl
    exact ⟨⟨ha, hnone, quantifiers_valid hbounds⟩, fun _ => not_startsDigit_nil, trivial⟩
  front := not_startsDigit_cons hfront
  depth := by simp [itemsDepth, Item.depth, Expr.depthAll, depth_repeated, hdepth]
  count := by simp [itemsGroupCount, Item.groupCount, Expr.indicesAll, indices_repeated, hindices]
  targets := by simpa [itemsTargets, Item.targets] using htargets
  given := by
    simp [itemsNames, Item.names, Expr.indicesAll, indices_repeated, hindices, givenNames]
  exprs := by
    intro w table position n _
    rw [itemExprs, itemExprs, Item.expr, hexpr, quantify_map_quantifier]

end Sequences

/-! ## §3 Alternations -/

/-- The branches spell and denote the trees. -/
structure BranchesPrint (names : NameTable) (groupCount : Nat) (a : Alternation)
    (rs : List Regex) : Prop where
  units : a.units = printBranches names rs
  valid : a.Valid
  depth : a.depth = Expr.depthAll rs
  count : a.groupCount = (Expr.indicesAll rs).length
  targets : ∀ t ∈ a.targets, ∃ k ≤ groupCount, t = .number k
  given : ∀ n, Numbered n (Expr.indicesAll rs) →
    a.names n = givenNames names (Expr.indicesAll rs)
  exprs : ∀ (w : Width) (table : NameTable) (position n : Nat), Numbered n (Expr.indicesAll rs) →
    a.branches w (fun _ t => targetIndex table t) position n = rs

namespace Expr

/-- The items that a tree is a sequence of. -/
def itemList : Regex → List Regex
  | concat items => items
  | r => [r]

/-- The branches that a tree is a choice of. -/
def branchList : Regex → List Regex
  | alternation branches => branches
  | r => [r]

theorem itemList_eq {r : Regex} (hr : ¬ r.IsConcat) : r.itemList = [r] := by
  cases r with
  | concat => exact absurd trivial hr
  | _ => rfl

theorem branchList_eq {r : Regex} (hr : ¬ r.IsAlternation) : r.branchList = [r] := by
  cases r with
  | alternation => exact absurd trivial hr
  | _ => rfl

theorem print_itemList (names : NameTable) (r : Regex) :
    printAll names r.itemList = r.print names := by
  cases r with
  | concat items => rfl
  | _ => simp [itemList, printAll]

theorem indices_itemList (r : Regex) : indicesAll r.itemList = r.indices := by
  cases r with
  | concat items => rfl
  | _ => simp [itemList, indicesAll]

theorem depth_itemList (r : Regex) : depthAll r.itemList = r.depth := by
  cases r with
  | concat items => rfl
  | _ => simp [itemList, depthAll]

theorem inSequence_itemList {r : Regex} (hr : r.WellShaped) : inSequence r.itemList = r := by
  cases r with
  | concat items => exact inSequence_eq_concat hr.1
  | _ => rfl

theorem print_branchList (names : NameTable) (r : Regex) :
    printBranches names r.branchList = r.print names := by
  cases r <;> rfl

theorem indices_branchList (r : Regex) : indicesAll r.branchList = r.indices := by
  cases r with
  | alternation branches => rfl
  | _ => simp [branchList, indicesAll]

theorem depth_branchList (r : Regex) : depthAll r.branchList = r.depth := by
  cases r with
  | alternation branches => rfl
  | _ => simp [branchList, depthAll]

theorem oneOf_branchList {r : Regex} (hr : r.WellShaped) : oneOf r.branchList = r := by
  cases r with
  | alternation branches =>
    have hmany : 2 ≤ branches.length := hr.1
    exact oneOf_eq_alternation (Nat.ne_of_gt hmany)
  | _ => rfl

end Expr

section Alternations

variable {names : NameTable} {groupCount : Nat}

theorem BranchesPrint.last {is : List Item} {r : Regex} (hr : r.WellShaped)
    (h : ItemsPrint names groupCount is r.itemList) :
    BranchesPrint names groupCount (.last is) [r] where
  units := by rw [Alternation.units, h.units, r.print_itemList, printBranches]
  valid := h.valid
  depth := by
    rw [Alternation.depth, h.depth, r.depth_itemList, Expr.depthAll, Expr.depthAll, Nat.max_zero]
  count := by
    rw [Alternation.groupCount, h.count, r.indices_itemList, Expr.indicesAll, Expr.indicesAll,
      List.append_nil]
  targets := h.targets
  given := by
    intro n hn
    rw [Expr.indicesAll, Expr.indicesAll, List.append_nil, ← r.indices_itemList] at hn ⊢
    exact h.given n hn
  exprs := by
    intro w table position n hn
    rw [Expr.indicesAll, Expr.indicesAll, List.append_nil, ← r.indices_itemList] at hn
    rw [Alternation.branches, h.exprs w table position n hn, Expr.inSequence_itemList hr]

theorem BranchesPrint.more {is : List Item} {r : Regex} {a : Alternation} {rs : List Regex}
    (hr : r.WellShaped) (hne : rs ≠ []) (h : ItemsPrint names groupCount is r.itemList)
    (hs : BranchesPrint names groupCount a rs) :
    BranchesPrint names groupCount (.more is a) (r :: rs) where
  units := by
    rw [Alternation.units, h.units, hs.units, r.print_itemList]
    cases rs with
    | nil => exact absurd rfl hne
    | cons r' rs => rw [printBranches]
  valid := ⟨h.valid, hs.valid⟩
  depth := by rw [Alternation.depth, h.depth, hs.depth, r.depth_itemList, Expr.depthAll]
  count := by
    rw [Alternation.groupCount, h.count, hs.count, r.indices_itemList, Expr.indicesAll,
      List.length_append]
  targets := by
    rw [Alternation.targets, List.forall_mem_append]
    exact ⟨h.targets, hs.targets⟩
  given := by
    intro n hn
    rw [Expr.indicesAll, numbered_append, ← r.indices_itemList] at hn
    rw [Alternation.names, h.given n hn.1, h.count, hs.given _ hn.2, Expr.indicesAll,
      r.indices_itemList, givenNames_append]
  exprs := by
    intro w table position n hn
    rw [Expr.indicesAll, numbered_append, ← r.indices_itemList] at hn
    rw [Alternation.branches, h.exprs w table position n hn.1, h.count,
      hs.exprs w table _ _ hn.2, Expr.inSequence_itemList hr]

/-- A group, repeated or not. -/
theorem itemsPrint_group {index : Option Nat} {body : Regex} {a : Alternation}
    {bounds : Option Bounds} (hnames : ∀ e ∈ names, IsName e.1.toList)
    (hbounds : ∀ b ∈ bounds, b.InBraces) (hbody : body.WellShaped)
    (h : BranchesPrint names groupCount a body.branchList) :
    ItemsPrint names groupCount [.group (opening names index) a (bounds.map (·.quantifier))]
      [(Expr.group index body).repeated bounds] where
  units := by
    simp [itemUnits, Item.units, h.units, body.print_branchList, printAll, print_repeated,
      Expr.print, ← opening_units]
  valid := ⟨⟨opening_valid hnames index, h.valid, quantifiers_valid hbounds⟩, False.elim, trivial⟩
  front := not_startsDigit_cons rfl
  depth := by
    simp [itemsDepth, Item.depth, h.depth, body.depth_branchList, Expr.depthAll, depth_repeated,
      Expr.depth]
  count := by
    simp [itemsGroupCount, Item.groupCount, opening_groupCount, h.count, body.indices_branchList,
      Expr.indicesAll, indices_repeated, Expr.indices_group]
  targets := by simpa [itemsTargets, Item.targets] using h.targets
  given := by
    intro n hn
    rw [Expr.indicesAll, Expr.indicesAll, List.append_nil, indices_repeated,
      Expr.indices_group] at hn ⊢
    have hinner := (numbered_append.mp hn).2
    rw [← body.indices_branchList] at hinner
    rw [itemsNames, itemsNames, List.append_nil, Item.names, opening_names names hn,
      opening_groupCount, h.given _ hinner, body.indices_branchList, givenNames_append]
  exprs := by
    intro w table position n hn
    rw [Expr.indicesAll, Expr.indicesAll, List.append_nil, indices_repeated,
      Expr.indices_group] at hn
    have hinner := (numbered_append.mp hn).2
    rw [← body.indices_branchList] at hinner
    rw [itemExprs, itemExprs, Item.expr, opening_index names hn, opening_groupCount,
      h.exprs w table _ _ hinner, Expr.oneOf_branchList hbody, quantify_map_quantifier]

end Alternations

/-! ## §4 Trees -/

section Trees

variable {names : NameTable} {groupCount : Nat}

/-- Backreferences are printed as their number. -/
theorem reference_valid {g : Nat} (hg : 1 ≤ g) :
    (Atom.reference (decimalText g).toList).Valid :=
  ⟨isNumeral_decimalText g, head?_decimalText hg⟩

/-- What a canonical pattern says of every tree inside it. -/
structure Printable (groupCount : Nat) (r : Regex) : Prop where
  shape : r.Everywhere Expr.WellShaped
  references : r.Everywhere (Expr.RefersWithin groupCount)

mutual

theorem exists_item (hnames : ∀ e ∈ names, IsName e.1.toList) (r : Regex)
    (hr : Printable groupCount r) (hconcat : ¬ r.IsConcat) (halternation : ¬ r.IsAlternation)
    (bounds : Option Bounds) (hbounds : ∀ b ∈ bounds, b.InBraces ∧ r.IsRepeatable) :
    ∃ i, ItemsPrint names groupCount [i] [r.repeated bounds] := by
  have hbraces : ∀ b ∈ bounds, b.InBraces := fun b hb => (hbounds b hb).1
  have hnone : ¬ r.IsRepeatable → bounds = none := fun h =>
    Option.eq_none_iff_forall_not_mem.mpr fun b hb => h (hbounds b hb).2
  match r with
  | .unit u =>
    obtain ⟨hvalid, hanchor, hdigit, htargets⟩ := unitAtom_valid u
    exact ⟨_, itemsPrint_atom hvalid (fun h => absurd h hanchor) hbraces (unitAtom_units u) hdigit
      rfl rfl (by simp [htargets]) fun w table position => unitAtom_expr w _ position u⟩
  | .charClass c =>
    obtain ⟨hne, hnormal⟩ := hr.shape.root
    exact ⟨_, itemsPrint_atom (classAtom_valid hne hnormal) False.elim hbraces (classAtom_units c)
      rfl rfl rfl (by simp [classAtom, Atom.targets])
      fun w table position => classAtom_expr w hnormal _ position⟩
  | .any =>
    exact ⟨_, itemsPrint_atom (a := .any) trivial False.elim hbraces rfl rfl rfl rfl
      (by simp [Atom.targets]) fun _ _ _ => rfl⟩
  | .anchor a =>
    have hdigit : (Atom.anchor a).first.isDigit = false := by cases a <;> rfl
    have hunits : (Atom.anchor a).first :: (Atom.anchor a).tail = (Expr.anchor a).print names := by
      cases a <;> rfl
    exact ⟨_, itemsPrint_atom (a := .anchor a) trivial (fun _ => hnone id) hbraces hunits hdigit
      rfl rfl (by simp [Atom.targets]) fun _ _ _ => rfl⟩
  | .backreference g =>
    obtain ⟨hpos, hle⟩ := hr.references.root
    have htargets : ∀ t ∈ (Atom.reference (decimalText g).toList).targets,
        ∃ k ≤ groupCount, t = .number k := by
      intro t ht
      rw [Atom.targets, decimalValue_decimalText, List.mem_singleton] at ht
      exact ⟨g, hle, ht⟩
    exact ⟨_, itemsPrint_atom (reference_valid hpos) False.elim hbraces rfl rfl rfl rfl htargets
      fun w table position => by rw [Atom.expr, decimalValue_decimalText, targetIndex]⟩
  | .group index body =>
    have hbody : Printable groupCount body := ⟨hr.shape.2, hr.references.2⟩
    obtain ⟨a, ha⟩ := exists_alternation hnames body hbody
    exact ⟨_, itemsPrint_group hnames hbraces hbody.shape.root ha⟩
  | .quantified body b =>
    obtain ⟨hrep, hb⟩ := hr.shape.1
    have hbody : Printable groupCount body := ⟨hr.shape.2, hr.references.2⟩
    rw [hnone id]
    exact exists_item hnames body hbody (Expr.not_isConcat hrep) (Expr.not_isAlternation hrep)
      (some b) (by rintro _ ⟨⟩; exact ⟨hb, hrep⟩)
  | .concat items => exact absurd trivial hconcat
  | .alternation branches => exact absurd trivial halternation
termination_by (sizeOf r, 0)

theorem exists_items (hnames : ∀ e ∈ names, IsName e.1.toList) (rs : List Regex)
    (hrs : ∀ r ∈ rs, Printable groupCount r ∧ ¬ r.IsConcat ∧ ¬ r.IsAlternation) :
    ∃ is, ItemsPrint names groupCount is rs := by
  match rs with
  | [] => exact ⟨[], .nil⟩
  | r :: rs =>
    obtain ⟨⟨hr, hconcat, halternation⟩, hrs⟩ := List.forall_mem_cons.mp hrs
    obtain ⟨i, hi⟩ := exists_item hnames r hr hconcat halternation none (by simp)
    obtain ⟨is, his⟩ := exists_items hnames rs hrs
    exact ⟨i :: is, hi.cons his⟩
termination_by (sizeOf rs, 1)

theorem exists_sequence (hnames : ∀ e ∈ names, IsName e.1.toList) (r : Regex)
    (hr : Printable groupCount r) (halternation : ¬ r.IsAlternation) :
    ∃ is, ItemsPrint names groupCount is r.itemList := by
  by_cases hconcat : r.IsConcat
  · match r with
    | .concat items =>
      apply exists_items hnames items
      intro r' hr'
      obtain ⟨hc, ha⟩ := hr.shape.1.2 r' hr'
      exact ⟨⟨(Expr.everywhereAll_iff items).mp hr.shape.2 r' hr',
        (Expr.everywhereAll_iff items).mp hr.references.2 r' hr'⟩, hc, ha⟩
  · obtain ⟨i, hi⟩ := exists_item hnames r hr hconcat halternation none (by simp)
    rw [Expr.itemList_eq hconcat]
    exact ⟨[i], hi⟩
termination_by (sizeOf r, 2)

theorem exists_branches (hnames : ∀ e ∈ names, IsName e.1.toList) (rs : List Regex) (hne : rs ≠ [])
    (hrs : ∀ r ∈ rs, Printable groupCount r ∧ ¬ r.IsAlternation) :
    ∃ a, BranchesPrint names groupCount a rs := by
  match rs with
  | [] => exact absurd rfl hne
  | r :: rs =>
    obtain ⟨⟨hr, halternation⟩, hrs⟩ := List.forall_mem_cons.mp hrs
    obtain ⟨is, his⟩ := exists_sequence hnames r hr halternation
    by_cases hlast : rs = []
    · subst hlast
      exact ⟨_, .last hr.shape.root his⟩
    · obtain ⟨a, ha⟩ := exists_branches hnames rs hlast hrs
      exact ⟨_, .more hr.shape.root hlast his ha⟩
termination_by (sizeOf rs, 3)

/-- What a tree is printed as has a derivation that denotes the tree. -/
theorem exists_alternation (hnames : ∀ e ∈ names, IsName e.1.toList) (r : Regex)
    (hr : Printable groupCount r) : ∃ a, BranchesPrint names groupCount a r.branchList := by
  by_cases halternation : r.IsAlternation
  · match r with
    | .alternation branches =>
      have hmany : 2 ≤ branches.length := hr.shape.1.1
      apply exists_branches hnames branches (by rintro rfl; simp at hmany)
      intro r' hr'
      exact ⟨⟨(Expr.everywhereAll_iff branches).mp hr.shape.2 r' hr',
        (Expr.everywhereAll_iff branches).mp hr.references.2 r' hr'⟩, hr.shape.1.2 r' hr'⟩
  · obtain ⟨is, his⟩ := exists_sequence hnames r hr halternation
    rw [Expr.branchList_eq halternation]
    exact ⟨_, .last hr.shape.root his⟩
termination_by (sizeOf r, 4)

end

end Trees

/-! ## §5 Patterns -/

theorem nameOf?_eq_some_iff {names : NameTable} (hdistinct : (names.map (·.2)).Nodup) {g : Nat}
    {name : Text} : names.nameOf? g = some name ↔ (name, g) ∈ names := by
  refine ⟨mem_of_nameOf?, ?_⟩
  intro hmem
  have hsome : (List.find? (fun e => e.2 == g) names).isSome = true :=
    List.find?_isSome.mpr ⟨(name, g), hmem, by simp⟩
  obtain ⟨e, he⟩ := Option.isSome_iff_exists.mp hsome
  have hg : e.2 = g := by simpa using List.find?_some he
  have heq : e = (name, g) :=
    List.inj_on_of_nodup_map hdistinct (List.mem_of_find?_eq_some he) hmem hg
  rw [NameTable.nameOf?, he, Option.map_some, heq]

/-- The groups in their order are given the names of the table. -/
theorem perm_givenNames {p : Pattern} (hp : p.Canonical) :
    (givenNames p.names (List.range' 1 p.groupCount)).Perm p.names := by
  have hmem : ∀ e, e ∈ givenNames p.names (List.range' 1 p.groupCount) ↔ e ∈ p.names := by
    rintro ⟨name, g⟩
    rw [givenNames, List.mem_filterMap]
    constructor
    · rintro ⟨g', -, hname⟩
      obtain ⟨name', hname', heq⟩ := Option.map_eq_some_iff.mp hname
      rw [← heq]
      exact mem_of_nameOf? hname'
    · intro hmem
      obtain ⟨hlow, hhigh⟩ := hp.named _ hmem
      refine ⟨g, List.mem_range'_1.mpr ⟨hlow, by omega⟩, ?_⟩
      rw [(nameOf?_eq_some_iff hp.distinct).mpr hmem, Option.map_some]
  have hnodup : (givenNames p.names (List.range' 1 p.groupCount)).Nodup := by
    refine List.Nodup.filterMap ?_ List.nodup_range'
    intro g g' e he he'
    obtain ⟨name, -, rfl⟩ := Option.map_eq_some_iff.mp he
    obtain ⟨name', -, heq⟩ := Option.map_eq_some_iff.mp he'
    exact (Prod.mk.inj heq).2.symm
  exact (List.perm_ext_iff_of_nodup hnodup (List.Nodup.of_map _ hp.distinct)).mpr hmem

/-- What a canonical pattern is printed as is parsed to the pattern. -/
theorem parse_print (w : Width) {p : Pattern} (hp : p.Canonical) : parse w p.print = .ok p := by
  obtain ⟨a, ha⟩ := exists_alternation hp.identifiers p.root ⟨hp.shape, hp.references⟩
  have hcount : a.groupCount = p.groupCount := by
    rw [ha.count, Expr.indices_branchList, hp.numbered, List.length_range']
  have hnumbered : Numbered 0 (Expr.indicesAll p.root.branchList) := by
    rw [Expr.indices_branchList, hp.numbered]
    exact numbered_range' 0 p.groupCount
  have hnames : a.names 0 = givenNames p.names (List.range' 1 p.groupCount) := by
    rw [ha.given 0 hnumbered, Expr.indices_branchList, hp.numbered]
  have htable : a.nameTable = p.names := by
    rw [Alternation.nameTable, hnames]
    exact addNames_eq_of_perm hp.sorted (perm_givenNames hp)
  have hderives : a.Derives p.print := by
    refine ⟨⟨?_, ha.valid, ?_, ?_⟩, ?_⟩
    · rw [ha.units, Expr.print_branchList, Pattern.print]
    · rw [ha.depth, Expr.depth_branchList]
      exact hp.depth
    · rw [hnames, ((perm_givenNames hp).map _).nodup_iff]
      exact hp.sorted.nodup
    · intro t ht
      obtain ⟨k, hk, rfl⟩ := ha.targets t ht
      rwa [hcount]
  rw [parse_of_derives w hderives (by rw [hcount]; exact hp.groupCount), Alternation.pattern,
    ha.exprs w _ 0 0 hnumbered, Expr.oneOf_branchList hp.shape.root, hcount, htable]

/-- `(?<x>[^a-c])|\1{2,}0` -/
def classOrTwice : Pattern where
  root := .alternation [.group (some 1) (.charClass ⟨[⟨unit 'a', unit 'c'⟩], true⟩),
    .concat [.quantified (.backreference 1) ⟨2, none⟩, .unit (unit '0')]]
  groupCount := 1
  names := [(#[unit 'x'], 1)]

theorem classOrTwice_canonical : classOrTwice.Canonical where
  shape := by
    have hrange : unit 'a' ≤ unit 'c' := by decide
    simp [classOrTwice, hrange, Expr.Everywhere, Expr.EverywhereAll, Expr.WellShaped,
      UnitRange.IsNormal, Expr.IsConcat, Expr.IsAlternation, Expr.IsRepeatable, Bounds.InBraces,
      maxRepeatCount]
  numbered := by decide
  groupCount := by decide
  references := by
    simp [classOrTwice, Expr.Everywhere, Expr.EverywhereAll, Expr.RefersWithin]
  depth := by decide
  sorted := List.pairwise_singleton _ _
  identifiers := by
    have hx : CodeUnit.isAlpha (unit 'x') = true := by decide
    simp [classOrTwice, IsName, hx]
  distinct := by decide
  named := by simp [classOrTwice]

theorem parse_print_classOrTwice :
    classOrTwice.Canonical ∧ classOrTwice.print = "(?<x>[^a-c])|\\1\x7b2,\x7d\\x30" ∧
      parse .narrow "(?<x>[^a-c])|\\1\x7b2,\x7d\\x30" = .ok classOrTwice := by
  have hprint : classOrTwice.print = "(?<x>[^a-c])|\\1\x7b2,\x7d\\x30" := by decide
  have hparse := parse_print .narrow classOrTwice_canonical
  rw [hprint] at hparse
  exact ⟨classOrTwice_canonical, hprint, hparse⟩

end LineRegex
