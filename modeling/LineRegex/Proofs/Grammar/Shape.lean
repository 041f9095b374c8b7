/-
LineRegex.Proofs.Grammar.Shape — the trees that derivations denote.

The tree of a valid derivation has the shape of a parsed pattern: quantifiers
stand on what can be repeated, sequences and choices have members enough to
need a node, and classes are in normal form. Its groups are numbered in the
order of their openings, and it is not much larger than the text.

  §1 Atoms    — quantifiers in order, classes in normal form.
  §2 Shape
  §3 Numbers  — the groups of a tree, their names and their depth.
  §4 Size     — how many nodes a text can make.
-/
import LineRegex.Pattern.Arena
import LineRegex.Proofs.Grammar.Atoms
import LineRegex.Proofs.Printing

namespace LineRegex.Grammar

open LineRegex.Expr (Everywhere EverywhereAll)

/-! ## §1 Atoms -/

theorem Quantifier.inBraces {q : Quantifier} (hq : q.Valid) : q.bounds.InBraces := by
  cases q with
  | star | plus => exact ⟨by decide, nofun⟩
  | optional =>
    refine ⟨by decide, ?_⟩
    rintro m ⟨⟩
    decide
  | exactly m =>
    refine ⟨hq.2, ?_⟩
    rintro k ⟨⟩
    exact ⟨Nat.le_refl _, hq.2⟩
  | atLeast m => exact ⟨hq.2, nofun⟩
  | between m n =>
    obtain ⟨hm, hn, hle⟩ := hq
    refine ⟨hm.2, ?_⟩
    rintro k ⟨⟩
    exact ⟨hle, hn.2⟩

theorem valid_of_mem_members {ms : List BracketMember} (h : ValidMembers ms) :
    ∀ m ∈ ms, m.Valid := by
  induction ms with
  | nil => simp
  | cons m ms ih =>
    rw [List.forall_mem_cons]
    cases m with
    | one a => exact ⟨h.1, ih h.2.2⟩
    | range lo hi => exact ⟨h.1, ih h.2⟩

/-- No range of a bracket member is empty. -/
theorem BracketMember.proper_ranges (w : Width) {m : BracketMember} (hm : m.Valid) :
    m.member.ranges w ≠ [] ∧ ∀ r ∈ m.member.ranges w, r.lo ≤ r.hi := by
  cases m with
  | one a =>
    simp only [member]
    cases a.meaning with
    | single u => simp [Member.ranges, UnitRange.single]
    | shorthand s => exact ⟨s.ranges_ne_nil w, (s.isNormal_ranges w).1⟩
  | range lo hi => simpa [member, Member.ranges] using hm.2.2.2.2

/-- The class of valid members is in normal form. -/
theorem isNormal_ofMembers (w : Width) (negated : Bool) {ms : List BracketMember} (hne : ms ≠ [])
    (h : ValidMembers ms) :
    (CharClass.ofMembers w negated (ms.map (·.member))).ranges ≠ [] ∧
      UnitRange.IsNormal (CharClass.ofMembers w negated (ms.map (·.member))).ranges := by
  have hproper := fun m hm => BracketMember.proper_ranges w (valid_of_mem_members h m hm)
  constructor
  · refine UnitRange.normalize_ne_nil fun hempty => ?_
    obtain ⟨m, hm⟩ := List.exists_mem_of_ne_nil ms hne
    rw [List.flatMap_eq_nil_iff] at hempty
    exact (hproper m hm).1 (hempty _ (List.mem_map_of_mem hm))
  · refine UnitRange.isNormal_normalize fun r hr => ?_
    obtain ⟨member, hmember, hr⟩ := List.mem_flatMap.mp hr
    obtain ⟨m, hm, rfl⟩ := List.mem_map.mp hmember
    exact (hproper m hm).2 r hr

section Shape

variable (w : Width) (ref : Nat → Target → Nat)

theorem Atom.wellShaped_expr (position : Nat) {a : Atom} (ha : a.Valid) :
    Everywhere Expr.WellShaped (a.expr w ref position) := by
  cases a with
  | escape e =>
    rw [Atom.expr_escape]
    cases e.meaning with
    | single u => trivial
    | shorthand s => exact ⟨s.ranges_ne_nil w, s.isNormal_ranges w⟩
  | bracket negated members => exact isNormal_ofMembers w negated ha.1 ha.2.1
  | literal | any | anchor | reference | namedReference => trivial

theorem Atom.isRepeatable_expr (position : Nat) {a : Atom} (ha : ¬ a.IsAnchor) :
    (a.expr w ref position).IsRepeatable := by
  cases a with
  | escape e =>
    rw [Atom.expr_escape]
    cases e.meaning <;> trivial
  | anchor => exact absurd trivial ha
  | literal | any | reference | namedReference | bracket => trivial

/-! ## §2 Shape -/

/-- The tree may stand in a sequence: it has the shape of a parsed tree, and is
neither a sequence nor a choice itself. -/
structure IsMember (e : Regex) : Prop where
  shape : Everywhere Expr.WellShaped e
  notConcat : ¬ e.IsConcat
  notAlternation : ¬ e.IsAlternation

/-- The tree may be a branch of a choice. -/
structure IsBranch (e : Regex) : Prop where
  shape : Everywhere Expr.WellShaped e
  notAlternation : ¬ e.IsAlternation

theorem isMember_quantify {q : Option Quantifier} (hq : ∀ q' ∈ q, q'.Valid) {e : Regex}
    (he : Everywhere Expr.WellShaped e) (hrep : e.IsRepeatable) : IsMember (quantify q e) := by
  cases q with
  | none => exact ⟨he, Expr.not_isConcat hrep, Expr.not_isAlternation hrep⟩
  | some q => exact ⟨⟨⟨hrep, Quantifier.inBraces (hq q rfl)⟩, he⟩, id, id⟩

theorem isBranch_inSequence {es : List Regex} (hes : ∀ e ∈ es, IsMember e) :
    IsBranch (.inSequence es) := by
  constructor
  · refine Expr.everywhere_inSequence (fun hone => ⟨hone, fun e he => ?_⟩) ?_
    · exact ⟨(hes e he).notConcat, (hes e he).notAlternation⟩
    · exact (Expr.everywhereAll_iff es).mpr fun e he => (hes e he).shape
  · match es with
    | [] => exact id
    | [e] => exact (hes e List.mem_cons_self).notAlternation
    | _ :: _ :: _ => exact id

theorem wellShaped_oneOf {es : List Regex} (hne : es ≠ []) (hes : ∀ e ∈ es, IsBranch e) :
    Everywhere Expr.WellShaped (.oneOf es) := by
  refine Expr.everywhere_oneOf (fun hone => ⟨?_, fun e he => (hes e he).notAlternation⟩) ?_
  · have hpos := List.length_pos_iff.mpr hne
    omega
  · exact (Expr.everywhereAll_iff es).mpr fun e he => (hes e he).shape

theorem Alternation.branches_ne_nil {ρ : Type} (w : Width) (ref : Nat → Target → ρ)
    (position n : Nat) (a : Alternation) : a.branches w ref position n ≠ [] := by
  cases a <;> exact List.cons_ne_nil _ _

mutual

theorem Item.isMember_expr (position n : Nat) (i : Item) (hi : i.Valid) :
    IsMember (i.expr w ref position n) := by
  cases i with
  | atom a q =>
    obtain ⟨ha, hanchor, hq⟩ := hi
    have hshape := Atom.wellShaped_expr w ref position ha
    by_cases h : a.IsAnchor
    · obtain rfl := hanchor h
      cases a with
      | anchor => exact ⟨hshape, id, id⟩
      | _ => exact h.elim
    · exact isMember_quantify hq hshape (Atom.isRepeatable_expr w ref position h)
  | group o body q =>
    have hbody := body.isBranch_branches (position + 1 + o.units.length) (n + o.groupCount) hi.2.1
    have hshape := wellShaped_oneOf (body.branches_ne_nil w ref _ _) hbody
    exact isMember_quantify hi.2.2 ⟨trivial, hshape⟩ trivial

theorem isMember_itemExprs (position n : Nat) (is : List Item) (his : ValidItems is) :
    ∀ e ∈ itemExprs w ref position n is, IsMember e := by
  cases is with
  | nil => simp [itemExprs]
  | cons i is =>
    exact List.forall_mem_cons.mpr
      ⟨i.isMember_expr _ _ his.1, isMember_itemExprs _ _ is his.2.2⟩

theorem Alternation.isBranch_branches (position n : Nat) (a : Alternation) (ha : a.Valid) :
    ∀ e ∈ a.branches w ref position n, IsBranch e := by
  cases a with
  | last items =>
    exact List.forall_mem_singleton.mpr
      (isBranch_inSequence (isMember_itemExprs _ _ items ha))
  | more items rest =>
    exact List.forall_mem_cons.mpr
      ⟨isBranch_inSequence (isMember_itemExprs _ _ items ha.1), rest.isBranch_branches _ _ ha.2⟩

end

/-- The tree of a valid derivation has the shape of a parsed tree. -/
theorem Alternation.wellShaped_branches (position n : Nat) (a : Alternation) (ha : a.Valid) :
    Everywhere Expr.WellShaped (.oneOf (a.branches w ref position n)) :=
  wellShaped_oneOf (a.branches_ne_nil w ref position n) (a.isBranch_branches w ref position n ha)

end Shape

/-! ## §3 Numbers -/

section Numbers

variable {ρ : Type} (w : Width) (ref : Nat → Target → ρ)

theorem indices_inSequence (es : List (Expr ρ)) :
    (Expr.inSequence es).indices = Expr.indicesAll es :=
  Expr.apply_inSequence (fun _ => rfl) (fun _ => List.append_nil _) es

theorem indices_oneOf (es : List (Expr ρ)) : (Expr.oneOf es).indices = Expr.indicesAll es :=
  Expr.apply_oneOf (fun _ => rfl) (fun _ => List.append_nil _) es

theorem depth_inSequence (es : List (Expr ρ)) :
    (Expr.inSequence es).depth = Expr.depthAll es :=
  Expr.apply_inSequence (fun _ => rfl) (fun _ => Nat.max_zero _) es

theorem depth_oneOf (es : List (Expr ρ)) : (Expr.oneOf es).depth = Expr.depthAll es :=
  Expr.apply_oneOf (fun _ => rfl) (fun _ => Nat.max_zero _) es

theorem Atom.indices_expr (position : Nat) (a : Atom) : (a.expr w ref position).indices = [] := by
  cases a with
  | escape e =>
    rw [Atom.expr_escape]
    cases e.meaning <;> rfl
  | _ => rfl

theorem Atom.depth_expr (position : Nat) (a : Atom) : (a.expr w ref position).depth = 0 := by
  cases a with
  | escape e =>
    rw [Atom.expr_escape]
    cases e.meaning <;> rfl
  | _ => rfl

theorem indices_quantify (q : Option Quantifier) (e : Expr ρ) :
    (quantify q e).indices = e.indices := by
  cases q <;> rfl

theorem depth_quantify (q : Option Quantifier) (e : Expr ρ) : (quantify q e).depth = e.depth := by
  cases q <;> rfl

theorem Opening.toList_index (n : Nat) (o : Opening) :
    (o.index n).toList = List.range' (n + 1) o.groupCount := by
  cases o <;> rfl

theorem range'_append_groups (n k m : Nat) :
    List.range' (n + 1) k ++ List.range' (n + k + 1) m = List.range' (n + 1) (k + m) := by
  rw [Nat.add_right_comm n k 1, List.range'_append_1]

mutual

theorem Item.indices_expr (position n : Nat) (i : Item) :
    (i.expr w ref position n).indices = List.range' (n + 1) i.groupCount := by
  cases i with
  | atom a q => rw [Item.expr, indices_quantify, Atom.indices_expr, Item.groupCount]; rfl
  | group o body q =>
    rw [Item.expr, indices_quantify, Expr.indices_group, indices_oneOf, body.indices_branches,
      Opening.toList_index, range'_append_groups, Item.groupCount]

theorem indices_itemExprs (position n : Nat) (is : List Item) :
    Expr.indicesAll (itemExprs w ref position n is) =
      List.range' (n + 1) (itemsGroupCount is) := by
  cases is with
  | nil => rfl
  | cons i is =>
    rw [itemExprs, Expr.indicesAll, i.indices_expr, indices_itemExprs _ _ is,
      range'_append_groups, itemsGroupCount]

/-- The groups of a derivation are numbered in the order of their openings. -/
theorem Alternation.indices_branches (position n : Nat) (a : Alternation) :
    Expr.indicesAll (a.branches w ref position n) = List.range' (n + 1) a.groupCount := by
  cases a with
  | last items =>
    rw [Alternation.branches, Expr.indicesAll, indices_inSequence, indices_itemExprs,
      Expr.indicesAll, List.append_nil, Alternation.groupCount]
  | more items rest =>
    rw [Alternation.branches, Expr.indicesAll, indices_inSequence, indices_itemExprs,
      rest.indices_branches, range'_append_groups, Alternation.groupCount]

end

mutual

theorem Item.depth_expr (position n : Nat) (i : Item) :
    (i.expr w ref position n).depth = i.depth := by
  cases i with
  | atom a q => rw [Item.expr, depth_quantify, Atom.depth_expr, Item.depth]
  | group o body q =>
    rw [Item.expr, depth_quantify, Expr.depth, depth_oneOf, body.depth_branches, Item.depth]

theorem depth_itemExprs (position n : Nat) (is : List Item) :
    Expr.depthAll (itemExprs w ref position n is) = itemsDepth is := by
  cases is with
  | nil => rfl
  | cons i is =>
    rw [itemExprs, Expr.depthAll, i.depth_expr, depth_itemExprs _ _ is, itemsDepth]

theorem Alternation.depth_branches (position n : Nat) (a : Alternation) :
    Expr.depthAll (a.branches w ref position n) = a.depth := by
  cases a with
  | last items =>
    rw [Alternation.branches, Expr.depthAll, depth_inSequence, depth_itemExprs, Expr.depthAll,
      Nat.max_zero, Alternation.depth]
  | more items rest =>
    rw [Alternation.branches, Expr.depthAll, depth_inSequence, depth_itemExprs,
      rest.depth_branches, Alternation.depth]

end

theorem Opening.sublist_names (n : Nat) (o : Opening) :
    ((o.names n).map (·.2)).Sublist (List.range' (n + 1) o.groupCount) := by
  cases o with
  | plain => exact .slnil
  | numbered => exact List.nil_sublist _
  | named long name => exact .refl _

theorem sublist_range'_append {n k m : Nat} {gs gs' : List Nat}
    (h : gs.Sublist (List.range' (n + 1) k)) (h' : gs'.Sublist (List.range' (n + k + 1) m)) :
    (gs ++ gs').Sublist (List.range' (n + 1) (k + m)) := by
  rw [← range'_append_groups]
  exact h.append h'

mutual

theorem Item.sublist_names (n : Nat) (i : Item) :
    ((i.names n).map (·.2)).Sublist (List.range' (n + 1) i.groupCount) := by
  cases i with
  | atom a q => exact .slnil
  | group o body q =>
    rw [Item.names, List.map_append, Item.groupCount]
    exact sublist_range'_append (o.sublist_names n) (body.sublist_names _)

theorem sublist_itemsNames (n : Nat) (is : List Item) :
    ((itemsNames n is).map (·.2)).Sublist (List.range' (n + 1) (itemsGroupCount is)) := by
  cases is with
  | nil => exact .slnil
  | cons i is =>
    rw [itemsNames, List.map_append, itemsGroupCount]
    exact sublist_range'_append (i.sublist_names n) (sublist_itemsNames _ is)

/-- The groups that have a name are some of the groups, each of them once. -/
theorem Alternation.sublist_names (n : Nat) (a : Alternation) :
    ((a.names n).map (·.2)).Sublist (List.range' (n + 1) a.groupCount) := by
  cases a with
  | last items => exact sublist_itemsNames n items
  | more items rest =>
    rw [Alternation.names, List.map_append, Alternation.groupCount]
    exact sublist_range'_append (sublist_itemsNames n items) (rest.sublist_names _)

end

end Numbers

/-! ## §4 Size -/

section Size

variable {ρ : Type} (w : Width) (ref : Nat → Target → ρ)

theorem nodeCount_inSequence_le (es : List (Expr ρ)) :
    (Expr.inSequence es).nodeCount ≤ Expr.nodeCountAll es + 1 := by
  match es with
  | [] => exact Nat.le_refl _
  | [e] => exact Nat.le_succ _
  | _ :: _ :: _ => exact Nat.le_refl _

/-- A choice has a node of its own only if it has two branches or more. -/
theorem nodeCount_oneOf_lt {es : List (Expr ρ)} (hne : es ≠ []) :
    (Expr.oneOf es).nodeCount < Expr.nodeCountAll es + es.length := by
  match es with
  | [e] => exact Nat.lt_succ_self _
  | e :: e' :: es =>
    simp only [Expr.oneOf, Expr.nodeCount, List.length_cons]
    omega

theorem nodeCount_quantify (q : Option Quantifier) (e : Expr ρ) :
    (quantify q e).nodeCount ≤ e.nodeCount + (suffixUnits q).length := by
  cases q with
  | none => exact Nat.le_refl _
  | some q => exact Nat.add_le_add_left (Nat.succ_pos _) _

theorem Atom.nodeCount_expr (position : Nat) (a : Atom) :
    (a.expr w ref position).nodeCount = 1 := by
  cases a with
  | escape e =>
    rw [Atom.expr_escape]
    cases e.meaning <;> rfl
  | _ => rfl

mutual

/-- An item makes fewer than two nodes for each of its units. -/
theorem Item.nodeCount_lt (position n : Nat) (i : Item) :
    (i.expr w ref position n).nodeCount < 2 * i.units.length := by
  cases i with
  | atom a q =>
    have hnodes := nodeCount_quantify q (a.expr w ref position)
    rw [Atom.nodeCount_expr] at hnodes
    simp only [Item.expr, Item.units, List.length_cons, List.length_append, List.cons_append]
    omega
  | group o body q =>
    have hne := body.branches_ne_nil w ref (position + 1 + o.units.length) (n + o.groupCount)
    have hbody := body.nodeCount_branches_le (position + 1 + o.units.length) (n + o.groupCount)
    have hchoice := nodeCount_oneOf_lt hne
    have hnodes := nodeCount_quantify q (.group (o.index n) (.oneOf (body.branches w ref
      (position + 1 + o.units.length) (n + o.groupCount))))
    rw [Expr.nodeCount] at hnodes
    simp only [Item.expr, Item.units, List.length_cons, List.length_append, List.cons_append]
    omega

theorem nodeCount_itemExprs_le (position n : Nat) (is : List Item) :
    Expr.nodeCountAll (itemExprs w ref position n is) ≤ 2 * (itemUnits is).length := by
  cases is with
  | nil => exact Nat.le_refl _
  | cons i is =>
    have hfirst := i.nodeCount_lt position n
    have hothers := nodeCount_itemExprs_le (position + i.units.length) (n + i.groupCount) is
    simp only [itemExprs, Expr.nodeCountAll, itemUnits, List.length_append]
    omega

/-- The bars of a derivation pay for the sequences between them. -/
theorem Alternation.nodeCount_branches_le (position n : Nat) (a : Alternation) :
    Expr.nodeCountAll (a.branches w ref position n) + (a.branches w ref position n).length ≤
      2 * a.units.length + 2 := by
  cases a with
  | last items =>
    have hitems := nodeCount_itemExprs_le position n items
    have hsequence := nodeCount_inSequence_le (itemExprs w ref position n items)
    simp only [Alternation.branches, Expr.nodeCountAll, Alternation.units, List.length_singleton]
    omega
  | more items rest =>
    have hitems := nodeCount_itemExprs_le position n items
    have hsequence := nodeCount_inSequence_le (itemExprs w ref position n items)
    have hrest := rest.nodeCount_branches_le (position + (itemUnits items).length + 1)
      (n + itemsGroupCount items)
    simp only [Alternation.branches, Expr.nodeCountAll, Alternation.units, List.length_cons,
      List.length_append]
    omega

end

/-- A derivation makes at most two nodes for each of its units, and one more. -/
theorem Alternation.nodeCount_oneOf_le (position n : Nat) (a : Alternation) :
    (Expr.oneOf (a.branches w ref position n)).nodeCount ≤ 2 * a.units.length + 1 := by
  have hbranches := a.nodeCount_branches_le w ref position n
  have hchoice := nodeCount_oneOf_lt (a.branches_ne_nil w ref position n)
  omega

end Size

end LineRegex.Grammar
