/-
LineRegex.Proofs.Grammar.References — which groups backreferences mean.

A backreference is read before the groups it may mean, and is looked up when
the whole pattern is known. The look-up goes from left to right, so a pattern
is refused for the leftmost backreference that means no group. The reader does
not tell numbers past `maxRepeatCount` apart: in a pattern with more groups
than that they are all taken for the next number.

  §1 Trees        — the references of a tree, and `resolve` as a look-up.
  §2 Derivations  — the references of a derivation, and where they stand.
  §3 Parsing
  §4 Many groups  — a number that is taken for another one.
-/
import LineRegex.Proofs.Grammar.Parsing

namespace LineRegex

/-! ## §1 Trees -/

namespace Expr

variable {ρ σ ε : Type}

mutual

/-- What the backreferences of a tree hold, from left to right. -/
def references : Expr ρ → List ρ
  | backreference r => [r]
  | group _ body => references body
  | concat items => referencesAll items
  | alternation branches => referencesAll branches
  | quantified body _ => references body
  | unit _ | charClass _ | any | anchor _ => []

def referencesAll : List (Expr ρ) → List ρ
  | [] => []
  | e :: es => references e ++ referencesAll es

end

theorem references_inSequence (es : List (Expr ρ)) :
    (inSequence es).references = referencesAll es :=
  apply_inSequence (fun _ => rfl) (fun _ => List.append_nil _) es

theorem references_oneOf (es : List (Expr ρ)) : (oneOf es).references = referencesAll es :=
  apply_oneOf (fun _ => rfl) (fun _ => List.append_nil _) es

mutual

/-- Resolving a tree looks up its references, from left to right. -/
theorem map_references_resolve (f : ρ → Except ε σ) (e : Expr ρ) :
    references <$> e.resolve f = e.references.mapM f := by
  cases e with
  | unit | charClass | any | anchor => rfl
  | backreference r => simp [resolve, references]
  | group index body => simp [resolve, references, ← map_references_resolve f body]
  | quantified body bounds => simp [resolve, references, ← map_references_resolve f body]
  | concat items => simp [resolve, references, ← map_references_resolveAll f items]
  | alternation branches => simp [resolve, references, ← map_references_resolveAll f branches]

theorem map_references_resolveAll (f : ρ → Except ε σ) (es : List (Expr ρ)) :
    referencesAll <$> resolveAll f es = (referencesAll es).mapM f := by
  cases es with
  | nil => rfl
  | cons e es =>
    simp [resolveAll, referencesAll, List.mapM_append, ← map_references_resolve f e,
      ← map_references_resolveAll f es]

end

/-- A tree cannot be resolved for what stops the look-up of its references. -/
theorem resolve_eq_error {f : ρ → Except ε σ} {e : Expr ρ} {err : ε}
    (h : e.references.mapM f = .error err) : e.resolve f = .error err := by
  rw [← map_references_resolve] at h
  cases hres : e.resolve f with
  | ok e' => rw [hres] at h; cases h
  | error err' =>
    rw [hres] at h
    cases h
    rfl

end Expr

namespace Grammar

/-! ## §2 Derivations -/

mutual

/-- The backreferences of an item at a position, from left to right. -/
def Item.references (position : Nat) : Item → List Reference
  | .atom a _ => a.targets.map fun t => ⟨position, t⟩
  | .group o body _ => body.references (position + 1 + o.units.length)

def itemsReferences (position : Nat) : List Item → List Reference
  | [] => []
  | i :: is => i.references position ++ itemsReferences (position + i.units.length) is

def Alternation.references (position : Nat) : Alternation → List Reference
  | .last items => itemsReferences position items
  | .more items rest =>
    itemsReferences position items ++ rest.references (position + (itemUnits items).length + 1)

end

section Trees

variable {ρ : Type} (w : Width) (ref : Nat → Target → ρ)

theorem references_quantify (q : Option Quantifier) (e : Expr ρ) :
    (quantify q e).references = e.references := by
  cases q <;> rfl

theorem Atom.references_expr (position : Nat) (a : Atom) :
    (a.expr w ref position).references = a.targets.map (ref position) := by
  cases a with
  | escape e =>
    rw [Atom.expr_escape]
    cases e.meaning <;> rfl
  | _ => rfl

mutual

theorem Item.references_expr (position n : Nat) (i : Item) :
    (i.expr w ref position n).references =
      (i.references position).map fun r => ref r.position r.target := by
  cases i with
  | atom a q =>
    rw [Item.expr, references_quantify, Atom.references_expr, Item.references, List.map_map]
    rfl
  | group o body q =>
    rw [Item.expr, references_quantify, Expr.references, Expr.references_oneOf,
      body.references_branches, Item.references]

theorem references_itemExprs (position n : Nat) (is : List Item) :
    Expr.referencesAll (itemExprs w ref position n is) =
      (itemsReferences position is).map fun r => ref r.position r.target := by
  cases is with
  | nil => rfl
  | cons i is =>
    rw [itemExprs, Expr.referencesAll, i.references_expr, references_itemExprs _ _ is,
      itemsReferences, List.map_append]

/-- The tree of a derivation holds its references, in the same order. -/
theorem Alternation.references_branches (position n : Nat) (a : Alternation) :
    Expr.referencesAll (a.branches w ref position n) =
      (a.references position).map fun r => ref r.position r.target := by
  cases a with
  | last items =>
    rw [Alternation.branches, Expr.referencesAll, Expr.references_inSequence,
      references_itemExprs, Expr.referencesAll, List.append_nil, Alternation.references]
  | more items rest =>
    rw [Alternation.branches, Expr.referencesAll, Expr.references_inSequence,
      references_itemExprs, rest.references_branches, Alternation.references, List.map_append]

end

end Trees

section Targets

mutual

theorem Item.map_target_references (position : Nat) (i : Item) :
    (i.references position).map (·.target) = i.targets := by
  cases i with
  | atom a q =>
    rw [Item.references, List.map_map, Item.targets]
    exact List.map_id _
  | group o body q => rw [Item.references, body.map_target_references, Item.targets]

theorem map_target_itemsReferences (position : Nat) (is : List Item) :
    (itemsReferences position is).map (·.target) = itemsTargets is := by
  cases is with
  | nil => rfl
  | cons i is =>
    rw [itemsReferences, List.map_append, i.map_target_references,
      map_target_itemsReferences _ is, itemsTargets]

theorem Alternation.map_target_references (position : Nat) (a : Alternation) :
    (a.references position).map (·.target) = a.targets := by
  cases a with
  | last items => exact map_target_itemsReferences position items
  | more items rest =>
    rw [Alternation.references, List.map_append, map_target_itemsReferences,
      rest.map_target_references, Alternation.targets]

end

end Targets

/-- The references stand one behind the other, in the units from `lo` to `hi`. -/
structure InReadingOrder (lo hi : Nat) (rs : List Reference) : Prop where
  ordered : rs.Pairwise fun r r' => r.position < r'.position
  within : ∀ r ∈ rs, lo ≤ r.position ∧ r.position < hi

namespace InReadingOrder

variable {lo lo' hi hi' : Nat} {rs rs' : List Reference}

theorem widen (h : InReadingOrder lo hi rs) (hlo : lo' ≤ lo) (hhi : hi ≤ hi') :
    InReadingOrder lo' hi' rs := by
  refine ⟨h.ordered, ?_⟩
  intro r hr
  have := h.within r hr
  omega

theorem append (h : InReadingOrder lo hi rs) (h' : InReadingOrder hi hi' rs') (hlo : lo ≤ hi)
    (hhi : hi ≤ hi') : InReadingOrder lo hi' (rs ++ rs') := by
  constructor
  · refine List.pairwise_append.mpr ⟨h.ordered, h'.ordered, ?_⟩
    intro r hr r' hr'
    exact (h.within r hr).2.trans_le (h'.within r' hr').1
  · rw [List.forall_mem_append]
    exact ⟨(h.widen le_rfl hhi).within, (h'.widen hlo le_rfl).within⟩

end InReadingOrder

mutual

theorem Item.inReadingOrder (position : Nat) (i : Item) :
    InReadingOrder position (position + i.units.length) (i.references position) := by
  cases i with
  | atom a q =>
    have hwithin : ∀ r ∈ (Item.atom a q).references position,
        position ≤ r.position ∧ r.position < position + (Item.atom a q).units.length := by
      intro r hr
      obtain ⟨t, -, rfl⟩ := List.mem_map.mp hr
      simp [Item.units]
    refine ⟨?_, hwithin⟩
    -- an atom has one reference at most
    cases a <;> simp [Item.references, Atom.targets]
  | group o body q =>
    refine (body.inReadingOrder _).widen ?_ ?_
    · omega
    · simp only [Item.units, List.cons_append, List.length_cons, List.length_append]
      omega

theorem inReadingOrder_items (position : Nat) (is : List Item) :
    InReadingOrder position (position + (itemUnits is).length) (itemsReferences position is) := by
  cases is with
  | nil => exact ⟨.nil, by simp [itemsReferences]⟩
  | cons i is =>
    have hothers := inReadingOrder_items (position + i.units.length) is
    rw [itemUnits, List.length_append, ← Nat.add_assoc]
    exact (i.inReadingOrder position).append hothers (Nat.le_add_right ..) (Nat.le_add_right ..)

theorem Alternation.inReadingOrder (position : Nat) (a : Alternation) :
    InReadingOrder position (position + a.units.length) (a.references position) := by
  cases a with
  | last items => exact inReadingOrder_items position items
  | more items rest =>
    have hitems := (inReadingOrder_items position items).widen le_rfl (Nat.le_succ _)
    have hrest := rest.inReadingOrder (position + (itemUnits items).length + 1)
    refine (hitems.append hrest (by omega) (by omega)).widen le_rfl ?_
    simp only [Alternation.units, List.length_append, List.length_cons]
    omega

end

/-- The units begin with a backreference to the target. The digits of a number
are all that stand there. -/
def Spell (units : List CodeUnit) : Target → Prop
  | .number n => ∃ digits rest, units = unit '\\' :: digits ++ rest ∧ IsNumeral digits ∧
      digits.head? ≠ some (unit '0') ∧ ¬ StartsDigit rest ∧ decimalValue digits = n
  | .name name => ∃ rest,
      units = unit '\\' :: unit 'k' :: unit '<' :: name.toList ++ unit '>' :: rest

/-- The reference is spelled where it says, in units that begin at a position. -/
def StandsIn (position : Nat) (units : List CodeUnit) (r : Reference) : Prop :=
  ∃ before after, units = before ++ after ∧ r.position = position + before.length ∧
    Spell after r.target

theorem StandsIn.behind {position : Nat} {front units : List CodeUnit} {r : Reference}
    (h : StandsIn (position + front.length) units r) : StandsIn position (front ++ units) r := by
  obtain ⟨before, after, rfl, hposition, hspell⟩ := h
  refine ⟨front ++ before, after, by rw [List.append_assoc], ?_, hspell⟩
  rw [hposition, List.length_append, Nat.add_assoc]

theorem Atom.spell {a : Atom} (ha : a.Valid) {rest : List CodeUnit}
    (hdigits : a.IsReference → ¬ StartsDigit rest) :
    ∀ t ∈ a.targets, Spell (a.first :: a.tail ++ rest) t := by
  intro t ht
  cases a with
  | reference digits =>
    obtain rfl := List.mem_singleton.mp ht
    exact ⟨digits, rest, rfl, ha.1, ha.2, hdigits trivial, rfl⟩
  | namedReference name =>
    obtain rfl := List.mem_singleton.mp ht
    exact ⟨rest, by simp [first, tail]⟩
  | _ => simp [targets] at ht

mutual

theorem Item.standsIn (position : Nat) (i : Item) (hi : i.Valid) {rest : List CodeUnit}
    (hdigits : i.EndsInDigits → ¬ StartsDigit rest) :
    ∀ r ∈ i.references position, StandsIn position (i.units ++ rest) r := by
  cases i with
  | atom a q =>
    intro r hr
    obtain ⟨t, ht, rfl⟩ := List.mem_map.mp hr
    have hunits : (Item.atom a q).units ++ rest =
        [] ++ (a.first :: a.tail ++ (suffixUnits q ++ rest)) := by
      rw [Item.units, List.append_assoc, List.nil_append]
    exact ⟨[], _, hunits, rfl, Atom.spell hi.1 (not_startsDigit_suffix hdigits) t ht⟩
  | group o body q =>
    intro r hr
    have hclose : ¬ StartsDigit (unit ')' :: suffixUnits q ++ rest) := not_startsDigit_cons rfl
    have hbody := body.standsIn (position + 1 + o.units.length) hi.2.1 hclose r hr
    have hunits : (Item.group o body q).units ++ rest =
        (unit '(' :: o.units) ++ (body.units ++ (unit ')' :: suffixUnits q ++ rest)) := by
      simp [Item.units]
    rw [hunits]
    refine StandsIn.behind ?_
    rwa [List.length_cons, Nat.add_comm o.units.length, ← Nat.add_assoc]

theorem standsIn_items (position : Nat) (is : List Item) (his : ValidItems is)
    {rest : List CodeUnit} (hrest : ¬ StartsDigit rest) :
    ∀ r ∈ itemsReferences position is, StandsIn position (itemUnits is ++ rest) r := by
  cases is with
  | nil => simp [itemsReferences]
  | cons i is =>
    obtain ⟨hi, hdigits, his⟩ := his
    rw [itemsReferences, List.forall_mem_append, itemUnits, List.append_assoc]
    constructor
    · exact i.standsIn position hi fun h => startsDigit_append (hdigits h) hrest
    · intro r hr
      exact (standsIn_items _ is his hrest r hr).behind

/-- The references of a derivation are spelled where they say. -/
theorem Alternation.standsIn (position : Nat) (a : Alternation) (ha : a.Valid)
    {rest : List CodeUnit} (hrest : ¬ StartsDigit rest) :
    ∀ r ∈ a.references position, StandsIn position (a.units ++ rest) r := by
  cases a with
  | last items => exact standsIn_items position items ha hrest
  | more items more =>
    rw [Alternation.references, List.forall_mem_append, Alternation.units, List.append_assoc]
    constructor
    · exact standsIn_items position items ha.1 (not_startsDigit_cons rfl)
    · intro r hr
      have hmore := more.standsIn _ ha.2 hrest r hr
      have hunits : itemUnits items ++ (unit '|' :: more.units ++ rest) =
          (itemUnits items ++ [unit '|']) ++ (more.units ++ rest) := by simp
      rw [hunits]
      refine StandsIn.behind ?_
      rwa [List.length_append, List.length_singleton, ← Nat.add_assoc]

end

/-! ## §3 Parsing -/

/-- A look-up of a whole list fails at the first that is missing. -/
theorem mapM_eq_error {α β ε : Type} {f : α → Except ε β} {missing : α → Bool} {e : ε}
    {l : List α} {a : α} (hfirst : l.find? missing = some a) (ha : f a = .error e)
    (hfound : ∀ b, missing b = false → ∃ v, f b = .ok v) : l.mapM f = .error e := by
  induction l with
  | nil => cases hfirst
  | cons b l ih =>
    rw [List.mapM_cons]
    cases hb : missing b with
    | true =>
      rw [List.find?_cons_of_pos hb, Option.some.injEq] at hfirst
      rw [hfirst, ha]
      rfl
    | false =>
      rw [List.find?_cons_of_neg (by simp [hb])] at hfirst
      obtain ⟨v, hv⟩ := hfound b hb
      rw [hv, ih hfirst]
      rfl

namespace Alternation

/-- The leftmost reference that, as the reader keeps it, means no group. -/
def firstUnresolved? (a : Alternation) : Option Reference :=
  (a.references 0).find? fun r => (a.groupMeant? r.target.capped).isNone

/-- The pattern that a derivation is read as. -/
def patternRead (w : Width) (a : Alternation) : Pattern where
  root := .oneOf (a.branches w (fun _ t => (a.groupMeant? t.capped).getD 0) 0 0)
  groupCount := a.groupCount
  names := a.nameTable

theorem groupMeant?_of_resolved {a : Alternation} (h : a.firstUnresolved? = none) {t : Target}
    (ht : t ∈ a.targets) : ∃ g, a.groupMeant? t.capped = some g := by
  rw [← a.map_target_references 0] at ht
  obtain ⟨r, hr, rfl⟩ := List.mem_map.mp ht
  rw [firstUnresolved?, List.find?_eq_none] at h
  exact Option.ne_none_iff_exists'.mp (by simpa using h r hr)

end Alternation

section Resolving

variable (w : Width) {a : Alternation}

theorem resolve_of_unresolved {r : Reference} (h : a.firstUnresolved? = some r) :
    (Expr.oneOf (a.branches w readReference 0 0)).resolve
      (Draft.groupOf a.groupCount a.nameTable) = refuse .badBackreference r.position := by
  have hrefs : (Expr.oneOf (a.branches w readReference 0 0)).references =
      (a.references 0).map fun r => readReference r.position r.target := by
    rw [Expr.references_oneOf, a.references_branches]
  have hmissing : a.groupMeant? r.target.capped = none := by simpa using List.find?_some h
  refine Expr.resolve_eq_error ?_
  rw [hrefs, List.mapM_map]
  refine mapM_eq_error h ?_ ?_
  · show Draft.groupOf a.groupCount a.nameTable (readReference r.position r.target) = _
    rw [groupOf_read, hmissing]
    rfl
  · intro r' hr'
    show ∃ g, Draft.groupOf a.groupCount a.nameTable (readReference r'.position r'.target) = _
    rw [groupOf_read]
    cases hmeant : a.groupMeant? r'.target.capped with
    | some g => exact ⟨g, rfl⟩
    | none => simp [hmeant] at hr'

theorem resolve_of_resolved (h : a.firstUnresolved? = none) :
    (Expr.oneOf (a.branches w readReference 0 0)).resolve
      (Draft.groupOf a.groupCount a.nameTable) = .ok (a.patternRead w).root := by
  have hmeant : ∀ t ∈ a.targets, ∀ p,
      Draft.groupOf a.groupCount a.nameTable (readReference p t) =
        .ok ((a.groupMeant? t.capped).getD 0) := by
    intro t ht p
    obtain ⟨g, hg⟩ := Alternation.groupMeant?_of_resolved h ht
    rw [groupOf_read, hg]
    rfl
  rw [Expr.resolve_oneOf_eq_ok]
  exact ⟨_, a.resolve_branches 0 0 hmeant, rfl⟩

/-- A text with a derivation is refused for its leftmost reference that means
no group, and otherwise is parsed to the pattern that it is read as. -/
theorem parse_of_reads {source : Text} (h : a.Reads source) :
    parse w source =
      match a.firstUnresolved? with
      | some r => refuse .badBackreference r.position
      | none => .ok (a.patternRead w) := by
  have hparse : parse w source = (a.into w 0 Draft.empty).finish := by
    rw [parse, read_derivation w h]
    rfl
  rw [hparse, finish_into]
  cases hfirst : a.firstUnresolved? with
  | some r =>
    rw [resolve_of_unresolved w hfirst]
    rfl
  | none =>
    rw [resolve_of_resolved w hfirst]
    rfl

end Resolving

/-- What is parsed is the pattern that a derivation of the text is read as. -/
theorem exists_patternRead_of_parse {w : Width} {source : Text} {p : Pattern}
    (h : parse w source = .ok p) :
    ∃ a : Alternation, a.Reads source ∧ a.firstUnresolved? = none ∧ a.patternRead w = p := by
  obtain ⟨a, ha⟩ := exists_reads_of_parse h
  rw [parse_of_reads w ha] at h
  cases hfirst : a.firstUnresolved? with
  | some r => rw [hfirst] at h; cases h
  | none =>
    rw [hfirst, Except.ok.injEq] at h
    exact ⟨a, ha, hfirst, h⟩

/-- What is parsed has a derivation. -/
theorem exists_derivation_of_parse {w : Width} {source : Text} {p : Pattern}
    (h : parse w source = .ok p)
    (hcount : ∀ a : Alternation, a.Reads source → a.groupCount ≤ maxRepeatCount) :
    ∃ a : Alternation, a.Derives source := by
  obtain ⟨a, ha, hresolved, -⟩ := exists_patternRead_of_parse h
  refine ⟨a, ha, ha.resolves fun t ht => ?_⟩
  rw [← Alternation.groupMeant?_capped (hcount a ha)]
  exact Alternation.groupMeant?_of_resolved hresolved ht

theorem Alternation.references_patternRead (w : Width) {a : Alternation}
    (h : a.firstUnresolved? = none) :
    (a.patternRead w).root.references.map some =
      (a.references 0).map fun r => a.groupMeant? r.target.capped := by
  rw [patternRead, Expr.references_oneOf, references_branches, List.map_map]
  refine List.map_congr_left fun r hr => ?_
  have htarget : r.target ∈ a.targets := by
    rw [← a.map_target_references 0]
    exact List.mem_map_of_mem hr
  obtain ⟨g, hg⟩ := groupMeant?_of_resolved h htarget
  show some ((a.groupMeant? r.target.capped).getD 0) = _
  rw [hg]
  rfl

end Grammar

open Grammar

/-- Backreferences are looked up when the whole pattern is known. In a parsed
pattern each of them holds the number of the group that its target means, and
a text whose derivation has references that mean no group is refused for the
leftmost of them, at its backslash. With at most `maxRepeatCount` groups a
number means the group it denotes; with more, all numbers past
`maxRepeatCount` mean the group behind it. -/
theorem backreferences_mean_groups (w : Width) (source : Text) :
    (∀ p, parse w source = .ok p → ∃ a : Alternation, a.Reads source ∧
      p.groupCount = a.groupCount ∧
      p.root.references.map some =
        (a.references 0).map fun r => a.groupMeant? r.target.capped) ∧
    ∀ a : Alternation, a.Reads source →
      InReadingOrder 0 source.size (a.references 0) ∧
      (∀ r ∈ a.references 0, StandsIn 0 source.toList r) ∧
      (∀ r, a.firstUnresolved? = some r →
        parse w source = refuse .badBackreference r.position) ∧
      (a.firstUnresolved? = none → ∃ p, parse w source = .ok p) ∧
      (a.groupCount ≤ maxRepeatCount → ∀ t, a.groupMeant? t.capped = a.groupMeant? t) := by
  constructor
  · intro p hparse
    obtain ⟨a, ha, hresolved, rfl⟩ := exists_patternRead_of_parse hparse
    exact ⟨a, ha, rfl, a.references_patternRead w hresolved⟩
  · intro a ha
    refine ⟨?_, ?_, ?_, ?_, fun hcount t => Alternation.groupMeant?_capped hcount t⟩
    · have horder := a.inReadingOrder 0
      rwa [ha.units, Array.length_toList, Nat.zero_add] at horder
    · have hstands := a.standsIn 0 ha.valid not_startsDigit_nil
      rwa [List.append_nil, ha.units] at hstands
    · intro r hfirst
      rw [parse_of_reads w ha, hfirst]
    · intro hresolved
      rw [parse_of_reads w ha, hresolved]
      exact ⟨_, rfl⟩

/-- The derivation of `(a)\1\3\2`. -/
def Grammar.twoUnresolved : Alternation :=
  .last [.group .numbered (.last [.atom (.literal (unit 'a')) none]) none,
    .atom (.reference [unit '1']) none, .atom (.reference [unit '3']) none,
    .atom (.reference [unit '2']) none]

theorem Grammar.twoUnresolved_reads : twoUnresolved.Reads "(a)\\1\\3\\2" where
  units := by decide
  valid := by
    have h1 : CodeUnit.isDigit (unit '1') = true := by decide
    have h2 : CodeUnit.isDigit (unit '2') = true := by decide
    have h3 : CodeUnit.isDigit (unit '3') = true := by decide
    have hstop : CodeUnit.isDigit (unit '\\') = false := by decide
    simp [twoUnresolved, Alternation.Valid, ValidItems, Item.Valid, Opening.Valid, Atom.Valid,
      specialUnits, IsNumeral, Atom.IsAnchor, Item.EndsInDigits, Atom.IsReference, StartsDigit,
      itemUnits, Item.units, Atom.first, suffixUnits, h1, h2, h3, hstop]
  depth := by decide
  names := by decide

/-- The reference to the third group stands in front of the one to the second. -/
theorem parse_twoUnresolved :
    twoUnresolved.Reads "(a)\\1\\3\\2" ∧
      parse .narrow "(a)\\1\\3\\2" = refuse .badBackreference 5 := by
  obtain ⟨-, -, hrefused, -⟩ :=
    (backreferences_mean_groups .narrow "(a)\\1\\3\\2").2 _ twoUnresolved_reads
  exact ⟨twoUnresolved_reads, hrefused ⟨5, .number 3⟩ (by decide)⟩

/-! ## §4 Many groups -/

namespace Grammar

/-- `()` so many times, and `\N` behind. -/
def emptyGroups (digits : List CodeUnit) : Nat → List Item
  | 0 => [.atom (.reference digits) none]
  | n + 1 => .group .numbered (.last []) none :: emptyGroups digits n

section EmptyGroups

variable (digits : List CodeUnit) (count : Nat)

theorem itemUnits_emptyGroups : itemUnits (emptyGroups digits count) =
    (List.replicate count [unit '(', unit ')']).flatten ++ unit '\\' :: digits := by
  induction count with
  | zero => simp [emptyGroups, itemUnits, Item.units, Atom.first, Atom.tail, suffixUnits]
  | succ n ih =>
    rw [emptyGroups, itemUnits, ih, List.replicate_succ, List.flatten_cons, List.append_assoc]
    rfl

theorem validItems_emptyGroups (hdigits : IsNumeral digits)
    (hzero : digits.head? ≠ some (unit '0')) : ValidItems (emptyGroups digits count) := by
  induction count with
  | zero =>
    refine ⟨⟨⟨hdigits, hzero⟩, fun _ => rfl, ?_⟩, fun _ => not_startsDigit_nil, trivial⟩
    rintro q ⟨⟩
  | succ n ih =>
    refine ⟨⟨trivial, trivial, ?_⟩, False.elim, ih⟩
    rintro q ⟨⟩

theorem itemsDepth_emptyGroups : itemsDepth (emptyGroups digits count) ≤ 1 := by
  induction count with
  | zero => exact Nat.zero_le _
  | succ n ih => exact max_le (le_refl 1) ih

theorem itemsGroupCount_emptyGroups : itemsGroupCount (emptyGroups digits count) = count := by
  induction count with
  | zero => rfl
  | succ n ih =>
    rw [emptyGroups, itemsGroupCount, ih]
    exact Nat.add_comm 1 n

theorem itemsNames_emptyGroups (n : Nat) : itemsNames n (emptyGroups digits count) = [] := by
  induction count generalizing n with
  | zero => rfl
  | succ k ih =>
    rw [emptyGroups, itemsNames, ih]
    rfl

theorem itemsReferences_emptyGroups (position : Nat) :
    itemsReferences position (emptyGroups digits count) =
      [⟨position + 2 * count, .number (decimalValue digits)⟩] := by
  induction count generalizing position with
  | zero => rfl
  | succ n ih =>
    rw [emptyGroups, itemsReferences, ih]
    show [(⟨position + 2 + 2 * n, _⟩ : Reference)] = _
    rw [Nat.add_assoc, Nat.mul_succ, Nat.add_comm 2]

end EmptyGroups

end Grammar

/-- `()` so many times, and `\N` behind. -/
def emptyGroupsText (digits : List CodeUnit) (count : Nat) : Text :=
  ((List.replicate count [unit '(', unit ')']).flatten ++ unit '\\' :: digits).toArray

theorem Grammar.emptyGroups_reads {digits : List CodeUnit} (hdigits : IsNumeral digits)
    (hzero : digits.head? ≠ some (unit '0')) (count : Nat) :
    (Alternation.last (emptyGroups digits count)).Reads (emptyGroupsText digits count) where
  units := itemUnits_emptyGroups digits count
  valid := validItems_emptyGroups digits count hdigits hzero
  depth := (itemsDepth_emptyGroups digits count).trans (by decide)
  names := by
    rw [Alternation.names, itemsNames_emptyGroups]
    exact List.nodup_nil

/-- Behind enough empty groups a number past `maxRepeatCount` is taken for the
next one, whatever it is. -/
theorem parse_emptyGroups (w : Width) {digits : List CodeUnit} (hdigits : IsNumeral digits)
    (hzero : digits.head? ≠ some (unit '0')) (hlarge : maxRepeatCount < decimalValue digits)
    {count : Nat} (hcount : maxRepeatCount < count) :
    ∃ p, parse w (emptyGroupsText digits count) = .ok p ∧ p.groupCount = count ∧
      p.root.references = [maxRepeatCount + 1] := by
  have hreads := emptyGroups_reads hdigits hzero count
  have hgroups : (Alternation.last (emptyGroups digits count)).groupCount = count :=
    itemsGroupCount_emptyGroups digits count
  have hrefs : (Alternation.last (emptyGroups digits count)).references 0 =
      [⟨0 + 2 * count, .number (decimalValue digits)⟩] :=
    itemsReferences_emptyGroups digits count 0
  have hmeant : (Alternation.last (emptyGroups digits count)).groupMeant?
      (Target.number (decimalValue digits)).capped = some (maxRepeatCount + 1) := by
    rw [Target.capped, min_eq_right hlarge, Alternation.groupMeant?, hgroups]
    exact if_pos ⟨Nat.succ_pos _, hcount⟩
  have hresolved : (Alternation.last (emptyGroups digits count)).firstUnresolved? = none := by
    rw [Alternation.firstUnresolved?, hrefs]
    simp [hmeant]
  refine ⟨_, by rw [parse_of_reads w hreads, hresolved], hgroups, ?_⟩
  have hroot := Alternation.references_patternRead w hresolved
  rw [hrefs, List.map_singleton, hmeant] at hroot
  exact (List.map_inj_right fun _ _ => Option.some.inj).mp hroot

/-- Among 100001 groups a reference to group 100002 is taken for one to the last. -/
theorem parse_hundredThousandGroups :
    decimalValue (Text.ofString "100002").toList = 100002 ∧
      ∃ p, parse .narrow (emptyGroupsText (Text.ofString "100002").toList 100001) = .ok p ∧
        p.groupCount = 100001 ∧ p.root.references = [100001] := by
  have hvalue : decimalValue (Text.ofString "100002").toList = 100002 := by decide
  have hdigits : IsNumeral (Text.ofString "100002").toList := ⟨by decide, by decide⟩
  refine ⟨hvalue, parse_emptyGroups .narrow hdigits (by decide) ?_ (by decide)⟩
  rw [hvalue]
  decide

end LineRegex
