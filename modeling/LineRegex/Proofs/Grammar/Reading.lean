/-
LineRegex.Proofs.Grammar.Reading — the parser reads exactly the derivations.

The parser keeps open groups in frames, so the part of a pattern that is still
to be read is no derivation: it goes on with the innermost group, closes it,
goes on with the group around it, and so on to the end. Such a part is a
`Remainder`. Reading a derivation adds its trees to the draft (§3); when
reading succeeds, what was left to read is a remainder (§5).

  §1 Openings      — a group is opened when its name is new.
  §2 Steps         — what reading does at a bar, a parenthesis or an atom.
  §3 Derivations are read
  §4 Remainders
  §5 What is read is a derivation
-/
import LineRegex.Proofs.Grammar.Atoms
import LineRegex.Proofs.Grammar.Names

namespace LineRegex.Grammar

/-! ## §1 Openings -/

/-- The draft behind an opening. -/
def Opening.into (position : Nat) (o : Opening) (d : Draft) : Draft :=
  { d.enter position (o.index d.groupCount) with
    groupCount := d.groupCount + o.groupCount
    names := addNames d.names (o.names d.groupCount) }

theorem openGroup_of_fresh {position : Nat} {o : Opening} {d : Draft}
    (hnames : Fresh d.names (o.names d.groupCount)) :
    d.openGroup position (o.opener position) = .ok (o.into position d) := by
  cases o with
  | numbered => rfl
  | plain => rfl
  | named long name =>
    have hnew : d.names.find? name.toArray = none := hnames.1
    cases long <;> simp [Opening.opener, Draft.openGroup, hnew, Opening.into, Opening.index,
      Opening.groupCount, Opening.names, addNames]

theorem fresh_of_openGroup {position : Nat} {o : Opening} {d d' : Draft}
    (h : d.openGroup position (o.opener position) = .ok d') :
    Fresh d.names (o.names d.groupCount) := by
  cases o with
  | numbered => trivial
  | plain => trivial
  | named long name =>
    refine ⟨?_, trivial⟩
    show d.names.find? name.toArray = none
    cases hfind : d.names.find? name.toArray with
    | none => rfl
    | some n => cases long <;> simp [Opening.opener, Draft.openGroup, hfind, refuse] at h

/-! ## §2 Steps -/

section Steps

variable {w : Width} {position n : Nat} {rest : List CodeUnit} {d d' : Draft}

theorem read_bar : Draft.read w position (unit '|' :: rest) d =
    Draft.read w (position + 1) rest d.nextBranch := by
  rw [Draft.read]
  simp

theorem read_open {o : Opening} (ho : o.Valid) (hrest : startsWith '?' rest = false)
    (hdepth : d.frames.length < maxNestingDepth) (hnames : Fresh d.names (o.names d.groupCount)) :
    Draft.read w position (unit '(' :: o.units ++ rest) d =
      Draft.read w (position + 1 + o.units.length) rest (o.into position d) := by
  rw [List.cons_append, Draft.read]
  simp [Nat.not_le.mpr hdepth, lexGroupOpener_append position ho hrest, openGroup_of_fresh hnames,
    bind, Except.bind]

theorem read_close {q : Option Quantifier} (hq : ∀ q' ∈ q, q'.Valid)
    (hrest : startsQuantifier rest = false) {f : Frame} {frames : List Frame}
    (hframes : d.frames = f :: frames) :
    Draft.read w position (unit ')' :: suffixUnits q ++ rest) d =
      Draft.read w (position + 1 + (suffixUnits q).length) rest
        (Draft.push { d with level := f.outer, frames }
          (quantify q (.group f.index d.level.tree))) := by
  have hsuffix := lexSuffix_append (position + 1) (.group f.index d.level.tree) hq
    (by simp [Expr.isAnchor]) hrest
  rw [List.cons_append, Draft.read]
  simp [Draft.closeGroup?, hframes, hsuffix, bind, Except.bind]

/-- What follows the digits of a backreference does not prolong them. -/
theorem not_startsDigit_suffix {a : Atom} {q : Option Quantifier}
    (hdigits : (Item.atom a q).EndsInDigits → ¬ StartsDigit rest) (href : a.IsReference) :
    ¬ StartsDigit (suffixUnits q ++ rest) := by
  cases q with
  | none => exact hdigits ⟨href, rfl⟩
  | some q => cases q <;> exact not_startsDigit_cons rfl

theorem read_atom {a : Atom} {q : Option Quantifier} (hitem : (Item.atom a q).Valid)
    (hrest : startsQuantifier rest = false)
    (hdigits : (Item.atom a q).EndsInDigits → ¬ StartsDigit rest) :
    Draft.read w position (a.first :: a.tail ++ suffixUnits q ++ rest) d =
      Draft.read w (position + 1 + a.tail.length + (suffixUnits q).length) rest
        (d.push (quantify q (a.expr w readReference position))) := by
  obtain ⟨ha, hanchor, hq⟩ := hitem
  have hatom := lexAtom_append w position ha (not_startsDigit_suffix hdigits)
  have hsuffix := lexSuffix_append (position + 1 + a.tail.length)
    (a.expr w readReference position) hq
    (fun h => hanchor ((a.isAnchor_expr w readReference position).mp h)) hrest
  obtain ⟨hbar, hopen, hclose, hstart⟩ := Atom.first_ne ha
  rw [List.append_assoc, List.cons_append, Draft.read]
  simp [hbar, hopen, hclose, hstart, hatom, hsuffix, bind, Except.bind]

end Steps

/-! ## §3 Derivations are read -/

/-- Nothing follows that could belong to a sequence. -/
def EndsSequence (rest : List CodeUnit) : Prop :=
  ∀ u ∈ rest.head?, u = unit '|' ∨ u = unit ')'

theorem EndsSequence.not_startsQuantifier {rest : List CodeUnit} (h : EndsSequence rest) :
    startsQuantifier rest = false := by
  cases rest with
  | nil => rfl
  | cons u rest => rcases h u rfl with rfl | rfl <;> rfl

theorem EndsSequence.not_startsDigit {rest : List CodeUnit} (h : EndsSequence rest) :
    ¬ StartsDigit rest := by
  cases rest with
  | nil => exact not_startsDigit_nil
  | cons u rest => rcases h u rfl with rfl | rfl <;> exact not_startsDigit_cons rfl

theorem startsWith_question {rest : List CodeUnit} (h : startsQuantifier rest = false) :
    startsWith '?' rest = false := by
  cases rest with
  | nil => rfl
  | cons u rest =>
    have hu : u ≠ unit '?' := by
      rintro rfl
      simp [startsQuantifier, CodeUnit.isQuantifierStart] at h
    simp [startsWith, hu]

/-- No item begins like a bar, a closing parenthesis or a quantifier. -/
theorem Item.units_cons {i : Item} (hi : i.Valid) :
    ∃ u us, i.units = u :: us ∧ u ≠ unit '|' ∧ u ≠ unit ')' ∧ u.isQuantifierStart = false := by
  cases i with
  | atom a q =>
    obtain ⟨hbar, -, hclose, hstart⟩ := Atom.first_ne hi.1
    exact ⟨a.first, a.tail ++ suffixUnits q, by rw [Item.units, List.cons_append], hbar, hclose,
      hstart⟩
  | group o body q =>
    exact ⟨unit '(', o.units ++ (body.units ++ unit ')' :: suffixUnits q),
      by rw [Item.units, List.cons_append], by simp, by simp, rfl⟩

theorem not_startsQuantifier_items {is : List Item} (his : ValidItems is) {rest : List CodeUnit}
    (hrest : startsQuantifier rest = false) : startsQuantifier (itemUnits is ++ rest) = false := by
  cases is with
  | nil => exact hrest
  | cons i is =>
    obtain ⟨u, us, hunits, -, -, hu⟩ := Item.units_cons his.1
    rw [itemUnits, hunits]
    exact hu

theorem Alternation.not_startsQuantifier {a : Alternation} (ha : a.Valid) {rest : List CodeUnit}
    (hrest : startsQuantifier rest = false) : startsQuantifier (a.units ++ rest) = false := by
  cases a with
  | last items => exact not_startsQuantifier_items ha hrest
  | more items more =>
    rw [Alternation.units, List.append_assoc]
    exact not_startsQuantifier_items ha.1 rfl

theorem startsDigit_append {units rest : List CodeUnit} (h : ¬ StartsDigit units)
    (hrest : ¬ StartsDigit rest) : ¬ StartsDigit (units ++ rest) := by
  cases units with
  | nil => exact hrest
  | cons u units => simpa [StartsDigit] using h

/-- The draft behind an item. -/
def Item.into (w : Width) (position : Nat) (i : Item) (d : Draft) : Draft :=
  { d.push (i.expr w readReference position d.groupCount) with
    groupCount := d.groupCount + i.groupCount
    names := addNames d.names (i.names d.groupCount) }

/-- The draft behind a sequence. -/
def itemsInto (w : Width) (position : Nat) : List Item → Draft → Draft
  | [], d => d
  | i :: is, d => itemsInto w (position + i.units.length) is (i.into w position d)

/-- The draft behind an alternation. -/
def Alternation.into (w : Width) (position : Nat) : Alternation → Draft → Draft
  | .last items, d => itemsInto w position items d
  | .more items rest, d =>
    rest.into w (position + (itemUnits items).length + 1) (itemsInto w position items d).nextBranch

theorem itemsInto_eq (w : Width) (position : Nat) (is : List Item) (d : Draft) :
    itemsInto w position is d =
      { level := { branches := d.level.branches
                   items := (itemExprs w readReference position d.groupCount is).reverse ++
                     d.level.items }
        frames := d.frames
        groupCount := d.groupCount + itemsGroupCount is
        names := addNames d.names (itemsNames d.groupCount is) } := by
  induction is generalizing position d with
  | nil => simp [itemsInto, itemExprs, itemsGroupCount, itemsNames, addNames]
  | cons i is ih =>
    simp [itemsInto, ih, Item.into, itemExprs, itemsGroupCount, itemsNames, addNames_append,
      Draft.push, Level.push, Nat.add_assoc]

theorem Alternation.into_eq (w : Width) (position : Nat) (a : Alternation) (d : Draft)
    (hitems : d.level.items = []) :
    (a.into w position d).level.tree =
        .oneOf (d.level.branches.reverse ++ a.branches w readReference position d.groupCount) ∧
      (a.into w position d).frames = d.frames ∧
      (a.into w position d).groupCount = d.groupCount + a.groupCount ∧
      (a.into w position d).names = addNames d.names (a.names d.groupCount) := by
  fun_induction Alternation.into w position a d with
  | case1 position items d =>
    simp [itemsInto_eq, hitems, Level.tree, Level.nextBranch, Alternation.branches,
      Alternation.groupCount, Alternation.names]
  | case2 position items rest d ih =>
    obtain ⟨htree, hframes, hcount, hnames⟩ := ih rfl
    rw [htree, hframes, hcount, hnames]
    simp [itemsInto_eq, hitems, Draft.nextBranch, Level.nextBranch, Alternation.branches,
      Alternation.groupCount, Alternation.names, addNames_append, Nat.add_assoc]

mutual

theorem read_item (w : Width) (position : Nat) (d : Draft) (rest : List CodeUnit) (i : Item)
    (hi : i.Valid) (hrest : startsQuantifier rest = false)
    (hdigits : i.EndsInDigits → ¬ StartsDigit rest)
    (hdepth : d.frames.length + i.depth ≤ maxNestingDepth)
    (hnames : Fresh d.names (i.names d.groupCount)) :
    Draft.read w position (i.units ++ rest) d =
      Draft.read w (position + i.units.length) rest (i.into w position d) := by
  cases i with
  | atom a q =>
    have hlength : position + 1 + a.tail.length + (suffixUnits q).length =
        position + (a.first :: a.tail ++ suffixUnits q).length := by
      simp only [List.cons_append, List.length_cons, List.length_append]
      omega
    rw [Item.units, read_atom hi hrest hdigits, hlength]
    rfl
  | group o body q =>
    obtain ⟨ho, hbody, hq⟩ := hi
    obtain ⟨hopen, hinner⟩ := fresh_append.mp hnames
    have hclose : startsQuantifier (unit ')' :: suffixUnits q ++ rest) = false := rfl
    have hinto := body.into_eq w (position + 1 + o.units.length) (o.into position d) rfl
    obtain ⟨htree, hframes, hcount, htable⟩ := hinto
    have hlength : position + 1 + o.units.length + body.units.length + 1 + (suffixUnits q).length =
        position + (Item.group o body q).units.length := by
      simp only [Item.units, List.cons_append, List.length_cons, List.length_append]
      omega
    rw [Item.depth] at hdepth
    rw [← hlength, Item.units, List.append_assoc, List.append_assoc,
      read_open ho (startsWith_question (body.not_startsQuantifier hbody hclose)) (by omega) hopen,
      read_alternation w _ _ _ body hbody (by rintro u ⟨⟩; exact .inr rfl)
        (by simp only [Opening.into, Draft.enter, List.length_cons]; omega) hinner,
      read_close hq hrest hframes, htree]
    simp only [Draft.push, hcount, htable]
    simp [Draft.push, Item.into, Item.expr, Opening.into, Draft.enter, Level.empty, Item.groupCount,
      Item.names, addNames_append, Nat.add_assoc]

theorem read_items (w : Width) (position : Nat) (d : Draft) (rest : List CodeUnit)
    (is : List Item) (his : ValidItems is) (hrest : EndsSequence rest)
    (hdepth : d.frames.length + itemsDepth is ≤ maxNestingDepth)
    (hnames : Fresh d.names (itemsNames d.groupCount is)) :
    Draft.read w position (itemUnits is ++ rest) d =
      Draft.read w (position + (itemUnits is).length) rest (itemsInto w position is d) := by
  cases is with
  | nil => rfl
  | cons i is =>
    obtain ⟨hi, hdigits, his⟩ := his
    obtain ⟨hfirst, hothers⟩ := fresh_append.mp hnames
    rw [itemsDepth] at hdepth
    have hstart := not_startsQuantifier_items his hrest.not_startsQuantifier
    have hdepths : (i.into w position d).frames.length + itemsDepth is ≤ maxNestingDepth := by
      rw [show (i.into w position d).frames = d.frames from rfl]
      omega
    rw [itemUnits, List.append_assoc,
      read_item w position d _ i hi hstart
        (fun h => startsDigit_append (hdigits h) hrest.not_startsDigit) (by omega) hfirst,
      read_items w _ (i.into w position d) rest is his hrest hdepths hothers,
      itemsInto, List.length_append, Nat.add_assoc]

/-- A derivation is read into the draft, whatever bar or parenthesis follows. -/
theorem read_alternation (w : Width) (position : Nat) (d : Draft) (rest : List CodeUnit)
    (a : Alternation) (ha : a.Valid) (hrest : EndsSequence rest)
    (hdepth : d.frames.length + a.depth ≤ maxNestingDepth)
    (hnames : Fresh d.names (a.names d.groupCount)) :
    Draft.read w position (a.units ++ rest) d =
      Draft.read w (position + a.units.length) rest (a.into w position d) := by
  cases a with
  | last items => exact read_items w position d rest items ha hrest hdepth hnames
  | more items more =>
    obtain ⟨hitems, hmore⟩ := ha
    obtain ⟨hfirst, hothers⟩ := fresh_append.mp hnames
    rw [Alternation.depth] at hdepth
    rw [Alternation.units, List.append_assoc,
      read_items w position d _ items hitems (by rintro u ⟨⟩; exact .inl rfl) (by omega) hfirst,
      List.cons_append, read_bar,
      read_alternation w _ _ rest more hmore hrest
        (by simp only [itemsInto_eq, Draft.nextBranch]; omega)
        (by simpa only [itemsInto_eq, Draft.nextBranch] using hothers),
      Alternation.into, List.length_append, List.length_cons]
    congr 1
    omega

end

/-! ## §4 Remainders -/

/-- What is left to read of a pattern: the rest of the innermost group and,
unless that is the whole pattern, its quantifier and what is left around it. -/
inductive Remainder where
  | last (a : Alternation)
  | close (a : Alternation) (q : Option Quantifier) (outer : Remainder)

/-- The derivation with an item in front. -/
def Alternation.cons (i : Item) : Alternation → Alternation
  | .last items => .last (i :: items)
  | .more items rest => .more (i :: items) rest

namespace Remainder

/-- How many groups are open. -/
def openGroups : Remainder → Nat
  | last _ => 0
  | close _ _ outer => outer.openGroups + 1

def units : Remainder → List CodeUnit
  | last a => a.units
  | close a q outer => a.units ++ unit ')' :: suffixUnits q ++ outer.units

def Valid : Remainder → Prop
  | last a => a.Valid
  | close a q outer => a.Valid ∧ (∀ q' ∈ q, q'.Valid) ∧ outer.Valid

/-- How many groups are open at once, counting those that are open now. -/
def depth : Remainder → Nat
  | last a => a.depth
  | close a _ outer => max (a.depth + outer.openGroups + 1) outer.depth

/-- The names that are still to come when `n` groups have been opened. -/
def names (n : Nat) : Remainder → List (Text × Nat)
  | last a => a.names n
  | close a _ outer => a.names n ++ outer.names (n + a.groupCount)

/-- The remainder with an item in front. -/
def cons (i : Item) : Remainder → Remainder
  | last a => last (a.cons i)
  | close a q outer => close (a.cons i) q outer

/-- The remainder with a bar in front. -/
def bar : Remainder → Remainder
  | last a => last (.more [] a)
  | close a q outer => close (.more [] a) q outer

end Remainder

section Front

variable (i : Item) (n : Nat)

theorem Alternation.units_cons (a : Alternation) : (a.cons i).units = i.units ++ a.units := by
  cases a <;> simp [Alternation.cons, Alternation.units, itemUnits]

theorem Alternation.depth_cons (a : Alternation) : (a.cons i).depth = max i.depth a.depth := by
  cases a <;> simp [Alternation.cons, Alternation.depth, itemsDepth, Nat.max_assoc]

theorem Alternation.groupCount_cons (a : Alternation) :
    (a.cons i).groupCount = i.groupCount + a.groupCount := by
  cases a <;> simp [Alternation.cons, Alternation.groupCount, itemsGroupCount, Nat.add_assoc]

theorem Alternation.names_cons (a : Alternation) :
    (a.cons i).names n = i.names n ++ a.names (n + i.groupCount) := by
  cases a <;> simp [Alternation.cons, Alternation.names, itemsNames, itemsGroupCount, Nat.add_assoc]

theorem Remainder.openGroups_cons (r : Remainder) : (r.cons i).openGroups = r.openGroups := by
  cases r <;> rfl

theorem Remainder.units_cons (r : Remainder) : (r.cons i).units = i.units ++ r.units := by
  cases r <;> simp [cons, units, Alternation.units_cons]

theorem Remainder.depth_cons (r : Remainder) :
    (r.cons i).depth = max (i.depth + r.openGroups) r.depth := by
  cases r with
  | last a => simp [cons, depth, Alternation.depth_cons, openGroups]
  | close a q outer =>
    simp only [cons, depth, Alternation.depth_cons, openGroups]
    omega

theorem Remainder.names_cons (r : Remainder) :
    (r.cons i).names n = i.names n ++ r.names (n + i.groupCount) := by
  cases r <;> simp [cons, names, Alternation.names_cons, Alternation.groupCount_cons, Nat.add_assoc]

theorem Remainder.units_bar (r : Remainder) : r.bar.units = unit '|' :: r.units := by
  cases r <;> simp [bar, units, Alternation.units, itemUnits]

theorem Remainder.depth_bar (r : Remainder) : r.bar.depth = r.depth := by
  cases r <;> simp [bar, depth, Alternation.depth, itemsDepth]

theorem Remainder.names_bar (r : Remainder) : r.bar.names n = r.names n := by
  cases r <;> simp [bar, names, Alternation.names, Alternation.groupCount, itemsNames,
    itemsGroupCount]

end Front

theorem not_startsDigit_of_append {units rest : List CodeUnit} (h : ¬ StartsDigit (units ++ rest)) :
    ¬ StartsDigit units := by
  cases units with
  | nil => exact not_startsDigit_nil
  | cons u us => simpa [StartsDigit] using h

theorem Alternation.valid_cons {i : Item} {a : Alternation} (hi : i.Valid) (ha : a.Valid)
    (hdigits : i.EndsInDigits → ¬ StartsDigit a.units) : (a.cons i).Valid := by
  cases a with
  | last items => exact ⟨hi, hdigits, ha⟩
  | more items rest => exact ⟨⟨hi, fun h => not_startsDigit_of_append (hdigits h), ha.1⟩, ha.2⟩

theorem Remainder.valid_cons {i : Item} {r : Remainder} (hi : i.Valid) (hr : r.Valid)
    (hdigits : i.EndsInDigits → ¬ StartsDigit r.units) : (r.cons i).Valid := by
  cases r with
  | last a => exact Alternation.valid_cons hi hr hdigits
  | close a q outer =>
    refine ⟨Alternation.valid_cons hi hr.1 fun h => ?_, hr.2⟩
    have hunits := hdigits h
    rw [units, List.append_assoc] at hunits
    exact not_startsDigit_of_append hunits

theorem Remainder.valid_bar {r : Remainder} (hr : r.Valid) : r.bar.Valid := by
  cases r with
  | last a => exact ⟨trivial, hr⟩
  | close a q outer => exact ⟨⟨trivial, hr.1⟩, hr.2⟩

/-! ## §5 What is read is a derivation -/

section Inversion

variable {w : Width} {position : Nat} {rest : List CodeUnit} {d d' : Draft}

theorem opening_of_read (h : Draft.read w position (unit '(' :: rest) d = .ok d') :
    d.frames.length < maxNestingDepth ∧ ∃ (o : Opening) (rest' : List CodeUnit), o.Valid ∧
      rest = o.units ++ rest' ∧ Fresh d.names (o.names d.groupCount) ∧
      Draft.read w (position + 1 + o.units.length) rest' (o.into position d) = .ok d' := by
  rw [Draft.read] at h
  simp only [unit_inj, Char.reduceEq, if_false, if_true] at h
  split at h
  · simp [refuse] at h
  · rename_i hdepth
    obtain ⟨⟨opener, n⟩, hopener, h⟩ := bind_eq_ok_iff.mp h
    obtain ⟨o, rest', ho, rfl, rfl, rfl⟩ := exists_opening_of_lexGroupOpener hopener
    obtain ⟨inner, hopen, h⟩ := bind_eq_ok_iff.mp h
    have hnames := fresh_of_openGroup hopen
    rw [openGroup_of_fresh hnames, Except.ok.injEq] at hopen
    subst hopen
    rw [List.drop_left] at h
    exact ⟨Nat.not_le.mp hdepth, o, rest', ho, rfl, hnames, h⟩

theorem closing_of_read (h : Draft.read w position (unit ')' :: rest) d = .ok d') :
    ∃ (f : Frame) (frames : List Frame) (q : Option Quantifier) (rest' : List CodeUnit),
      d.frames = f :: frames ∧ (∀ q' ∈ q, q'.Valid) ∧ rest = suffixUnits q ++ rest' ∧
      Draft.read w (position + 1 + (suffixUnits q).length) rest'
        (Draft.push { d with level := f.outer, frames }
          (quantify q (.group f.index d.level.tree))) = .ok d' := by
  cases hframes : d.frames with
  | nil =>
    rw [Draft.read] at h
    simp [Draft.closeGroup?, hframes, refuse] at h
  | cons f frames =>
    cases hsuffix : lexSuffix (position + 1) (.group f.index d.level.tree) rest with
    | error err =>
      rw [Draft.read] at h
      simp [Draft.closeGroup?, hframes, hsuffix, bind, Except.bind] at h
    | ok found =>
      obtain ⟨e, k⟩ := found
      obtain ⟨q, rest', hq, -, rfl, hrest, rfl⟩ := exists_suffix_of_lexSuffix hsuffix
      rw [← List.cons_append, read_close hq hrest hframes] at h
      exact ⟨f, frames, q, rest', rfl, hq, rfl, h⟩

theorem exists_item_of_lexSuffix {a : Atom} {units : List CodeUnit} {e : Expr Reference}
    {n k : Nat} (ha : a.Valid) (hfollow : a.IsReference → ¬ StartsDigit units)
    (h : lexSuffix n (a.expr w readReference position) units = .ok (e, k)) :
    ∃ (q : Option Quantifier) (rest : List CodeUnit), (Item.atom a q).Valid ∧
      units = suffixUnits q ++ rest ∧ startsQuantifier rest = false ∧
      ((Item.atom a q).EndsInDigits → ¬ StartsDigit rest) := by
  obtain ⟨q, rest, hq, hanchor, rfl, hrest, -⟩ := exists_suffix_of_lexSuffix h
  refine ⟨q, rest, ⟨ha, ?_, hq⟩, rfl, hrest, ?_⟩
  · intro hisAnchor
    exact hanchor ((a.isAnchor_expr w readReference position).mpr hisAnchor)
  · rintro ⟨href, rfl⟩
    exact hfollow href

theorem atom_of_read {u : CodeUnit} (hdepth : d.frames.length ≤ maxNestingDepth)
    (hbar : u ≠ unit '|') (hopen : u ≠ unit '(') (hclose : u ≠ unit ')')
    (h : Draft.read w position (u :: rest) d = .ok d') :
    ∃ (a : Atom) (q : Option Quantifier) (rest' : List CodeUnit), (Item.atom a q).Valid ∧
      u :: rest = (Item.atom a q).units ++ rest' ∧
      ((Item.atom a q).EndsInDigits → ¬ StartsDigit rest') ∧
      Draft.read w (position + (Item.atom a q).units.length) rest'
        ((Item.atom a q).into w position d) = .ok d' := by
  have hread := h
  rw [Draft.read] at hread
  simp only [hbar, hopen, hclose, if_false] at hread
  split at hread
  · simp [refuse] at hread
  · rename_i hstart
    obtain ⟨⟨e, n⟩, hatom, hread⟩ := bind_eq_ok_iff.mp hread
    obtain ⟨a, units, ha, rfl, rfl, rfl, rfl, hfollow⟩ :=
      exists_expr_of_lexAtom hbar hopen hclose (by simpa using hstart) hatom
    obtain ⟨⟨e, k⟩, hsuffix, -⟩ := bind_eq_ok_iff.mp hread
    rw [List.drop_left] at hsuffix
    obtain ⟨q, rest', hitem, rfl, hrest, hdigits⟩ := exists_item_of_lexSuffix ha hfollow hsuffix
    have hunits : a.first :: (a.tail ++ (suffixUnits q ++ rest')) =
        (Item.atom a q).units ++ rest' := by simp [Item.units]
    rw [hunits, read_item w position d rest' (.atom a q) hitem hrest hdigits hdepth trivial] at h
    exact ⟨a, q, rest', hitem, hunits, hdigits, h⟩

end Inversion

/-- The remainder is what a draft still needs: it spells the units, closes the
open groups, and brings names that the draft does not have. -/
structure Remainder.Continues (r : Remainder) (d : Draft) (source : List CodeUnit) : Prop where
  openGroups : r.openGroups = d.frames.length
  units : r.units = source
  valid : r.Valid
  depth : r.depth ≤ maxNestingDepth
  names : Fresh d.names (r.names d.groupCount)

namespace Remainder.Continues

variable {w : Width} {position : Nat} {d : Draft} {r : Remainder} {source : List CodeUnit}

theorem bar (h : r.Continues d.nextBranch source) : r.bar.Continues d (unit '|' :: source) where
  openGroups := by
    rw [← show d.nextBranch.frames = d.frames from rfl, ← h.openGroups]
    cases r <;> rfl
  units := by rw [Remainder.units_bar, h.units]
  valid := Remainder.valid_bar h.valid
  depth := by rw [Remainder.depth_bar]; exact h.depth
  names := by rw [Remainder.names_bar]; exact h.names

theorem opening {o : Opening} {body : Alternation} {q : Option Quantifier} {outer : Remainder}
    (ho : o.Valid) (hnew : Fresh d.names (o.names d.groupCount))
    (h : (Remainder.close body q outer).Continues (o.into position d) source) :
    (outer.cons (.group o body q)).Continues d (unit '(' :: o.units ++ source) := by
  obtain ⟨hopen, hunits, ⟨hbody, hq, houter⟩, hdepth, hnames⟩ := h
  have hopen : outer.openGroups = d.frames.length := Nat.succ.inj hopen
  refine ⟨?_, ?_, Remainder.valid_cons ⟨ho, hbody, hq⟩ houter False.elim, ?_, ?_⟩
  · rw [Remainder.openGroups_cons, hopen]
  · rw [Remainder.units_cons, ← hunits]
    simp [Item.units, Remainder.units]
  · rw [Remainder.depth_cons, Item.depth]
    rw [Remainder.depth] at hdepth
    omega
  · rw [Remainder.names_cons, Item.names, Item.groupCount, List.append_assoc, fresh_append,
      ← Nat.add_assoc]
    exact ⟨hnew, hnames⟩

theorem closing {f : Frame} {frames : List Frame} {q : Option Quantifier} {item : Expr Reference}
    (hframes : d.frames = f :: frames) (hdepth : d.frames.length ≤ maxNestingDepth)
    (hq : ∀ q' ∈ q, q'.Valid)
    (h : r.Continues (Draft.push { d with level := f.outer, frames } item) source) :
    (Remainder.close (.last []) q r).Continues d (unit ')' :: suffixUnits q ++ source) := by
  have hopen : r.openGroups + 1 = d.frames.length := by rw [h.openGroups, hframes]; rfl
  refine ⟨hopen, ?_, ⟨trivial, hq, h.valid⟩, ?_, h.names⟩
  · rw [Remainder.units, h.units]
    simp [Alternation.units, itemUnits]
  · have := h.depth
    simp only [Remainder.depth, Alternation.depth, itemsDepth]
    omega

theorem atom {a : Atom} {q : Option Quantifier} (hitem : (Item.atom a q).Valid)
    (hdigits : (Item.atom a q).EndsInDigits → ¬ StartsDigit source)
    (hdepth : d.frames.length ≤ maxNestingDepth)
    (h : r.Continues ((Item.atom a q).into w position d) source) :
    (r.cons (.atom a q)).Continues d ((Item.atom a q).units ++ source) where
  openGroups := by rw [Remainder.openGroups_cons]; exact h.openGroups
  units := by rw [Remainder.units_cons, h.units]
  valid := Remainder.valid_cons hitem h.valid (by rwa [h.units])
  depth := by
    have hopen : r.openGroups = d.frames.length := h.openGroups
    have := h.depth
    rw [Remainder.depth_cons, Item.depth]
    omega
  names := by rw [Remainder.names_cons]; exact h.names

end Remainder.Continues

/-- When reading succeeds and leaves no group open, what was read is a
remainder for the draft. -/
theorem exists_remainder_of_read {w : Width} {position : Nat} {source : List CodeUnit}
    {d d' : Draft} (hdepth : d.frames.length ≤ maxNestingDepth) (hend : d'.frames = [])
    (h : Draft.read w position source d = .ok d') : ∃ r : Remainder, r.Continues d source := by
  match source, h with
  | [], h =>
    rw [Draft.read, Except.ok.injEq] at h
    subst h
    exact ⟨.last (.last []), by rw [hend]; rfl, rfl, trivial, Nat.zero_le _, trivial⟩
  | u :: rest, h =>
    by_cases hbar : u = unit '|'
    · subst hbar
      rw [read_bar] at h
      obtain ⟨r, hr⟩ := exists_remainder_of_read (d := d.nextBranch) hdepth hend h
      exact ⟨r.bar, hr.bar⟩
    by_cases hopen : u = unit '('
    · subst hopen
      obtain ⟨hless, o, rest', ho, hunits, hnew, hread⟩ := opening_of_read h
      obtain ⟨r, hr⟩ := exists_remainder_of_read (d := o.into position d) hless hend hread
      cases r with
      | last a => simpa [Remainder.openGroups, Opening.into, Draft.enter] using hr.openGroups
      | close body q outer =>
        rw [hunits]
        exact ⟨outer.cons (.group o body q), hr.opening ho hnew⟩
    by_cases hclose : u = unit ')'
    · subst hclose
      obtain ⟨f, frames, q, rest', hframes, hq, hunits, hread⟩ := closing_of_read h
      have houter : frames.length ≤ maxNestingDepth := by
        rw [hframes, List.length_cons] at hdepth
        omega
      obtain ⟨r, hr⟩ := exists_remainder_of_read (by exact houter) hend hread
      rw [hunits]
      exact ⟨.close (.last []) q r, hr.closing hframes hdepth hq⟩
    · obtain ⟨a, q, rest', hitem, hunits, hdigits, hread⟩ :=
        atom_of_read hdepth hbar hopen hclose h
      obtain ⟨r, hr⟩ := exists_remainder_of_read (by exact hdepth) hend hread
      rw [hunits]
      exact ⟨r.cons (.atom a q), hr.atom hitem hdigits hdepth⟩
termination_by source.length
decreasing_by
  · simp
  · simp only [hunits, List.length_cons, List.length_append]
    omega
  · simp only [hunits, List.length_cons, List.length_append]
    omega
  · simp only [hunits, Item.units, List.cons_append, List.length_cons, List.length_append]
    omega

/-- What the parser reads to its end, with every group closed, is spelled by
a derivation. -/
theorem exists_derivation_of_read {w : Width} {source : Text} {d : Draft}
    (h : Draft.empty.read w 0 source.toList = .ok d) (hend : d.frames = []) :
    ∃ a : Alternation, a.Reads source := by
  obtain ⟨r, hr⟩ := exists_remainder_of_read (d := Draft.empty) (Nat.zero_le _) hend h
  cases r with
  | last a => exact ⟨a, hr.units, hr.valid, hr.depth, (fresh_iff.mp hr.names).1⟩
  | close a q outer => exact absurd hr.openGroups (by simp [Remainder.openGroups, Draft.empty])

end LineRegex.Grammar
