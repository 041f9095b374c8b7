/-
LineRegex.Proofs.Width.Parsing — narrow patterns are parsed alike.

Where all units of a pattern are narrow, the wide parser meets the same units
and takes the same decisions as the narrow one, so it fails at the same places.
The only thing that depends on the width is how far a class reaches.

  §1 Narrow units  — units, and the members of brackets that they spell.
  §2 Atoms         — brackets, escapes and quantifiers.
  §3 Drafts        — the steps of reading, with the classes replaced.
  §4 Parsing
-/
import LineRegex.Proofs.Grammar.Atoms
import LineRegex.Proofs.Width.Clipping
import LineRegex.Proofs.Width.Trees

namespace LineRegex

/-! ## §1 Narrow units -/

/-- Every unit is a byte. -/
def IsNarrow (units : List CodeUnit) : Prop := ∀ u ∈ units, u ≤ Width.narrow.maxUnit

instance (units : List CodeUnit) : Decidable (IsNarrow units) :=
  inferInstanceAs (Decidable (∀ u ∈ units, u ≤ Width.narrow.maxUnit))

theorem IsNarrow.drop {units : List CodeUnit} (h : IsNarrow units) (n : Nat) :
    IsNarrow (units.drop n) :=
  fun u hu => h u (List.mem_of_mem_drop hu)

theorem IsNarrow.tail {u : CodeUnit} {units : List CodeUnit} (h : IsNarrow (u :: units)) :
    IsNarrow units :=
  (List.forall_mem_cons.mp h).2

/-- What a class becomes in the narrow width. -/
abbrev CharClass.narrowed : CharClass → CharClass := CharClass.clip Width.narrow.maxUnit

namespace Grammar

theorem EscapeForm.isNarrow_of_meaning {e : EscapeForm} (h : IsNarrow e.units) {v : CodeUnit}
    (hv : e.meaning = .single v) : v ≤ Width.narrow.maxUnit := by
  have hdigit (u : CodeUnit) : u.hexValue?.getD 0 < 16 := by
    cases hu : u.hexValue? with
    | none => exact Nat.zero_lt_succ _
    | some x => exact CodeUnit.hexValue?_lt hu
  cases e with
  | control c =>
    cases hv
    cases c <;> decide
  | letter u =>
    cases hv
    exact Nat.le_of_lt (Nat.lt_trans (Nat.mod_lt u (by decide)) (by decide : 32 < 255))
  | hex high low =>
    cases hv
    have hhigh := hdigit high
    have hlow := hdigit low
    show high.hexValue?.getD 0 * 16 + low.hexValue?.getD 0 ≤ 255
    omega
  | shorthand s => cases hv
  | identity u =>
    cases hv
    exact h _ List.mem_cons_self
  | backspace =>
    cases hv
    decide

theorem BracketUnit.isNarrow_of_meaning {a : BracketUnit} (h : IsNarrow (a.first :: a.tail))
    {v : CodeUnit} (hv : a.meaning = .single v) : v ≤ Width.narrow.maxUnit := by
  cases a with
  | plain u =>
    cases hv
    exact h _ List.mem_cons_self
  | escaped e =>
    exact EscapeForm.isNarrow_of_meaning (fun u hu => h u (List.mem_cons_of_mem _ hu)) hv

theorem BracketUnit.value_le {a : BracketUnit} (h : IsNarrow (a.first :: a.tail)) :
    a.value ≤ Width.narrow.maxUnit := by
  unfold value
  split
  · rename_i u hu
    exact isNarrow_of_meaning h hu
  · exact Nat.zero_le _

theorem BracketMember.isNarrow_member {m : BracketMember} (h : IsNarrow (m.first :: m.tail)) :
    m.member.IsNarrow := by
  cases m with
  | one a =>
    simp only [member]
    split
    · rename_i u hu
      exact BracketUnit.isNarrow_of_meaning h hu
    · trivial
  | range lo hi =>
    refine ⟨BracketUnit.value_le fun u hu => h u ?_, BracketUnit.value_le fun u hu => h u ?_⟩
    · rcases List.mem_cons.mp hu with rfl | hu
      · exact List.mem_cons_self
      · exact List.mem_cons_of_mem _ (List.mem_append_left _ hu)
    · exact List.mem_cons_of_mem _ (List.mem_append_right _ (List.mem_cons_of_mem _ hu))

theorem isNarrow_of_mem_members {ms : List BracketMember} (h : IsNarrow (memberUnits ms)) :
    ∀ m ∈ ms, IsNarrow (m.first :: m.tail) := by
  induction ms with
  | nil => exact fun m hm => (List.not_mem_nil hm).elim
  | cons m ms ih =>
    refine List.forall_mem_cons.mpr ⟨?_, ih ?_⟩
    · exact fun u hu => h u (List.mem_append_left _ hu)
    · exact fun u hu => h u (List.mem_append_right _ hu)

end Grammar

/-- The members that narrow units spell name narrow units only. -/
theorem isNarrow_of_lexMembers {opening position : Nat} {units : List CodeUnit}
    (hunits : IsNarrow units) {members : List Member} {n : Nat}
    (h : lexMembers opening position units = .ok (members, n)) : ∀ m ∈ members, m.IsNarrow := by
  obtain ⟨ms, rest, -, rfl, rfl, -⟩ := Grammar.exists_members_of_lexMembers h
  have hms : IsNarrow (Grammar.memberUnits ms) := fun u hu => hunits u (List.mem_append_left _ hu)
  intro _ hmember
  obtain ⟨m, hm, rfl⟩ := List.mem_map.mp hmember
  exact Grammar.BracketMember.isNarrow_member (Grammar.isNarrow_of_mem_members hms m hm)

/-! ## §2 Atoms -/

theorem lexBracket_narrow (position : Nat) {units : List CodeUnit} (h : IsNarrow units) :
    lexBracket .narrow position units =
      (fun (c, n) => (c.narrowed, n)) <$> lexBracket .wide position units := by
  unfold lexBracket
  dsimp only
  cases hread : lexMembers position (position + 1 + if startsWith '^' units then 1 else 0)
      (units.drop (if startsWith '^' units then 1 else 0)) with
  | error e => rfl
  | ok found =>
    obtain ⟨members, n⟩ := found
    have hmembers := isNarrow_of_lexMembers (h.drop _) hread
    cases members with
    | nil => rfl
    | cons m ms =>
      exact congrArg (fun c => Except.ok (c, _ + n)) (CharClass.ofMembers_narrow _ hmembers)

theorem Escape.toExpr_narrow (e : Escape) :
    e.toExpr .narrow = (e.toExpr .wide).mapClasses .narrowed := by
  cases e with
  | ofClass e =>
    cases e with
    | single u => rfl
    | shorthand s =>
      exact congrArg (fun ranges => Expr.charClass ⟨ranges, false⟩) s.ranges_narrow
  | reference r => rfl

/-- An atom is read alike, and its class reaches as far as the width does. -/
theorem lexAtom_narrow (position : Nat) (u : CodeUnit) {units : List CodeUnit}
    (h : IsNarrow units) :
    lexAtom .narrow position u units =
      (fun (e, n) => (e.mapClasses .narrowed, n)) <$> lexAtom .wide position u units := by
  unfold lexAtom
  split
  · rw [lexBracket_narrow position h]
    cases lexBracket .wide position units <;> rfl
  · split
    · cases lexEscape position units with
      | error e => rfl
      | ok found =>
        obtain ⟨e, n⟩ := found
        exact congrArg (fun tree => Except.ok (tree, n)) e.toExpr_narrow
    · split
      · rfl
      · split
        · rfl
        · split <;> rfl

/-- A quantifier does not look at the classes of what it applies to. -/
theorem lexSuffix_mapClasses {ρ : Type} (f : CharClass → CharClass) (position : Nat)
    (atom : Expr ρ) (units : List CodeUnit) :
    lexSuffix position (atom.mapClasses f) units =
      (fun (e, n) => (e.mapClasses f, n)) <$> lexSuffix position atom units := by
  unfold lexSuffix
  rw [Expr.isAnchor_mapClasses]
  split
  · rfl
  · split
    · rfl
    · split
      · rfl
      · rename_i u rest _ _
        cases lexBounds position u rest with
        | error e => rfl
        | ok found =>
          obtain ⟨bounds, n⟩ := found
          simp only [bind, Except.bind]
          split <;> rfl

/-! ## §3 Drafts -/

/-- The level with `f` applied to every class. -/
def Level.mapClasses (f : CharClass → CharClass) (l : Level) : Level :=
  ⟨l.branches.map (Expr.mapClasses f), l.items.map (Expr.mapClasses f)⟩

/-- The frame with `f` applied to every class. -/
def Frame.mapClasses (f : CharClass → CharClass) (r : Frame) : Frame :=
  { r with outer := r.outer.mapClasses f }

/-- The draft with `f` applied to every class. -/
def Draft.mapClasses (f : CharClass → CharClass) (d : Draft) : Draft :=
  { d with level := d.level.mapClasses f, frames := d.frames.map (Frame.mapClasses f) }

variable (f : CharClass → CharClass)

namespace Level

theorem nextBranch_mapClasses (l : Level) :
    (l.mapClasses f).nextBranch = l.nextBranch.mapClasses f := by
  simp [nextBranch, mapClasses, Expr.mapClasses_inSequence]

theorem tree_mapClasses (l : Level) : (l.mapClasses f).tree = l.tree.mapClasses f := by
  rw [tree, tree, nextBranch_mapClasses, Expr.mapClasses_oneOf, List.map_reverse]
  rfl

end Level

namespace Draft

theorem nextBranch_mapClasses (d : Draft) :
    (d.mapClasses f).nextBranch = d.nextBranch.mapClasses f := by
  simp [nextBranch, mapClasses, Level.nextBranch_mapClasses]

theorem openGroup_mapClasses (d : Draft) (opening : Nat) (o : GroupOpener) :
    (d.mapClasses f).openGroup opening o = mapClasses f <$> d.openGroup opening o := by
  cases o with
  | plain | numbered => rfl
  | named name position =>
    have hnames : (d.mapClasses f).names = d.names := rfl
    simp only [openGroup, hnames]
    split <;> rfl

theorem closeGroup?_mapClasses (d : Draft) :
    (d.mapClasses f).closeGroup? =
      d.closeGroup?.map fun (group, outer) => (group.mapClasses f, outer.mapClasses f) := by
  obtain ⟨level, frames, groupCount, names⟩ := d
  cases frames with
  | nil => rfl
  | cons r frames =>
    simp only [closeGroup?, mapClasses, List.map_cons, Level.tree_mapClasses]
    rfl

theorem finish_mapClasses (d : Draft) :
    (d.mapClasses f).finish = Pattern.mapClasses f <$> d.finish := by
  obtain ⟨level, frames, groupCount, names⟩ := d
  cases frames with
  | nil =>
    simp [finish, mapClasses, Level.tree_mapClasses, Expr.resolve_mapClasses, Pattern.mapClasses]
  | cons r frames => rfl

/-- Narrow units are read into the draft alike. -/
theorem read_narrow (position : Nat) {units : List CodeUnit} (h : IsNarrow units) (d : Draft) :
    (d.mapClasses .narrowed).read .narrow position units =
      mapClasses .narrowed <$> d.read .wide position units := by
  fun_induction Draft.read .wide position units d with
  | case1 position d =>
    rw [Draft.read]
    rfl
  | case2 position d rest ih =>
    rw [Draft.read, if_pos rfl, nextBranch_mapClasses]
    exact ih h.tail
  | case3 position d rest hdeep hbar =>
    have hdeep' : maxNestingDepth ≤ (d.mapClasses .narrowed).frames.length := by
      rwa [mapClasses, List.length_map]
    rw [Draft.read, if_neg hbar, if_pos rfl, if_pos hdeep']
    rfl
  | case4 position d rest hdeep hbar ih =>
    have hdeep' : ¬maxNestingDepth ≤ (d.mapClasses .narrowed).frames.length := by
      rwa [mapClasses, List.length_map]
    rw [Draft.read, if_neg hbar, if_pos rfl, if_neg hdeep']
    cases lexGroupOpener position rest with
    | error e => rfl
    | ok found =>
      obtain ⟨opener, n⟩ := found
      have hopen := openGroup_mapClasses .narrowed d position opener
      cases hd : d.openGroup position opener with
      | error e =>
        rw [hd] at hopen
        simp only [bind, Except.bind, hopen, hd]
        rfl
      | ok inner =>
        rw [hd] at hopen
        simp only [bind, Except.bind, hopen, hd]
        exact ih n inner (h.tail.drop n)
  | case5 position d rest hnone hbar hopen =>
    have hclose := closeGroup?_mapClasses .narrowed d
    rw [hnone] at hclose
    rw [Draft.read, if_neg hbar, if_neg hopen, if_pos rfl, hclose]
    rfl
  | case6 position d rest group outer hsome hbar hopen ih =>
    have hclose := closeGroup?_mapClasses .narrowed d
    rw [hsome] at hclose
    rw [Draft.read, if_neg hbar, if_neg hopen, if_pos rfl, hclose]
    simp only [Option.map_some, lexSuffix_mapClasses]
    cases lexSuffix (position + 1) group rest with
    | error e => rfl
    | ok found =>
      obtain ⟨item, n⟩ := found
      exact ih item n (h.tail.drop n)
  | case7 position d u rest hbar hopen hclose hstart =>
    rw [Draft.read, if_neg hbar, if_neg hopen, if_neg hclose, if_pos hstart]
    rfl
  | case8 position d u rest hbar hopen hclose hstart ih =>
    rw [Draft.read, if_neg hbar, if_neg hopen, if_neg hclose, if_neg hstart,
      lexAtom_narrow position u h.tail]
    cases lexAtom .wide position u rest with
    | error e => rfl
    | ok found =>
      obtain ⟨atom, n⟩ := found
      have hsuffix := lexSuffix_mapClasses .narrowed (position + 1 + n) atom (rest.drop n)
      cases hs : lexSuffix (position + 1 + n) atom (rest.drop n) with
      | error e =>
        rw [hs] at hsuffix
        simp only [bind, Except.bind, Functor.map, Except.map, hsuffix, hs]
      | ok found =>
        obtain ⟨item, k⟩ := found
        rw [hs] at hsuffix
        simp only [bind, Except.bind, Functor.map, Except.map, hsuffix, hs]
        exact ih n item k (h.tail.drop (n + k))

end Draft

/-! ## §4 Parsing -/

/-- A pattern of narrow units is parsed alike in both widths: with the same error
or with the same tree, whose classes are those of the wide one as far as the
narrow width goes. -/
theorem parse_narrow {pattern : Text} (h : IsNarrow pattern.toList) :
    parse .narrow pattern = Pattern.mapClasses .narrowed <$> parse .wide pattern := by
  have hread := Draft.read_narrow 0 h Draft.empty
  have hempty : Draft.empty.mapClasses .narrowed = Draft.empty := rfl
  rw [hempty] at hread
  unfold parse
  rw [hread]
  cases Draft.empty.read .wide 0 pattern.toList with
  | error e => rfl
  | ok d => exact d.finish_mapClasses .narrowed

end LineRegex
