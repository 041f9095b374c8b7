/-
LineRegex.Proofs.Grammar.Refusals — a text is refused for one of its units.

The reader takes one piece after another off the text: a bar, a parenthesis
with what belongs to it, or an item. Where it refuses the text, all in front has
been taken off in pieces, so the readers of the forms say what the fault is
found at. Two faults are found at the end only, and are reported far in front
of it: a group that is not closed, at its parenthesis, and a backreference
that means no group, at its backslash.

  §1 Pieces   — what is taken off at once, and what is left to refuse.
  §2 Steps    — every piece, read or refused.
  §3 Runs
  §4 Reports  — the position of an error, and what comes with it.
-/
import LineRegex.Proofs.Grammar.Faults
import LineRegex.Proofs.Grammar.References
import LineRegex.Proofs.Listing

namespace LineRegex

namespace Grammar

/-! ## §1 Pieces -/

/-- What the reader takes off a text at once. -/
inductive Piece where
  | bar
  | opening (o : Opening)
  | closing (q : Option Quantifier)
  | item (a : Atom) (q : Option Quantifier)

namespace Piece

def units : Piece → List CodeUnit
  | bar => [unit '|']
  | opening o => unit '(' :: o.units
  | closing q => unit ')' :: suffixUnits q
  | item a q => (Item.atom a q).units

def Valid : Piece → Prop
  | bar => True
  | opening o => o.Valid
  | closing q => ∀ q' ∈ q, q'.Valid
  | item a q => (Item.atom a q).Valid

theorem units_ne_nil (p : Piece) : p.units ≠ [] := by
  cases p <;> simp [units, Item.units]

end Piece

def pieceUnits (ps : List Piece) : List CodeUnit := ps.flatMap Piece.units

/-- Behind valid pieces the text goes on with a bracket expression, and at the
position stands its bracket, or the first unit of one of its members. -/
def BracketPartAt (source : List CodeUnit) (position : Nat) : Prop :=
  ∃ ps rest n, (∀ p ∈ ps, Piece.Valid p) ∧ source = pieceUnits ps ++ rest ∧
    BracketPart rest n ∧ position = (pieceUnits ps).length + n

/-- The error points at what is at fault in the text. -/
def Blames (source : List CodeUnit) (e : SyntaxError) : Prop :=
  PointsInto 0 source e ∨ e.fault = .badBracketExpression ∧ BracketPartAt source e.position

/-- What reading comes to first: it refuses the text for a unit of it, or takes
a piece off. -/
inductive Proceeds (w : Width) (position : Nat) (units : List CodeUnit) (d : Draft) : Prop
  | refused (e : SyntaxError) (hread : Draft.read w position units d = .error e)
      (he : PointsInto position units e ∨ PointsIntoBracket position units e)
  | takes (p : Piece) (rest : List CodeUnit) (d' : Draft) (hp : p.Valid)
      (hunits : units = p.units ++ rest)
      (hread : Draft.read w position units d =
        Draft.read w (position + p.units.length) rest d')
      (hframes : ∀ f ∈ d'.frames,
        f ∈ d.frames ∨ f.opening = position ∧ units.head? = some (unit '('))

/-! ## §2 Steps -/

section Steps

variable (w : Width) (position : Nat) (rest : List CodeUnit) (d : Draft)

theorem proceeds_opening : Proceeds w position (unit '(' :: rest) d := by
  by_cases hdepth : maxNestingDepth ≤ d.frames.length
  · refine .refused ⟨.nestingTooDeep, position⟩ ?_ (.inl (pointsInto_front (by decide) rest))
    rw [Draft.read]
    simp [hdepth]
  cases hopener : lexGroupOpener position rest with
  | error e =>
    refine .refused e ?_ (.inl (pointsInto_of_lexGroupOpener hopener))
    rw [Draft.read]
    simp [hdepth, hopener, bind, Except.bind]
  | ok found =>
    obtain ⟨opener, n⟩ := found
    obtain ⟨o, rest', ho, rfl, rfl, rfl⟩ := exists_opening_of_lexGroupOpener hopener
    cases hopen : d.openGroup position (o.opener position) with
    | error e =>
      refine .refused e ?_ (.inl (pointsInto_of_openGroup hopen rest'))
      rw [Draft.read]
      simp [hdepth, hopener, hopen, bind, Except.bind]
    | ok inner =>
      have hinner : d.openGroup position (o.opener position) = .ok (o.into position d) :=
        openGroup_of_fresh (fresh_of_openGroup hopen)
      refine .takes (.opening o) rest' (o.into position d) ho rfl ?_ ?_
      · rw [Piece.units, add_length_cons, Draft.read]
        simp [hdepth, hopener, hinner, bind, Except.bind]
      · intro f hf
        rcases List.mem_cons.mp hf with rfl | hf
        · exact .inr ⟨rfl, rfl⟩
        · exact .inl hf

theorem proceeds_closing : Proceeds w position (unit ')' :: rest) d := by
  cases hframes : d.frames with
  | nil =>
    refine .refused ⟨.missingParen, position⟩ ?_ (.inl (pointsInto_front (by decide) rest))
    rw [Draft.read]
    simp [Draft.closeGroup?, hframes]
  | cons f frames =>
    cases hsuffix : lexSuffix (position + 1) (.group f.index d.level.tree) rest with
    | error e =>
      refine .refused e ?_ (.inl ((pointsInto_of_lexSuffix hsuffix).behind [unit ')']))
      rw [Draft.read]
      simp [Draft.closeGroup?, hframes, hsuffix, bind, Except.bind]
    | ok found =>
      obtain ⟨item, k⟩ := found
      obtain ⟨q, rest', hq, -, rfl, hrest, rfl⟩ := exists_suffix_of_lexSuffix hsuffix
      have hread : Draft.read w position (unit ')' :: suffixUnits q ++ rest') d = _ :=
        read_close hq hrest hframes
      rw [← add_length_cons] at hread
      refine .takes (.closing q) rest' _ hq rfl hread ?_
      intro g hg
      rw [hframes]
      exact .inl (List.mem_cons_of_mem f hg)

theorem proceeds_item {u : CodeUnit} (hbar : u ≠ unit '|') (hopen : u ≠ unit '(')
    (hclose : u ≠ unit ')') : Proceeds w position (u :: rest) d := by
  cases hstart : u.isQuantifierStart with
  | true =>
    obtain ⟨c, hc, rfl⟩ := exists_char_of_isQuantifierStart hstart
    refine .refused ⟨.emptyOperand, position⟩ ?_ (.inl (pointsInto_front hc rest))
    rw [Draft.read]
    simp [hbar, hopen, hclose, hstart]
  | false =>
    cases hatom : lexAtom w position u rest with
    | error e =>
      refine .refused e ?_ (pointsInto_of_lexAtom hatom)
      rw [Draft.read]
      simp [hbar, hopen, hclose, hstart, hatom, bind, Except.bind]
    | ok found =>
      obtain ⟨expr, n⟩ := found
      obtain ⟨a, units, ha, rfl, rfl, rfl, rfl, hfollow⟩ :=
        exists_expr_of_lexAtom hbar hopen hclose hstart hatom
      cases hsuffix : lexSuffix (position + 1 + a.tail.length) (a.expr w readReference position)
          units with
      | error e =>
        have hpoints := pointsInto_of_lexSuffix hsuffix
        rw [← add_length_cons position a.first a.tail] at hpoints
        refine .refused e ?_ (.inl (hpoints.behind (a.first :: a.tail)))
        rw [Draft.read]
        simp [hbar, hopen, hclose, hstart, hatom, hsuffix, bind, Except.bind]
      | ok found =>
        obtain ⟨item, k⟩ := found
        obtain ⟨q, rest', hitem, rfl, hrest, hdigits⟩ :=
          exists_item_of_lexSuffix ha hfollow hsuffix
        have hunits : a.first :: (a.tail ++ (suffixUnits q ++ rest')) =
            (Item.atom a q).units ++ rest' := by simp [Item.units]
        have hread : Draft.read w position ((Item.atom a q).units ++ rest') d = _ :=
          read_atom hitem hrest hdigits
        rw [← add_length_cons position a.first, Nat.add_assoc, ← List.length_append] at hread
        rw [hunits]
        exact .takes (.item a q) rest' _ hitem rfl hread fun f hf => .inl hf

/-- Reading refuses a text for a unit of it, or takes a piece off. -/
theorem proceeds (u : CodeUnit) : Proceeds w position (u :: rest) d := by
  by_cases hbar : u = unit '|'
  · subst hbar
    exact .takes .bar rest d.nextBranch trivial rfl read_bar fun f hf => .inl hf
  by_cases hopen : u = unit '('
  · subst hopen
    exact proceeds_opening w position rest d
  by_cases hclose : u = unit ')'
  · subst hclose
    exact proceeds_closing w position rest d
  · exact proceeds_item w position rest d hbar hopen hclose

end Steps

/-! ## §3 Runs -/

/-- The open groups were opened by parentheses of the text. -/
def OpenedIn (source : List CodeUnit) (d : Draft) : Prop :=
  ∀ f ∈ d.frames, source[f.opening]? = some (unit '(')

/-- A piece opens no group but the one of a parenthesis that it begins with. -/
theorem OpenedIn.takes {source front units : List CodeUnit} {d d' : Draft} (h : OpenedIn source d)
    (hsource : source = front ++ units)
    (hframes : ∀ f ∈ d'.frames,
      f ∈ d.frames ∨ f.opening = front.length ∧ units.head? = some (unit '(')) :
    OpenedIn source d' := by
  intro f hf
  rcases hframes f hf with hf | ⟨hposition, hparen⟩
  · exact h f hf
  · rw [hposition, hsource, List.getElem?_append_right le_rfl, Nat.sub_self,
      ← List.head?_eq_getElem?, hparen]

theorem blames_of_pointsInto {source rest : List CodeUnit} {ps : List Piece} {e : SyntaxError}
    (hps : ∀ p ∈ ps, Piece.Valid p) (hsource : source = pieceUnits ps ++ rest)
    (h : PointsInto (pieceUnits ps).length rest e ∨
      PointsIntoBracket (pieceUnits ps).length rest e) : Blames source e := by
  rcases h with h | ⟨hfault, n, hpart, hposition⟩
  · rw [← Nat.zero_add (pieceUnits ps).length] at h
    rw [hsource]
    exact .inl (h.behind _)
  · exact .inr ⟨hfault, ps, rest, n, hps, hsource, hpart, hposition⟩

/-- Reading on behind valid pieces refuses the text for a unit of it, or leaves
open only what parentheses of the text opened. -/
theorem read_blames {w : Width} {source rest : List CodeUnit} {d : Draft} (ps : List Piece)
    (hps : ∀ p ∈ ps, Piece.Valid p) (hsource : source = pieceUnits ps ++ rest)
    (hopened : OpenedIn source d) :
    (∀ e, Draft.read w (pieceUnits ps).length rest d = .error e → Blames source e) ∧
      ∀ d', Draft.read w (pieceUnits ps).length rest d = .ok d' → OpenedIn source d' := by
  -- by induction on what is left to read: each piece that is taken off goes to `ps`
  match rest, hsource with
  | [], _ =>
    rw [Draft.read]
    constructor
    · intro e hread
      cases hread
    · intro d' hread
      cases hread
      exact hopened
  | u :: rest, hsource =>
    cases proceeds w (pieceUnits ps).length rest d u with
    | refused e hread he =>
      rw [hread]
      constructor
      · intro e' hread'
        cases hread'
        exact blames_of_pointsInto hps hsource he
      · intro d' hread'
        cases hread'
    | takes p rest' d' hp hunits hread hframes =>
      have hfront : pieceUnits (ps ++ [p]) = pieceUnits ps ++ p.units := by simp [pieceUnits]
      rw [hread, ← List.length_append, ← hfront]
      refine read_blames (ps ++ [p]) ?_ ?_ (hopened.takes hsource hframes)
      · exact List.forall_mem_append.mpr ⟨hps, List.forall_mem_singleton.mpr hp⟩
      · rw [hsource, hunits, hfront, List.append_assoc]
termination_by rest.length
decreasing_by
  have := List.length_pos_of_ne_nil p.units_ne_nil
  rw [hunits, List.length_append]
  omega

/-! ## §4 Reports -/

theorem pointsInto_of_getElem? {source : List CodeUnit} {fault : SyntaxFault} {position : Nat}
    {c : Char} (hc : c ∈ fault.offenders) (h : source[position]? = some (unit c)) :
    PointsInto 0 source ⟨fault, position⟩ := by
  obtain ⟨hlt, hget⟩ := List.getElem?_eq_some_iff.mp h
  have hdrop : source.drop position = unit c :: source.drop (position + 1) := by
    rw [List.drop_eq_getElem_cons hlt, hget]
  have hposition : position = 0 + (source.take position).length := by
    rw [List.length_take_of_le hlt.le, Nat.zero_add]
  exact ⟨_, _, (List.take_append_drop position source).symm, hposition, .inr ⟨c, hc, _, hdrop⟩⟩

theorem Spell.exists_backslash {units : List CodeUnit} {t : Target} (h : Spell units t) :
    ∃ rest, units = unit '\\' :: rest := by
  cases t with
  | number n =>
    obtain ⟨digits, rest, rfl, -⟩ := h
    exact ⟨digits ++ rest, rfl⟩
  | name name =>
    obtain ⟨rest, rfl⟩ := h
    exact ⟨_, rfl⟩

theorem pointsInto_of_unresolved {source : Text} {a : Alternation} (ha : a.Reads source)
    {r : Reference} (h : a.firstUnresolved? = some r) :
    PointsInto 0 source.toList ⟨.badBackreference, r.position⟩ := by
  have hstands := a.standsIn 0 ha.valid not_startsDigit_nil r (List.mem_of_find?_eq_some h)
  rw [List.append_nil, ha.units] at hstands
  obtain ⟨before, after, hunits, hposition, hspell⟩ := hstands
  obtain ⟨rest, hrest⟩ := hspell.exists_backslash
  exact ⟨before, after, hunits, hposition, .inr ⟨'\\', by simp [SyntaxFault.offenders], rest, hrest⟩⟩

theorem blames_of_parse {w : Width} {source : Text} {e : SyntaxError}
    (h : parse w source = .error e) : Blames source.toList e := by
  have hopened : OpenedIn source.toList Draft.empty := by simp [OpenedIn, Draft.empty]
  have hrun := read_blames (w := w) [] (by simp) rfl hopened
  have hparse := h
  rw [parse] at hparse
  rcases bind_eq_error_iff.mp hparse with hread | ⟨d, hread, hfinish⟩
  · exact hrun.1 e hread
  cases hframes : d.frames with
  | cons f frames =>
    have hparen := hrun.2 d hread f (by rw [hframes]; exact List.mem_cons_self)
    rw [Draft.finish, hframes] at hfinish
    obtain rfl := refuse_eq_error_iff.mp hfinish
    exact .inl (pointsInto_of_getElem? (by decide) hparen)
  | nil =>
    obtain ⟨a, ha⟩ := exists_derivation_of_read hread hframes
    rw [parse_of_reads w ha] at h
    cases hfirst : a.firstUnresolved? with
    | none => rw [hfirst] at h; cases h
    | some r =>
      rw [hfirst] at h
      obtain rfl := refuse_eq_error_iff.mp h
      exact .inl (pointsInto_of_unresolved ha hfirst)

end Grammar

open Grammar

/-- What stands at the position of an error. -/
def SyntaxError.PointsAt (e : SyntaxError) (source : Text) : Prop :=
  match e.fault with
  | .badGroupName => e.position ≤ source.size
  | .badBracketExpression => BracketPartAt source.toList e.position
  | fault => ∃ c ∈ fault.offenders, source[e.position]? = some (unit c)

namespace Grammar

theorem Blames.pointsAt {source : Text} {e : SyntaxError} (h : Blames source.toList e) :
    e.PointsAt source := by
  obtain ⟨fault, position⟩ := e
  rcases h with ⟨before, after, hunits, hposition, hfault⟩ | ⟨hfault, hpart⟩
  · obtain rfl : position = before.length := hposition.trans (Nat.zero_add _)
    rcases hfault with hname | ⟨c, hc, rest, rfl⟩
    · obtain rfl : fault = .badGroupName := hname
      have hlength := congrArg List.length hunits
      rw [Array.length_toList, List.length_append] at hlength
      exact Nat.le.intro hlength.symm
    · have hget : source[before.length]? = some (unit c) := by
        rw [← Array.getElem?_toList, hunits, List.getElem?_append_right le_rfl, Nat.sub_self]
        rfl
      cases fault with
      | badGroupName => cases hc
      | badBracketExpression => cases hc
      | _ => exact ⟨c, hc, hget⟩
  · obtain rfl : fault = .badBracketExpression := hfault
    exact hpart

theorem BracketPart.lt {units : List CodeUnit} {n : Nat} (h : BracketPart units n) :
    n < units.length := by
  cases h with
  | bracket rest => exact Nat.zero_lt_succ _
  | member => simp

theorem BracketPartAt.lt {source : List CodeUnit} {position : Nat}
    (h : BracketPartAt source position) : position < source.length := by
  obtain ⟨ps, rest, n, -, rfl, hpart, rfl⟩ := h
  rw [List.length_append]
  exact Nat.add_lt_add_left hpart.lt _

end Grammar

/-- Only a group name can be missing behind the last unit. -/
theorem SyntaxError.PointsAt.position_lt {e : SyntaxError} {source : Text} (h : e.PointsAt source)
    (hname : e.fault ≠ .badGroupName) : e.position < source.size := by
  obtain ⟨fault, position⟩ := e
  cases fault with
  | badGroupName => exact absurd rfl hname
  | badBracketExpression => exact BracketPartAt.lt h
  | _ =>
    obtain ⟨c, -, hget⟩ := h
    exact (Array.getElem?_eq_some_iff.mp hget).1

/-- What parsing a text reports: how it ended, a position, and the nodes of the tree. -/
structure ParseReport where
  status : Status
  position : Nat
  nodes : List Node
  deriving DecidableEq

def parseReport (w : Width) (source : Text) : ParseReport :=
  match parse w source with
  | .ok p => ⟨.success, 0, p.nodes⟩
  | .error e => ⟨.syntaxError e.fault, e.position, []⟩

/-- A refused text is reported with its fault and without nodes. The position
lies in the text, or at its end when a group name is missing, and the unit there
is one that the fault is found at. A text that is not refused has nodes. -/
theorem parse_reports_offender (w : Width) (source : Text) :
    (∀ e, parse w source = .error e →
      parseReport w source = ⟨.syntaxError e.fault, e.position, []⟩ ∧
      e.position ≤ source.size ∧ (e.position = source.size → e.fault = .badGroupName) ∧
      e.PointsAt source) ∧
    ((parseReport w source).status = .success → (parseReport w source).nodes ≠ []) := by
  constructor
  · intro e hparse
    have hpoints := (blames_of_parse hparse).pointsAt
    have hend : e.position = source.size → e.fault = .badGroupName := by
      intro hsize
      by_contra hname
      exact (hpoints.position_lt hname).ne hsize
    refine ⟨by rw [parseReport, hparse], ?_, hend, hpoints⟩
    by_cases hname : e.fault = .badGroupName
    · simpa [SyntaxError.PointsAt, hname] using hpoints
    · exact (hpoints.position_lt hname).le
  · intro hsuccess
    rw [parseReport] at hsuccess ⊢
    cases hparse : parse w source with
    | error e => rw [hparse] at hsuccess; cases hsuccess
    | ok p => exact p.nodes_ne_nil

/-- The range that begins with `\w` is the second member of the brackets. -/
theorem parse_classAsBound :
    parse .narrow "(a|[x\\w-z])" = refuse .badBracketExpression 5 ∧
      parseReport .narrow "(a|[x\\w-z])" = ⟨.syntaxError .badBracketExpression, 5, []⟩ ∧
      BracketPartAt (Text.ofString "(a|[x\\w-z])").toList 5 := by
  have hparse : parse .narrow "(a|[x\\w-z])" = refuse .badBracketExpression 5 := by cbv
  obtain ⟨hreport, -, -, hpoints⟩ := (parse_reports_offender .narrow "(a|[x\\w-z])").1 _ hparse
  exact ⟨hparse, hreport, hpoints⟩

end LineRegex
