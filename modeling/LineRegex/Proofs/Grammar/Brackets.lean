/-
LineRegex.Proofs.Grammar.Brackets — a bracket expression accepts what its members contain.

Between the brackets stand tokens, each a unit or an escape. Read from the left they
make members: a hyphen behind a single unit joins it with the token behind the hyphen,
if there is one, and any other token is a member of its own. The class of the
expression depends on the set of its members alone, and accepts a unit exactly if one
of them contains it.

  §1 Members     — what tokens make, and the text of a bracket expression.
  §2 Derivations — the members that tokens make are those of the grammar.
  §3 Sets        — the units of a member, said without ranges.
  §4 Classes
-/
import Mathlib.Logic.Basic
import LineRegex.Proofs.Grammar.References
import LineRegex.Proofs.Grammar.Shape
import LineRegex.Proofs.Ranges.Complement

namespace LineRegex

namespace Grammar

/-! ## §1 Members -/

/-- The member that a token makes by itself. -/
def BracketUnit.toMember (a : BracketUnit) : Member :=
  match a.meaning with
  | .single u => .single u
  | .shorthand s => .shorthand s

/-- Tokens that begin with a hyphen and go on behind it. -/
def Joins (tokens : List BracketUnit) : Prop :=
  ∃ b rest, tokens = .plain (unit '-') :: b :: rest

/-- The tokens make the members, from left to right. -/
inductive Makes : List BracketUnit → List Member → Prop where
  | nil : Makes [] []
  /-- `a-b`, two single units in order. -/
  | range {a b : BracketUnit} {lo hi : CodeUnit} {rest : List BracketUnit} {ms : List Member}
      (ha : a.meaning = .single lo) (hb : b.meaning = .single hi) (hle : lo ≤ hi)
      (h : Makes rest ms) : Makes (a :: .plain (unit '-') :: b :: rest) (.range lo hi :: ms)
  /-- Any token, a hyphen too, that no hyphen joins with another. -/
  | one {a : BracketUnit} {rest : List BracketUnit} {ms : List Member} (hrest : ¬ Joins rest)
      (h : Makes rest ms) : Makes (a :: rest) (a.toMember :: ms)

def tokenUnits (tokens : List BracketUnit) : List CodeUnit :=
  tokens.flatMap fun a => a.first :: a.tail

/-- The text is a bracket expression, `[…]` or `[^…]`, with these members. -/
def Brackets (source : Text) (negated : Bool) (members : List Member) : Prop :=
  ∃ tokens : List BracketUnit, tokens ≠ [] ∧ (∀ a ∈ tokens, a.Valid) ∧
    (negated = false → tokens.head? ≠ some (.plain (unit '^'))) ∧
    source.toList =
      unit '[' :: (if negated then [unit '^'] else []) ++ tokenUnits tokens ++ [unit ']'] ∧
    Makes tokens members

/-! ## §2 Derivations -/

namespace BracketMember

def tokens : BracketMember → List BracketUnit
  | one a => [a]
  | range lo hi => [lo, .plain (unit '-'), hi]

theorem tokenUnits_tokens (m : BracketMember) : tokenUnits m.tokens = m.first :: m.tail := by
  cases m with
  | one a => simp [tokens, tokenUnits, first, tail]
  | range lo hi => simp [tokens, tokenUnits, first, tail, BracketUnit.first, BracketUnit.tail]

end BracketMember

/-- The tokens of members one after another. -/
def memberTokens (ms : List BracketMember) : List BracketUnit := ms.flatMap (·.tokens)

theorem tokenUnits_memberTokens (ms : List BracketMember) :
    tokenUnits (memberTokens ms) = memberUnits ms := by
  induction ms with
  | nil => rfl
  | cons m ms ih =>
    have happend : tokenUnits (memberTokens (m :: ms)) =
        tokenUnits m.tokens ++ tokenUnits (memberTokens ms) := List.flatMap_append
    rw [happend, ih, m.tokenUnits_tokens, memberUnits]

theorem eq_of_memberTokens_eq_singleton {ms : List BracketMember} {a : BracketUnit}
    (h : memberTokens ms = [a]) : ms = [.one a] := by
  cases ms with
  | nil => simp [memberTokens] at h
  | cons m ms =>
    cases m with
    | range lo hi => simp [memberTokens, BracketMember.tokens] at h
    | one b =>
      obtain ⟨rfl, hms⟩ : b = a ∧ memberTokens ms = [] := by
        simpa [memberTokens, BracketMember.tokens] using h
      cases ms with
      | nil => rfl
      | cons m ms => cases m <;> simp [memberTokens, BracketMember.tokens] at hms

/-- Unless it is a backslash, the first unit of members is a token of its own. -/
theorem head?_memberUnits (ms : List BracketMember) {u : CodeUnit} (hu : u ≠ unit '\\') :
    (memberUnits ms).head? = some u ↔ (memberTokens ms).head? = some (.plain u) := by
  have hfirst (a : BracketUnit) : a.first = u ↔ a = .plain u := by
    cases a <;> simp [BracketUnit.first, hu.symm]
  cases ms with
  | nil => simp [memberUnits, memberTokens]
  | cons m ms =>
    cases m <;>
      simp [memberUnits, memberTokens, BracketMember.tokens, BracketMember.first, hfirst]

/-- Where the grammar wants a hyphen to be the last member, none joins two tokens. -/
theorem hyphenLast_iff (ms : List BracketMember) :
    HyphenLast ms ↔ ¬ Joins (memberTokens ms) := by
  have hhyphen := head?_memberUnits ms (u := unit '-') (by simp)
  constructor
  · rintro hlast ⟨b, rest, hjoin⟩
    have hms := hlast (hhyphen.mpr (by simp [hjoin]))
    simp [hms, memberTokens, BracketMember.tokens] at hjoin
  · intro hjoin hhead
    rw [hhyphen] at hhead
    cases htokens : memberTokens ms with
    | nil => simp [htokens] at hhead
    | cons a rest =>
      obtain rfl : a = .plain (unit '-') := by simpa [htokens] using hhead
      cases rest with
      | nil => exact eq_of_memberTokens_eq_singleton htokens
      | cons b rest => exact absurd ⟨b, rest, htokens⟩ hjoin

/-- Members of the grammar are made by their tokens. -/
theorem makes_memberTokens {ms : List BracketMember} (hms : ValidMembers ms) :
    Makes (memberTokens ms) (ms.map (·.member)) := by
  induction ms with
  | nil => exact .nil
  | cons m ms ih =>
    cases m with
    | one a =>
      obtain ⟨-, hlast, hrest⟩ := hms
      exact .one ((hyphenLast_iff ms).mp hlast) (ih hrest)
    | range lo hi =>
      obtain ⟨⟨-, -, hlo, hhi, hle⟩, hrest⟩ := hms
      exact .range hlo hhi hle (ih hrest)

/-- The units of valid members make valid tokens. -/
theorem valid_of_mem_memberTokens {ms : List BracketMember} (hms : ValidMembers ms) :
    ∀ a ∈ memberTokens ms, a.Valid := by
  induction ms with
  | nil => simp [memberTokens]
  | cons m ms ih =>
    have hm : ∀ a ∈ m.tokens, a.Valid := by
      cases m with
      | one a => simpa [BracketMember.tokens] using hms.1
      | range lo hi =>
        have hhyphen : BracketUnit.Valid (.plain (unit '-')) := by simp [BracketUnit.Valid]
        simp [BracketMember.tokens, hms.head.1, hms.head.2.1, hhyphen]
    intro a ha
    rw [memberTokens, List.flatMap_cons, List.mem_append] at ha
    rcases ha with ha | ha
    · exact hm a ha
    · exact ih hms.tail a ha

/-- What tokens make are members of the grammar. -/
theorem Makes.exists_members {tokens : List BracketUnit} {members : List Member}
    (h : Makes tokens members) (hvalid : ∀ a ∈ tokens, a.Valid) :
    ∃ ms, ValidMembers ms ∧ memberTokens ms = tokens ∧ ms.map (·.member) = members := by
  induction h with
  | nil => exact ⟨[], trivial, rfl, rfl⟩
  | @range a b lo hi rest members ha hb hle _ ih =>
    obtain ⟨ms, hms, rfl, rfl⟩ := ih fun c hc => hvalid c (by simp [hc])
    obtain ⟨hslo, rfl⟩ := BracketUnit.isSingle_of_meaning ha
    obtain ⟨hshi, rfl⟩ := BracketUnit.isSingle_of_meaning hb
    have hrange : (BracketMember.range a b).Valid :=
      ⟨hvalid a (by simp), hvalid b (by simp), hslo, hshi, hle⟩
    exact ⟨.range a b :: ms, ⟨hrange, hms⟩, rfl, rfl⟩
  | @one a rest members hrest _ ih =>
    obtain ⟨ms, hms, rfl, rfl⟩ := ih fun c hc => hvalid c (by simp [hc])
    have ha : a.Valid := hvalid a (by simp)
    exact ⟨.one a :: ms, ⟨ha, (hyphenLast_iff ms).mpr hrest, hms⟩, rfl, rfl⟩

/-- The derivation of a pattern that is one atom. -/
def oneAtom (a : Atom) : Alternation := .last [.atom a none]

theorem units_bracket (negated : Bool) (ms : List BracketMember) :
    (oneAtom (.bracket negated ms)).units =
      unit '[' :: (if negated then [unit '^'] else []) ++ tokenUnits (memberTokens ms) ++
        [unit ']'] := by
  simp [oneAtom, Alternation.units, itemUnits, Item.units, Atom.first, Atom.tail, suffixUnits,
    tokenUnits_memberTokens]

/-- A bracket expression has a derivation with the same members. -/
theorem Brackets.exists_derives {source : Text} {negated : Bool} {members : List Member}
    (h : Brackets source negated members) :
    ∃ ms, ms.map (·.member) = members ∧ (oneAtom (.bracket negated ms)).Derives source := by
  obtain ⟨tokens, hne, htokens, hcaret, hsource, hmakes⟩ := h
  obtain ⟨ms, hms, rfl, hmembers⟩ := hmakes.exists_members htokens
  have hatom : (Atom.bracket negated ms).Valid := by
    refine ⟨?_, hms, ?_⟩
    · rintro rfl
      exact hne rfl
    · intro hnegated hhead
      exact hcaret hnegated ((head?_memberUnits ms (by simp)).mp hhead)
  refine ⟨ms, hmembers, ⟨?_, ?_, Nat.zero_le _, List.nodup_nil⟩, ?_⟩
  · rw [units_bracket, hsource]
  · simp [oneAtom, Alternation.Valid, ValidItems, Item.Valid, Item.EndsInDigits, Atom.IsAnchor,
      Atom.IsReference, hatom]
  · simp [oneAtom, Alternation.Resolves, Alternation.targets, itemsTargets, Item.targets,
      Atom.targets]

theorem brackets_of_reads {source : Text} {negated : Bool} {ms : List BracketMember}
    (h : (oneAtom (.bracket negated ms)).Reads source) :
    Brackets source negated (ms.map (·.member)) := by
  obtain ⟨⟨⟨hne, hms, hcaret⟩, -⟩, -⟩ := h.valid
  refine ⟨memberTokens ms, ?_, valid_of_mem_memberTokens hms, ?_, ?_, makes_memberTokens hms⟩
  · intro hempty
    cases ms with
    | nil => exact hne rfl
    | cons m ms => cases m <;> simp [memberTokens, BracketMember.tokens] at hempty
  · intro hnegated hhead
    exact hcaret hnegated ((head?_memberUnits ms (by simp)).mpr hhead)
  · rw [← units_bracket, h.units]

theorem parse_of_brackets (w : Width) {source : Text} {negated : Bool} {members : List Member}
    (h : Brackets source negated members) :
    parse w source = .ok ⟨.charClass (.ofMembers w negated members), 0, []⟩ := by
  obtain ⟨ms, rfl, hderives⟩ := h.exists_derives
  exact parse_of_derives w hderives (Nat.zero_le _)

/-- A derivation of which the tree is a class is one atom. -/
theorem Alternation.eq_oneAtom_of_class {ρ : Type} {w : Width} {ref : Nat → Target → ρ}
    {a : Alternation} {c : CharClass} (h : .oneOf (a.branches w ref 0 0) = Expr.charClass c) :
    ∃ x : Atom, a = oneAtom x ∧ x.expr w ref 0 = .charClass c := by
  cases a with
  | more items rest =>
    cases rest <;> simp [branches, Expr.oneOf] at h
  | last items =>
    cases items with
    | nil => simp [branches, Expr.oneOf, itemExprs, Expr.inSequence] at h
    | cons i is =>
      cases is with
      | cons i' is => simp [branches, Expr.oneOf, itemExprs, Expr.inSequence] at h
      | nil =>
        cases i with
        | group o body q =>
          cases q <;>
            simp [branches, Expr.oneOf, itemExprs, Expr.inSequence, Item.expr, quantify] at h
        | atom x q =>
          cases q with
          | some q =>
            simp [branches, Expr.oneOf, itemExprs, Expr.inSequence, Item.expr, quantify] at h
          | none => exact ⟨x, rfl, h⟩

/-- A pattern that begins with a bracket and is a class is a bracket expression. -/
theorem exists_brackets_of_parse {w : Width} {source : Text} {p : Pattern} {c : CharClass}
    (hparse : parse w source = .ok p) (hopen : source[0]? = some (unit '['))
    (hclass : p.root = .charClass c) : ∃ negated members, Brackets source negated members := by
  obtain ⟨a, ha, -, rfl⟩ := exists_patternRead_of_parse hparse
  obtain ⟨x, rfl, hx⟩ := Alternation.eq_oneAtom_of_class hclass
  have hfirst : x.first = unit '[' := by
    rw [← Array.getElem?_toList, ← ha.units] at hopen
    simpa [oneAtom, Alternation.units, itemUnits, Item.units] using hopen
  cases x with
  | bracket negated ms => exact ⟨negated, _, brackets_of_reads ha⟩
  | escape => simp [Atom.first] at hfirst
  | literal | any | anchor | reference | namedReference => simp [Atom.expr] at hx

end Grammar

/-! ## §3 Sets -/

/-- A space: tab, line feed, vertical tab, form feed, carriage return, or the space itself. -/
def CodeUnit.isSpace (u : CodeUnit) : Bool :=
  unit '\t' ≤ u && u ≤ unit '\r' || u == unit ' '

/-- The units of a shorthand class. -/
def Shorthand.Contains (s : Shorthand) (u : CodeUnit) : Prop :=
  match s with
  | digits => u.isDigit = true
  | words => u.isWord = true
  | spaces => u.isSpace = true
  | nonDigits => u.isDigit = false
  | nonWords => u.isWord = false
  | nonSpaces => u.isSpace = false

/-- The units of a member. -/
def Member.Contains (m : Member) (u : CodeUnit) : Prop :=
  match m with
  | single v => u = v
  | range lo hi => lo ≤ u ∧ u ≤ hi
  | shorthand s => s.Contains u

namespace Shorthand

theorem covers_digitRanges (u : CodeUnit) : UnitRange.covers digitRanges u = u.isDigit := by
  simp [UnitRange.covers, digitRanges, UnitRange.contains, CodeUnit.isDigit]

theorem covers_wordRanges (u : CodeUnit) : UnitRange.covers wordRanges u = u.isWord := by
  rw [Bool.eq_iff_iff]
  simp only [UnitRange.covers, wordRanges, UnitRange.single, UnitRange.contains, List.any_cons,
    List.any_nil, Bool.or_false, Bool.or_eq_true, Bool.and_eq_true, decide_eq_true_eq,
    CodeUnit.isWord, CodeUnit.isDigit, CodeUnit.isAlpha, beq_iff_eq]
  grind

theorem covers_spaceRanges (u : CodeUnit) : UnitRange.covers spaceRanges u = u.isSpace := by
  rw [Bool.eq_iff_iff]
  simp only [UnitRange.covers, spaceRanges, UnitRange.single, UnitRange.contains, List.any_cons,
    List.any_nil, Bool.or_false, Bool.or_eq_true, Bool.and_eq_true, decide_eq_true_eq,
    CodeUnit.isSpace, beq_iff_eq]
  grind

/-- Up to the last unit of the width, the complement covers what the list does not. -/
theorem covers_complement_iff {w : Width} {ranges : List UnitRange}
    (hnormal : UnitRange.IsNormal ranges) (hwithin : ∀ r ∈ ranges, r.hi ≤ w.maxUnit) {u : CodeUnit}
    (hu : u ≤ w.maxUnit) :
    UnitRange.covers (UnitRange.complement w ranges) u = true ↔
      UnitRange.covers ranges u = false := by
  rw [UnitRange.covers_complement hnormal hwithin, and_iff_right hu, Bool.not_eq_true]

/-- The ranges of a shorthand class cover its units. -/
theorem covers_ranges {w : Width} (s : Shorthand) {u : CodeUnit} (hu : u ≤ w.maxUnit) :
    UnitRange.covers (s.ranges w) u = true ↔ s.Contains u := by
  have hcomplement (s : Shorthand) (hwithin : ∀ r ∈ s.ranges w, r.hi ≤ w.maxUnit) :
      UnitRange.covers (UnitRange.complement w (s.ranges w)) u = true ↔
        UnitRange.covers (s.ranges w) u = false :=
    covers_complement_iff (s.isNormal_ranges w) hwithin hu
  cases s with
  | digits => simp only [ranges, covers_digitRanges, Contains]
  | words => simp only [ranges, covers_wordRanges, Contains]
  | spaces => simp only [ranges, covers_spaceRanges, Contains]
  | nonDigits =>
    rw [Contains, ← covers_digitRanges]
    exact hcomplement .digits (by cases w <;> decide)
  | nonWords =>
    rw [Contains, ← covers_wordRanges]
    exact hcomplement .words (by cases w <;> decide)
  | nonSpaces =>
    rw [Contains, ← covers_spaceRanges]
    exact hcomplement .spaces (by cases w <;> decide)

end Shorthand

theorem Member.covers_ranges {w : Width} (m : Member) {u : CodeUnit} (hu : u ≤ w.maxUnit) :
    UnitRange.covers (m.ranges w) u = true ↔ m.Contains u := by
  cases m with
  | single v =>
    simp only [ranges, UnitRange.covers_iff, UnitRange.single, List.mem_singleton, exists_eq_left,
      Contains]
    exact ⟨fun h => Nat.le_antisymm h.2 h.1, by rintro rfl; simp⟩
  | range lo hi => simp [ranges, UnitRange.covers_iff, Contains]
  | shorthand s => exact s.covers_ranges hu

/-! ## §4 Classes -/

/-- The class of members accepts the units that some member contains, or all others. -/
theorem CharClass.accepts_ofMembers (w : Width) (negated : Bool) (members : List Member)
    {u : CodeUnit} (hu : u ≤ w.maxUnit) :
    (ofMembers w negated members).accepts u = true ↔
      Xor (∃ m ∈ members, m.Contains u) (negated = true) := by
  have hcovers : UnitRange.covers (members.flatMap (Member.ranges w)) u = true ↔
      ∃ m ∈ members, m.Contains u := by
    have hany : UnitRange.covers (members.flatMap (Member.ranges w)) u =
        members.any fun m => UnitRange.covers (m.ranges w) u := List.any_flatMap
    rw [hany, List.any_eq_true]
    exact exists_congr fun m => and_congr_right fun _ => m.covers_ranges hu
  rw [accepts, ofMembers, UnitRange.covers_normalize, ← hcovers, bne_iff_ne]
  cases negated <;> simp [Xor]

namespace Grammar

theorem Brackets.isNormal (w : Width) {source : Text} {negated : Bool} {members : List Member}
    (h : Brackets source negated members) :
    UnitRange.IsNormal (CharClass.ofMembers w negated members).ranges := by
  obtain ⟨ms, rfl, hderives⟩ := h.exists_derives
  obtain ⟨⟨⟨hne, hms, -⟩, -⟩, -⟩ := hderives.reads.valid
  exact (isNormal_ofMembers w negated hne hms).2

/-- Bracket expressions of the same members, in any order and number, have one class. -/
theorem Brackets.ofMembers_eq (w : Width) {source source' : Text} {negated : Bool}
    {members others : List Member} (h : Brackets source negated members)
    (h' : Brackets source' negated others) (hsame : ∀ m, m ∈ others ↔ m ∈ members) :
    CharClass.ofMembers w negated others = CharClass.ofMembers w negated members := by
  have hcovers (u : CodeUnit) : UnitRange.covers (others.flatMap (Member.ranges w)) u =
      UnitRange.covers (members.flatMap (Member.ranges w)) u := by
    rw [Bool.eq_iff_iff]
    simp [UnitRange.covers, hsame]
  have hranges : (CharClass.ofMembers w negated others).ranges =
      (CharClass.ofMembers w negated members).ranges := by
    refine (h'.isNormal w).eq_of_covers (h.isNormal w) fun u => ?_
    simp only [CharClass.ofMembers, UnitRange.covers_normalize, hcovers]
  exact congrArg (CharClass.mk · negated) hranges

end Grammar

open Grammar

/-- A pattern that is one bracket expression accepts exactly the units that its members
contain, or exactly the others if a caret negates it, and its tree depends on the set of
its members alone: written with the same members in another order or number, it is the
same. Every accepted pattern that begins with a bracket and is a class is such an
expression, whose tokens make members as `Makes` says. -/
theorem brackets_accept_members (w : Width) (source : Text) :
    (∀ p c, parse w source = .ok p → source[0]? = some (unit '[') → p.root = .charClass c →
      ∃ negated members, Brackets source negated members) ∧
    ∀ negated members, Brackets source negated members →
      ∃ c, parse w source = .ok ⟨.charClass c, 0, []⟩ ∧
        (∀ u ≤ w.maxUnit, c.accepts u = true ↔
          Xor (∃ m ∈ members, m.Contains u) (negated = true)) ∧
        ∀ source' others, Brackets source' negated others → (∀ m, m ∈ others ↔ m ∈ members) →
          parse w source' = .ok ⟨.charClass c, 0, []⟩ := by
  refine ⟨fun p c => exists_brackets_of_parse, ?_⟩
  intro negated members h
  refine ⟨.ofMembers w negated members, parse_of_brackets w h, ?_, ?_⟩
  · intro u hu
    exact CharClass.accepts_ofMembers w negated members hu
  · intro source' others h' hsame
    rw [parse_of_brackets w h', h.ofMembers_eq w h' hsame]

namespace Grammar

theorem brackets_digitsOrHyphen :
    Brackets "[^a-c\\d-]" true
      [.range (unit 'a') (unit 'c'), .shorthand .digits, .single (unit '-')] := by
  refine ⟨[.plain (unit 'a'), .plain (unit '-'), .plain (unit 'c'), .escaped (.shorthand .digits),
    .plain (unit '-')], by simp, ?_, nofun, by decide, ?_⟩
  · simp [BracketUnit.Valid, EscapeForm.Valid]
  · exact .range rfl rfl (by decide) (.one (by simp [Joins]) (.one (by simp [Joins]) .nil))

theorem brackets_hyphenOrDigits :
    Brackets "[^-\\da-ca-c]" true
      [.single (unit '-'), .shorthand .digits, .range (unit 'a') (unit 'c'),
        .range (unit 'a') (unit 'c')] := by
  refine ⟨[.plain (unit '-'), .escaped (.shorthand .digits), .plain (unit 'a'), .plain (unit '-'),
    .plain (unit 'c'), .plain (unit 'a'), .plain (unit '-'), .plain (unit 'c')], by simp,
    ?_, nofun, by decide, ?_⟩
  · simp [BracketUnit.Valid, EscapeForm.Valid]
  · exact .one (by simp [Joins]) (.one (by simp [Joins])
      (.range rfl rfl (by decide) (.range rfl rfl (by decide) .nil)))

end Grammar

/-- A negated range, a shorthand and a hyphen in front of the closing bracket, and the
same members in another order. -/
theorem brackets_accept_members_digitsOrHyphen :
    ∃ c, parse .narrow "[^a-c\\d-]" = .ok ⟨.charClass c, 0, []⟩ ∧
      (∃ negated members, Brackets "[^a-c\\d-]" negated members) ∧
      c.accepts (unit 'b') = false ∧ c.accepts (unit '-') = false ∧ c.accepts (unit 'd') = true ∧
      parse .narrow "[^-\\da-ca-c]" = .ok ⟨.charClass c, 0, []⟩ := by
  obtain ⟨hread, hclass⟩ := brackets_accept_members .narrow "[^a-c\\d-]"
  obtain ⟨c, hparse, haccepts, hsame⟩ := hclass _ _ brackets_digitsOrHyphen
  have hout (u : CodeUnit) (hu : u ≤ Width.narrow.maxUnit) : c.accepts u = true ↔
      ¬((unit 'a' ≤ u ∧ u ≤ unit 'c') ∨ u.isDigit = true ∨ u = unit '-') := by
    rw [haccepts u hu]
    simp [Member.Contains, Shorthand.Contains, Xor]
  refine ⟨c, hparse, hread _ c hparse rfl rfl, ?_, ?_, ?_, hsame _ _ brackets_hyphenOrDigits ?_⟩
  · rw [Bool.eq_false_iff, Ne, hout _ (by decide)]
    decide
  · rw [Bool.eq_false_iff, Ne, hout _ (by decide)]
    decide
  · rw [hout _ (by decide)]
    decide
  · intro m
    simp only [List.mem_cons, List.not_mem_nil, or_false]
    grind

end LineRegex
