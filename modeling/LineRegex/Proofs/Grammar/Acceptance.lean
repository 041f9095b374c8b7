/-
LineRegex.Proofs.Grammar.Acceptance — the parser accepts its grammar.

A text is parsed exactly if it has a derivation, to the pattern that the
derivation denotes, and no text has two.

  §1 Acceptance
  §2 The backspace escape  — `\b` in brackets, which the list of escapes leaves out.
-/
import LineRegex.Proofs.Grammar.References
import LineRegex.Proofs.Grammar.Unambiguous

namespace LineRegex

open Grammar

/-! ## §1 Acceptance -/

mutual

theorem Grammar.Item.groupCount_le (i : Item) : i.groupCount ≤ i.units.length := by
  cases i with
  | atom a q => exact Nat.zero_le _
  | group o body q =>
    have hbody := body.groupCount_le
    have ho : o.groupCount ≤ 1 := by cases o <;> simp [Opening.groupCount]
    simp only [Item.groupCount, Item.units, List.cons_append, List.length_cons, List.length_append]
    omega

theorem Grammar.itemsGroupCount_le (is : List Item) :
    itemsGroupCount is ≤ (itemUnits is).length := by
  cases is with
  | nil => exact Nat.le_refl 0
  | cons i is =>
    have hi := i.groupCount_le
    have his := itemsGroupCount_le is
    simp only [itemsGroupCount, itemUnits, List.length_append]
    omega

theorem Grammar.Alternation.groupCount_le (a : Alternation) :
    a.groupCount ≤ a.units.length := by
  cases a with
  | last items => exact itemsGroupCount_le items
  | more items rest =>
    have hitems := itemsGroupCount_le items
    have hrest := rest.groupCount_le
    simp only [Alternation.groupCount, Alternation.units, List.length_append, List.length_cons]
    omega

end

/-- No text has more groups than units. -/
theorem Grammar.Alternation.Reads.groupCount_le {a : Alternation} {source : Text}
    (h : a.Reads source) : a.groupCount ≤ source.size := by
  have hle := a.groupCount_le
  rwa [h.units, Array.length_toList] at hle

theorem parse_eq_ok_iff_derives (w : Width) (source : Text)
    (hcount : ∀ a : Alternation, a.Reads source → a.groupCount ≤ maxRepeatCount) :
    (∀ p, parse w source = .ok p ↔ ∃ a : Alternation, a.Derives source ∧ a.pattern w = p) ∧
      ∀ a a' : Alternation, a.Derives source → a'.Derives source → a = a' := by
  constructor
  · intro p
    constructor
    · intro h
      obtain ⟨a, ha⟩ := exists_derivation_of_parse h hcount
      rw [parse_of_derives w ha (hcount a ha.reads), Except.ok.injEq] at h
      exact ⟨a, ha, h⟩
    · rintro ⟨a, ha, rfl⟩
      exact parse_of_derives w ha (hcount a ha.reads)
  · intro a a' ha ha'
    exact ha.reads.unique ha'.reads

/-- The derivation of `(?<x>a)|\1{2}`. -/
def Grammar.captureOrTwice : Alternation :=
  .more [.group (.named false [unit 'x']) (.last [.atom (.literal (unit 'a')) none]) none]
    (.last [.atom (.reference [unit '1']) (some (.exactly [unit '2']))])

theorem Grammar.captureOrTwice_derives :
    captureOrTwice.Derives "(?<x>a)|\\1\x7b2\x7d" where
  reads :=
    { units := by decide
      valid := by
        have hx : CodeUnit.isAlpha (unit 'x') = true := by decide
        have h1 : CodeUnit.isDigit (unit '1') = true := by decide
        have h2 : IsCount [unit '2'] := by simp [IsCount, IsNumeral]; decide
        simp [captureOrTwice, Alternation.Valid, ValidItems, Item.Valid, Opening.Valid, IsName,
          Atom.Valid, specialUnits, IsNumeral, Atom.IsAnchor, Quantifier.Valid, Item.EndsInDigits,
          Atom.IsReference, hx, h1, h2]
      depth := by decide
      names := by decide }
  resolves := by
    intro t ht
    have htargets : captureOrTwice.targets = [.number 1] := by decide
    rw [htargets, List.mem_singleton] at ht
    subst ht
    show 1 ≤ captureOrTwice.groupCount
    decide

theorem parse_captureOrTwice :
    parse .narrow "(?<x>a)|\\1\x7b2\x7d" = .ok
      { root := .alternation
          [.group (some 1) (.unit (unit 'a')), .quantified (.backreference 1) ⟨2, some 2⟩]
        groupCount := 1
        names := [(#[unit 'x'], 1)] } :=
  ((parse_eq_ok_iff_derives .narrow _ fun _ h => h.groupCount_le.trans (by decide)).1 _).mpr
    ⟨captureOrTwice, captureOrTwice_derives, rfl⟩

/-! ## §2 The backspace escape -/

namespace Grammar

def BracketUnit.escapes : BracketUnit → List EscapeForm
  | plain _ => []
  | escaped e => [e]

def BracketMember.escapes : BracketMember → List EscapeForm
  | one a => a.escapes
  | range lo hi => lo.escapes ++ hi.escapes

def Atom.escapes : Atom → List EscapeForm
  | escape e => [e]
  | bracket _ members => members.flatMap (·.escapes)
  | literal _ | any | anchor _ | reference _ | namedReference _ => []

mutual

/-- The escapes of an item, in brackets and outside. -/
def Item.escapes : Item → List EscapeForm
  | .atom a _ => a.escapes
  | .group _ body _ => body.escapes

def itemsEscapes : List Item → List EscapeForm
  | [] => []
  | i :: is => i.escapes ++ itemsEscapes is

def Alternation.escapes : Alternation → List EscapeForm
  | .last items => itemsEscapes items
  | .more items rest => itemsEscapes items ++ rest.escapes

end

/-- The derivation of `[\b]`. -/
def backspaceClass : Alternation :=
  .last [.atom (.bracket false [.one (.escaped .backspace)]) none]

theorem backspaceClass_derives : backspaceClass.Derives "[\\b]" where
  reads :=
    { units := by decide
      valid := by
        simp [backspaceClass, Alternation.Valid, ValidItems, Item.Valid, Atom.Valid, ValidMembers,
          BracketUnit.Valid, EscapeForm.Valid, HyphenLast, memberUnits, BracketMember.first,
          BracketUnit.first, Item.EndsInDigits, Atom.IsReference]
      depth := by decide
      names := by decide }
  resolves := by
    intro t ht
    simp [backspaceClass, Alternation.targets, itemsTargets, Item.targets, Atom.targets] at ht

end Grammar

/-- A class of the backspace is parsed, and has no derivation with the listed escapes only. -/
theorem parse_backspaceClass :
    (∃ p, parse .narrow "[\\b]" = .ok p) ∧
      ¬ ∃ a : Alternation, a.Derives "[\\b]" ∧ .backspace ∉ a.escapes := by
  refine ⟨⟨_, parse_of_derives .narrow backspaceClass_derives (by decide)⟩, ?_⟩
  rintro ⟨a, ha, hlisted⟩
  rw [ha.reads.unique backspaceClass_derives.reads] at hlisted
  exact hlisted (by simp [backspaceClass, Alternation.escapes, itemsEscapes, Item.escapes,
    Atom.escapes, BracketMember.escapes, BracketUnit.escapes])

end LineRegex
