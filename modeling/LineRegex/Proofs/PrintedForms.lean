/-
LineRegex.Proofs.PrintedForms — the forms that printing writes.

For each piece of a tree that is printed without a recursion there is a form
of the grammar that spells what is printed, is valid, and means the piece.

  §1 Numerals
  §2 Units
  §3 Classes
  §4 Quantifiers and openings
-/
import Mathlib.Data.List.Basic
import LineRegex.Proofs.Grammar.Atoms
import LineRegex.Proofs.Printing

namespace LineRegex

open Grammar

/-! ## §1 Numerals -/

theorem decimalText_toList (n : Nat) : (decimalText n).toList = (Nat.toDigits 10 n).map unit := rfl

theorem isNumeral_decimalText (n : Nat) : IsNumeral (decimalText n).toList := by
  rw [decimalText_toList]
  refine ⟨fun h => Nat.toDigits_ne_nil (List.map_eq_nil_iff.mp h), ?_⟩
  intro d hd
  obtain ⟨c, hc, rfl⟩ := List.mem_map.mp hd
  have hdigit := Nat.isDigit_of_mem_toDigits (by decide) (by decide) hc
  simp only [Char.isDigit, ge_iff_le, Bool.and_eq_true, decide_eq_true_eq,
    UInt32.le_iff_toNat_le] at hdigit
  simp only [CodeUnit.isDigit, Bool.and_eq_true, decide_eq_true_eq]
  exact hdigit

theorem decimalValue_decimalText (n : Nat) : decimalValue (decimalText n).toList = n := by
  have hvalue : Nat.ofDigitChars 10 (Nat.toDigits 10 n) 0 = n := Nat.ofDigitChars_ten_toDigits
  rw [Nat.ofDigitChars_eq_foldl] at hvalue
  rw [decimalText_toList, decimalValue, List.foldl_map]
  simpa only [Nat.mul_comm 10] using hvalue

theorem head?_toDigits (n : Nat) (hn : 1 ≤ n) : (Nat.toDigits 10 n).head? ≠ some '0' := by
  induction n using Nat.strongRecOn with
  | ind n ih =>
    by_cases hsmall : n < 10
    · rw [Nat.toDigits_of_lt_base hsmall, List.head?_cons, ne_eq, Option.some.injEq,
        Nat.digitChar_eq_zero]
      omega
    · have hprev := ih (n / 10) (by omega) (by omega)
      obtain ⟨c, cs, hcons⟩ :=
        List.exists_cons_of_ne_nil (Nat.toDigits_ne_nil (n := n / 10) (b := 10))
      rw [hcons] at hprev
      rwa [Nat.toDigits_of_base_le (by decide) (Nat.not_lt.mp hsmall), hcons]

/-- The numeral of a positive number does not begin with a zero. -/
theorem head?_decimalText {n : Nat} (hn : 1 ≤ n) :
    (decimalText n).toList.head? ≠ some (unit '0') := by
  rw [decimalText_toList, List.head?_map]
  intro h
  obtain ⟨c, hc, hzero⟩ := Option.map_eq_some_iff.mp h
  rw [unit_inj] at hzero
  exact head?_toDigits n hn (hzero ▸ hc)

/-! ## §2 Units -/

/-- The escape that a unit is printed as, if it is not printed as it is. -/
def escapeForm? (special : List CodeUnit) (u : CodeUnit) : Option EscapeForm :=
  if u.isDigit then some (.hex (unit '3') u)
  else if u ∈ special then some (.identity u)
  else none

theorem printUnit_eq (special : List CodeUnit) (u : CodeUnit) :
    printUnit special u =
      match escapeForm? special u with
      | some e => unit '\\' :: e.units
      | none => [u] := by
  unfold printUnit escapeForm?
  split_ifs <;> rfl

/-- A digit is the unit with its own value behind `\x3`. -/
theorem meaning_hex {u : CodeUnit} (hu : u.isDigit = true) :
    (EscapeForm.hex (unit '3') u).Valid ∧
      (EscapeForm.hex (unit '3') u).meaning = .single u := by
  have hvalue : u.hexValue? = some (u - unit '0') := by simp [CodeUnit.hexValue?, hu]
  have hthree : CodeUnit.hexValue? (unit '3') = some 3 := rfl
  have hle : unit '0' ≤ u := by
    simp only [CodeUnit.isDigit, Bool.and_eq_true, decide_eq_true_eq] at hu
    exact hu.1
  refine ⟨⟨by simp [hthree], by simp [hvalue]⟩, ?_⟩
  simp only [EscapeForm.meaning, hthree, hvalue, Option.getD_some, ClassEscape.single.injEq]
  exact Nat.add_sub_cancel' hle

/-- Special units are neither letters nor digits. -/
def Escapable (special : List CodeUnit) : Prop :=
  ∀ u ∈ special, u.isAlpha = false ∧ u.isDigit = false

theorem escapable_specialUnits : Escapable specialUnits := by
  unfold Escapable
  decide

theorem escapable_bracketUnits : Escapable bracketUnits := by
  unfold Escapable
  decide

theorem meaning_of_escapeForm? {special : List CodeUnit} (hspecial : Escapable special)
    {u : CodeUnit} {e : EscapeForm} (h : escapeForm? special u = some e) :
    e.Valid ∧ e ≠ .backspace ∧ e.meaning = .single u := by
  unfold escapeForm? at h
  split_ifs at h with hdigit hmem
  · obtain rfl := Option.some.inj h
    exact ⟨(meaning_hex hdigit).1, nofun, (meaning_hex hdigit).2⟩
  · obtain rfl := Option.some.inj h
    exact ⟨hspecial u hmem, nofun, rfl⟩

/-- The atom that a unit is printed as. -/
def unitAtom (u : CodeUnit) : Atom := ((escapeForm? specialUnits u).map .escape).getD (.literal u)

theorem unitAtom_units (u : CodeUnit) :
    (unitAtom u).first :: (unitAtom u).tail = printUnit specialUnits u := by
  rw [printUnit_eq, unitAtom]
  cases escapeForm? specialUnits u <;> rfl

theorem unitAtom_valid (u : CodeUnit) :
    (unitAtom u).Valid ∧ ¬ (unitAtom u).IsAnchor ∧ (unitAtom u).first.isDigit = false ∧
      (unitAtom u).targets = [] := by
  cases h : escapeForm? specialUnits u with
  | some e =>
    obtain ⟨hvalid, hne, -⟩ := meaning_of_escapeForm? escapable_specialUnits h
    rw [unitAtom, h]
    exact ⟨⟨hvalid, hne⟩, id, rfl, rfl⟩
  | none =>
    rw [unitAtom, h]
    unfold escapeForm? at h
    split_ifs at h with hdigit hmem
    rw [Bool.not_eq_true] at hdigit
    exact ⟨hmem, id, hdigit, rfl⟩

theorem unitAtom_expr {ρ : Type} (w : Width) (ref : Nat → Target → ρ) (position : Nat)
    (u : CodeUnit) : (unitAtom u).expr w ref position = .unit u := by
  cases h : escapeForm? specialUnits u with
  | some e =>
    obtain ⟨-, -, hmeaning⟩ := meaning_of_escapeForm? escapable_specialUnits h
    rw [unitAtom, h]
    simp [Atom.expr_escape, hmeaning]
  | none =>
    rw [unitAtom, h]
    rfl

/-- The unit inside brackets that a unit is printed as. -/
def bracketUnit (u : CodeUnit) : BracketUnit :=
  ((escapeForm? bracketUnits u).map .escaped).getD (.plain u)

theorem bracketUnit_units (u : CodeUnit) :
    (bracketUnit u).first :: (bracketUnit u).tail = printUnit bracketUnits u := by
  rw [printUnit_eq, bracketUnit]
  cases escapeForm? bracketUnits u <;> rfl

theorem bracketUnit_valid (u : CodeUnit) :
    (bracketUnit u).Valid ∧ (bracketUnit u).meaning = .single u ∧
      (bracketUnit u).first ≠ unit '^' ∧ (bracketUnit u).first ≠ unit '-' := by
  cases h : escapeForm? bracketUnits u with
  | some e =>
    obtain ⟨hvalid, -, hmeaning⟩ := meaning_of_escapeForm? escapable_bracketUnits h
    rw [bracketUnit, h]
    exact ⟨hvalid, hmeaning, by simp [BracketUnit.first], by simp [BracketUnit.first]⟩
  | none =>
    rw [bracketUnit, h]
    unfold escapeForm? at h
    split_ifs at h with hdigit hmem
    simp only [bracketUnits, List.mem_cons, List.not_mem_nil, or_false, not_or] at hmem
    exact ⟨⟨hmem.1, hmem.2.1⟩, rfl, hmem.2.2.1, hmem.2.2.2⟩

/-! ## §3 Classes -/

/-- The member that a range is printed as. -/
def rangeMember (r : UnitRange) : BracketMember :=
  if r.lo = r.hi then .one (bracketUnit r.lo) else .range (bracketUnit r.lo) (bracketUnit r.hi)

theorem rangeMember_units (r : UnitRange) :
    (rangeMember r).first :: (rangeMember r).tail = r.print := by
  unfold rangeMember UnitRange.print
  split
  · exact bracketUnit_units r.lo
  · rw [← bracketUnit_units, ← bracketUnit_units]
    rfl

theorem rangeMember_ranges (w : Width) (r : UnitRange) : (rangeMember r).member.ranges w = [r] := by
  obtain ⟨lo, hi⟩ := r
  obtain ⟨-, hlo, -⟩ := bracketUnit_valid lo
  obtain ⟨-, hhi, -⟩ := bracketUnit_valid hi
  unfold rangeMember
  split
  · rename_i heq
    obtain rfl : lo = hi := heq
    simp [BracketMember.member, hlo, Member.ranges, UnitRange.single]
  · simp [BracketMember.member, BracketUnit.value, hlo, hhi, Member.ranges]

theorem rangeMember_first (r : UnitRange) :
    (rangeMember r).first ≠ unit '^' ∧ (rangeMember r).first ≠ unit '-' := by
  obtain ⟨-, -, hcaret, hhyphen⟩ := bracketUnit_valid r.lo
  unfold rangeMember
  split <;> exact ⟨hcaret, hhyphen⟩

theorem memberUnits_ranges (ranges : List UnitRange) :
    memberUnits (ranges.map rangeMember) = ranges.flatMap (·.print) := by
  induction ranges with
  | nil => rfl
  | cons r ranges ih =>
    rw [List.map_cons, memberUnits, ih, List.flatMap_cons, ← rangeMember_units]

theorem head?_memberUnits_ranges {ranges : List UnitRange} {u : CodeUnit}
    (h : (memberUnits (ranges.map rangeMember)).head? = some u) : u ≠ unit '^' ∧ u ≠ unit '-' := by
  cases ranges with
  | nil => simp [memberUnits] at h
  | cons r ranges =>
    obtain rfl : (rangeMember r).first = u := by simpa [memberUnits] using h
    exact rangeMember_first r

theorem validMembers_ranges {ranges : List UnitRange} (hranges : ∀ r ∈ ranges, r.lo ≤ r.hi) :
    ValidMembers (ranges.map rangeMember) := by
  induction ranges with
  | nil => trivial
  | cons r ranges ih =>
    obtain ⟨hr, hothers⟩ := List.forall_mem_cons.mp hranges
    obtain ⟨hlo, hslo, -⟩ := bracketUnit_valid r.lo
    obtain ⟨hhi, hshi, -⟩ := bracketUnit_valid r.hi
    rw [List.map_cons, rangeMember]
    split
    · have hlast : HyphenLast (ranges.map rangeMember) := fun h =>
        absurd rfl (head?_memberUnits_ranges h).2
      exact ⟨hlo, hlast, ih hothers⟩
    · have hvalue : (bracketUnit r.lo).value = r.lo ∧ (bracketUnit r.hi).value = r.hi :=
        ⟨(BracketUnit.isSingle_of_meaning hslo).2, (BracketUnit.isSingle_of_meaning hshi).2⟩
      refine ⟨⟨hlo, hhi, (BracketUnit.isSingle_of_meaning hslo).1,
        (BracketUnit.isSingle_of_meaning hshi).1, ?_⟩, ih hothers⟩
      rw [hvalue.1, hvalue.2]
      exact hr

/-- The atom that a class is printed as. -/
def classAtom (c : CharClass) : Atom := .bracket c.negated (c.ranges.map rangeMember)

theorem classAtom_units (c : CharClass) :
    (classAtom c).first :: (classAtom c).tail = c.print := by
  simp [classAtom, Atom.first, Atom.tail, memberUnits_ranges, CharClass.print]

theorem classAtom_valid {c : CharClass} (hne : c.ranges ≠ [])
    (hnormal : UnitRange.IsNormal c.ranges) : (classAtom c).Valid :=
  ⟨by simpa using hne, validMembers_ranges hnormal.1, fun _ h =>
    absurd rfl (head?_memberUnits_ranges h).1⟩

theorem classAtom_expr (w : Width) {c : CharClass} (hnormal : UnitRange.IsNormal c.ranges)
    {ρ : Type} (ref : Nat → Target → ρ) (position : Nat) :
    (classAtom c).expr w ref position = .charClass c := by
  have hranges : ((c.ranges.map rangeMember).map (·.member)).flatMap (Member.ranges w) =
      c.ranges := by
    rw [List.map_map, List.flatMap_map]
    calc c.ranges.flatMap (fun r => (rangeMember r).member.ranges w)
        = c.ranges.flatMap (fun r => [r]) := List.flatMap_congr fun r _ => rangeMember_ranges w r
      _ = c.ranges := List.flatMap_singleton' c.ranges
  rw [classAtom, Atom.expr, CharClass.ofMembers, hranges, UnitRange.normalize_of_isNormal hnormal]

/-! ## §4 Quantifiers and openings -/

/-- The quantifier that bounds are printed as. -/
def Bounds.quantifier (b : Bounds) : Quantifier :=
  match b.max with
  | none => .atLeast (decimalText b.min).toList
  | some m =>
    if m = b.min then .exactly (decimalText b.min).toList
    else .between (decimalText b.min).toList (decimalText m).toList

theorem Bounds.quantifier_units (b : Bounds) :
    b.quantifier.first :: b.quantifier.tail = b.print := by
  unfold quantifier print
  cases b.max with
  | none => rfl
  | some m => by_cases hm : m = b.min <;> simp [hm, Quantifier.first, Quantifier.tail]

theorem isCount_decimalText {n : Nat} (hn : n ≤ maxRepeatCount) :
    IsCount (decimalText n).toList :=
  ⟨isNumeral_decimalText n, by rwa [decimalValue_decimalText]⟩

theorem Bounds.quantifier_valid {b : Bounds} (hb : b.InBraces) : b.quantifier.Valid := by
  obtain ⟨hmin, hmax⟩ := hb
  unfold quantifier
  split
  · exact isCount_decimalText hmin
  · rename_i m hm
    obtain ⟨hle, hlimit⟩ := hmax m hm
    split
    · exact isCount_decimalText hmin
    · refine ⟨isCount_decimalText hmin, isCount_decimalText hlimit, ?_⟩
      rwa [decimalValue_decimalText, decimalValue_decimalText]

theorem Bounds.quantifier_bounds (b : Bounds) : b.quantifier.bounds = b := by
  obtain ⟨min, max⟩ := b
  cases max with
  | none => simp [quantifier, Quantifier.bounds, decimalValue_decimalText]
  | some m =>
    by_cases hm : m = min <;> simp [quantifier, Quantifier.bounds, decimalValue_decimalText, hm]

/-- The opening that a group is printed with. -/
def opening (names : NameTable) : Option Nat → Opening
  | none => .plain
  | some g =>
    match names.nameOf? g with
    | none => .numbered
    | some name => .named false name.toList

theorem opening_units (names : NameTable) (index : Option Nat) :
    unit '(' :: (opening names index).units = printOpening names index := by
  cases index with
  | none => rfl
  | some g => simp only [opening, printOpening]; cases names.nameOf? g <;> rfl

theorem mem_of_nameOf? {names : NameTable} {g : Nat} {name : Text}
    (h : names.nameOf? g = some name) : (name, g) ∈ names := by
  obtain ⟨e, he, rfl⟩ := Option.map_eq_some_iff.mp h
  have hg : e.2 = g := by simpa using List.find?_some he
  rw [← hg]
  exact List.mem_of_find?_eq_some he

theorem opening_valid {names : NameTable} (hnames : ∀ e ∈ names, IsName e.1.toList)
    (index : Option Nat) : (opening names index).Valid := by
  cases index with
  | none => trivial
  | some g =>
    simp only [opening]
    cases hname : names.nameOf? g with
    | none => trivial
    | some name => exact hnames _ (mem_of_nameOf? hname)

end LineRegex
