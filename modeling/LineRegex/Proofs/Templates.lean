/-
LineRegex.Proofs.Templates — what a template of a replacement spells.

A template is a sequence of tokens: plain units, references to groups, and units
behind a backslash; and it may have a backslash left over at its end. Each text
spells exactly one of them, and stands for what its tokens stand for. So templates
can be joined, unless the first of them ends in a backslash that is left over, and
any text can be spelled by doubling its backslashes.

  §1 Tokens     — what each of them is spelled by, and what it stands for.
  §2 Templates  — the one template that a text spells.
  §3 Meaning    — a text stands for what its tokens stand for.
  §4 Runs       — a backslash is left over behind an odd run of them.
  §5 Expansion
-/
import Mathlib.Algebra.Ring.Parity
import LineRegex.Replace
import LineRegex.Proofs.Bounds

namespace LineRegex

/-! ## §1 Tokens -/

/-- What a template is made of. -/
inductive TemplateToken where
  /-- A unit other than a backslash. -/
  | plain (u : CodeUnit) (h : u ≠ unit '\\')
  /-- A backslash and a digit. -/
  | group (d : Fin 10)
  /-- A backslash and any other unit. -/
  | escaped (v : CodeUnit) (h : v.isDigit = false)
  deriving DecidableEq

namespace TemplateToken

/-- The units that spell a token. -/
def units : TemplateToken → List CodeUnit
  | plain u _ => [u]
  | group d => [unit '\\', unit '0' + d]
  | escaped v _ => [unit '\\', v]

/-- The units that a token stands for at a match: a group that is not set, or that
the pattern does not have, has no text and contributes nothing. -/
def meaning (m : Match) : TemplateToken → List CodeUnit
  | plain u _ => [u]
  | group d =>
    match m.group d with
    | some text => text.toList
    | none => []
  | escaped v _ => [v]

/-- The digits are ten units in a row. -/
theorem isDigit_iff {v : CodeUnit} : v.isDigit = true ↔ ∃ d : Fin 10, v = unit '0' + d := by
  simp only [CodeUnit.isDigit, Bool.and_eq_true, decide_eq_true_eq]
  constructor
  · rintro ⟨hzero, hnine⟩
    exact ⟨⟨v - unit '0', (Nat.sub_lt_iff_lt_add hzero).mpr (Nat.lt_succ_of_le hnine)⟩,
      (Nat.add_sub_cancel' hzero).symm⟩
  · rintro ⟨d, rfl⟩
    exact ⟨Nat.le_add_right _ _, Nat.add_le_add_left (Nat.le_of_lt_succ d.isLt) (unit '0')⟩

/-- The token that a backslash and the given unit spell. -/
def behindBackslash (v : CodeUnit) : TemplateToken :=
  if h : v.isDigit = false then .escaped v h else .group (Fin.ofNat 10 (v - unit '0'))

theorem behindBackslash_escaped {v : CodeUnit} (h : v.isDigit = false) :
    behindBackslash v = .escaped v h := dif_pos h

theorem behindBackslash_digit (d : Fin 10) : behindBackslash (unit '0' + d) = .group d := by
  have hdigit : CodeUnit.isDigit (unit '0' + d) = true := isDigit_iff.mpr ⟨d, rfl⟩
  rw [behindBackslash, dif_neg (by simp [hdigit]), Nat.add_sub_cancel_left]
  exact congrArg group (Fin.ofNat_val_eq_self d)

theorem units_behindBackslash (v : CodeUnit) : (behindBackslash v).units = [unit '\\', v] := by
  cases h : v.isDigit with
  | false =>
    rw [behindBackslash_escaped h]
    rfl
  | true =>
    obtain ⟨d, rfl⟩ := isDigit_iff.mp h
    rw [behindBackslash_digit]
    rfl

theorem meaning_behindBackslash (m : Match) (v : CodeUnit) :
    (behindBackslash v).meaning m =
      if v.isDigit then ((m.group (v - unit '0')).getD #[]).toList else [v] := by
  cases h : v.isDigit with
  | false =>
    rw [behindBackslash_escaped h]
    rfl
  | true =>
    obtain ⟨d, rfl⟩ := isDigit_iff.mp h
    rw [behindBackslash_digit, if_pos rfl, Nat.add_sub_cancel_left, meaning]
    cases m.group d <;> rfl

end TemplateToken

/-! ## §2 Templates -/

/-- A sequence of tokens, and whether a backslash is left over behind them. -/
structure Template where
  tokens : List TemplateToken
  leftOver : Bool

namespace Template

/-- The backslash that is left over, if any. -/
def rest (t : Template) : List CodeUnit := if t.leftOver then [unit '\\'] else []

/-- The text that spells a template. -/
def units (t : Template) : List CodeUnit := t.tokens.flatMap TemplateToken.units ++ t.rest

/-- What a template stands for at a match: its tokens stand for what each of them
stands for, and a backslash that is left over for itself. -/
def meaning (m : Match) (t : Template) : List CodeUnit :=
  t.tokens.flatMap (TemplateToken.meaning m) ++ t.rest

/-- A template with one more token in front. -/
def cons (token : TemplateToken) (t : Template) : Template := ⟨token :: t.tokens, t.leftOver⟩

/-- The template that a text spells. -/
def read : List CodeUnit → Template
  | [] => ⟨[], false⟩
  | [u] => if h : u = unit '\\' then ⟨[], true⟩ else ⟨[.plain u h], false⟩
  | u :: v :: rest =>
    if h : u = unit '\\' then (read rest).cons (.behindBackslash v)
    else (read (v :: rest)).cons (.plain u h)

@[simp] theorem tokens_cons (token : TemplateToken) (t : Template) :
    (t.cons token).tokens = token :: t.tokens := rfl

@[simp] theorem rest_cons (token : TemplateToken) (t : Template) : (t.cons token).rest = t.rest :=
  rfl

@[simp] theorem units_cons (token : TemplateToken) (t : Template) :
    (t.cons token).units = token.units ++ t.units := by
  simp [units]

@[simp] theorem meaning_cons (m : Match) (token : TemplateToken) (t : Template) :
    (t.cons token).meaning m = token.meaning m ++ t.meaning m := by
  simp [meaning]

theorem read_plain {u : CodeUnit} (h : u ≠ unit '\\') (rest : List CodeUnit) :
    read (u :: rest) = (read rest).cons (.plain u h) := by
  cases rest with
  | nil =>
    rw [read, read, dif_neg h]
    rfl
  | cons v rest => rw [read, dif_neg h]

theorem read_backslash (v : CodeUnit) (rest : List CodeUnit) :
    read (unit '\\' :: v :: rest) = (read rest).cons (.behindBackslash v) := by
  rw [read, dif_pos rfl]

/-- The template that a text spells is spelled by it. -/
theorem units_read (r : List CodeUnit) : (read r).units = r := by
  fun_induction read r with
  | case1 => rfl
  | case2 => rfl
  | case3 u h => rfl
  | case4 v rest ih =>
    rw [units_cons, ih, TemplateToken.units_behindBackslash]
    rfl
  | case5 u v rest h ih =>
    rw [units_cons, ih]
    rfl

/-- What spells a template spells no other one. -/
theorem read_units (t : Template) : read t.units = t := by
  obtain ⟨tokens, leftOver⟩ := t
  induction tokens with
  | nil => cases leftOver <;> rfl
  | cons token tokens ih =>
    show read (units (cons token ⟨tokens, leftOver⟩)) = cons token ⟨tokens, leftOver⟩
    rw [units_cons]
    cases token with
    | plain u h => exact (read_plain h _).trans (congrArg (cons _) ih)
    | group d =>
      refine (read_backslash _ _).trans ?_
      rw [TemplateToken.behindBackslash_digit]
      exact congrArg (cons _) ih
    | escaped v h =>
      refine (read_backslash v _).trans ?_
      rw [TemplateToken.behindBackslash_escaped h]
      exact congrArg (cons _) ih

/-- Each text spells exactly one template. -/
theorem existsUnique_units_eq (r : List CodeUnit) : ∃! t : Template, t.units = r :=
  ⟨read r, units_read r, fun t ht => by rw [← ht, read_units]⟩

/-! ## §3 Meaning -/

theorem expand_eq_meaning_read (m : Match) (r : List CodeUnit) :
    expand m r = (read r).meaning m := by
  fun_induction read r with
  | case1 => rfl
  | case2 => rfl
  | case3 u h => rfl
  | case4 v rest ih =>
    rw [expand, if_pos rfl, ih, meaning_cons, TemplateToken.meaning_behindBackslash]
  | case5 u v rest h ih =>
    rw [expand, if_neg h, ih, meaning_cons]
    rfl

/-- The text that spells a template stands for what the template does. -/
theorem expand_units (m : Match) (t : Template) : expand m t.units = t.meaning m := by
  rw [expand_eq_meaning_read, read_units]

/-- One template behind another that has no backslash left over. -/
def append (t t' : Template) : Template := ⟨t.tokens ++ t'.tokens, t'.leftOver⟩

variable {t : Template}

theorem rest_of_not_leftOver (h : t.leftOver = false) : t.rest = [] := by
  rw [rest, h]
  rfl

@[simp] theorem tokens_append (t t' : Template) : (t.append t').tokens = t.tokens ++ t'.tokens :=
  rfl

@[simp] theorem rest_append (t t' : Template) : (t.append t').rest = t'.rest := rfl

theorem units_append (h : t.leftOver = false) (t' : Template) :
    (t.append t').units = t.units ++ t'.units := by
  simp [units, rest_of_not_leftOver h]

theorem meaning_append (m : Match) (h : t.leftOver = false) (t' : Template) :
    (t.append t').meaning m = t.meaning m ++ t'.meaning m := by
  simp [meaning, rest_of_not_leftOver h]

end Template

/-! ## §4 Runs -/

/-- The number of backslashes in a row at the end of a text. -/
def trailingBackslashes (r : List CodeUnit) : Nat :=
  (r.rtakeWhile (· = unit '\\')).length

theorem trailingBackslashes_concat_backslash (r : List CodeUnit) :
    trailingBackslashes (r ++ [unit '\\']) = trailingBackslashes r + 1 := by
  rw [trailingBackslashes, List.rtakeWhile_concat_pos _ _ _ (by simp), List.length_append]
  rfl

theorem trailingBackslashes_concat {u : CodeUnit} (h : u ≠ unit '\\') (r : List CodeUnit) :
    trailingBackslashes (r ++ [u]) = 0 := by
  rw [trailingBackslashes, List.rtakeWhile_concat_neg _ _ _ (by simpa using h)]
  rfl

/-- Behind whole tokens there are as many backslashes as their pairs have. -/
theorem even_trailingBackslashes_tokens (tokens : List TemplateToken) :
    Even (trailingBackslashes (tokens.flatMap TemplateToken.units)) := by
  -- from the right, since that is where the run of backslashes stands
  induction tokens using List.reverseRecOn with
  | nil => exact Even.zero
  | append_singleton tokens token ih =>
    rw [List.flatMap_append, List.flatMap_singleton]
    have hbehind (v : CodeUnit) : Even (trailingBackslashes
        (tokens.flatMap TemplateToken.units ++ [unit '\\', v])) := by
      rw [← List.singleton_append, ← List.append_assoc]
      by_cases hv : v = unit '\\'
      · subst hv
        rw [trailingBackslashes_concat_backslash, trailingBackslashes_concat_backslash]
        exact ih.add (by decide : Even 2)
      · rw [trailingBackslashes_concat hv]
        exact Even.zero
    cases token with
    | plain u h =>
      rw [TemplateToken.units, trailingBackslashes_concat h]
      exact Even.zero
    | group d => exact hbehind _
    | escaped v h => exact hbehind v

/-- A backslash is left over exactly behind an odd run of them. -/
theorem Template.leftOver_iff_odd (t : Template) :
    t.leftOver = true ↔ Odd (trailingBackslashes t.units) := by
  have heven := even_trailingBackslashes_tokens t.tokens
  rw [units, rest]
  cases t.leftOver with
  | true =>
    rw [if_pos rfl, trailingBackslashes_concat_backslash]
    exact iff_of_true rfl heven.add_one
  | false =>
    rw [if_neg Bool.false_ne_true, List.append_nil]
    exact iff_of_false Bool.false_ne_true (Nat.not_odd_iff_even.mpr heven)

/-! ## §5 Expansion -/

/-- A text with each of its backslashes doubled. -/
def doubledBackslashes (s : List CodeUnit) : List CodeUnit :=
  s.flatMap fun u => if u = unit '\\' then [unit '\\', unit '\\'] else [u]

/-- Two templates in a row stand for what each of them stands for, unless a
backslash at the end of the first one takes up a unit of the second one. -/
theorem expand_append (m : Match) {r : List CodeUnit} (h : ¬Odd (trailingBackslashes r))
    (r' : List CodeUnit) : expand m (r ++ r') = expand m r ++ expand m r' := by
  obtain ⟨t, rfl, -⟩ := Template.existsUnique_units_eq r
  obtain ⟨t', rfl, -⟩ := Template.existsUnique_units_eq r'
  have hwhole : t.leftOver = false := by
    rwa [← t.leftOver_iff_odd, Bool.not_eq_true] at h
  rw [← Template.units_append hwhole, Template.expand_units, Template.expand_units,
    Template.expand_units, Template.meaning_append m hwhole]

/-- The template whose tokens are the units of a text, each of them standing for itself. -/
def Template.literal (s : List CodeUnit) : Template where
  tokens := s.map fun u =>
    if h : u = unit '\\' then .escaped u (by rw [h]; rfl) else .plain u h
  leftOver := false

theorem Template.units_literal (s : List CodeUnit) :
    (literal s).units = doubledBackslashes s := by
  rw [units, rest_of_not_leftOver rfl, List.append_nil, literal, List.flatMap_map,
    doubledBackslashes]
  refine List.flatMap_congr fun u _ => ?_
  by_cases h : u = unit '\\'
  · subst h
    rfl
  · rw [dif_neg h, if_neg h]
    rfl

theorem Template.meaning_literal (m : Match) (s : List CodeUnit) : (literal s).meaning m = s := by
  have htoken (u : CodeUnit) : TemplateToken.meaning m
      (if h : u = unit '\\' then .escaped u (by rw [h]; rfl) else .plain u h) = [u] := by
    split <;> rfl
  rw [meaning, rest_of_not_leftOver rfl, List.append_nil, literal, List.flatMap_map]
  simp only [htoken, List.flatMap_singleton']

/-- With its backslashes doubled, a text stands for itself. -/
theorem expand_doubledBackslashes (m : Match) (s : List CodeUnit) :
    expand m (doubledBackslashes s) = s := by
  rw [← Template.units_literal, Template.expand_units, Template.meaning_literal]

/-- A group behind the last one of the pattern has no text. -/
theorem Pattern.Yields.group_eq_none {p : Pattern} {text : Text} {o : FindOptions} {m : Match}
    (h : p.Yields text o m) {g : Nat} (hg : p.groupCount < g) : m.group g = none := by
  have hlength := (inBounds_of_mem_events h.mem_events).1.length_spans
  rw [Match.group, Match.span_eq, List.getElem?_eq_none (by omega)]
  rfl

/-- Whatever the match: a template is exactly one sequence of tokens, and stands for
what these stand for; so templates can be joined, unless the first of them ends in an
odd run of backslashes; a group that the pattern does not have has no text; and each
text is what it stands for with its backslashes doubled. -/
theorem expand_homomorphic (m : Match) :
    (∀ r : List CodeUnit, ∃! t : Template, t.units = r) ∧
      (∀ t : Template, expand m t.units = t.meaning m) ∧
      (∀ r r', ¬Odd (trailingBackslashes r) → expand m (r ++ r') = expand m r ++ expand m r') ∧
      (∀ p text o g, Pattern.Yields p text o m → p.groupCount < g → m.group g = none) ∧
      ∀ s, expand m (doubledBackslashes s) = s := by
  refine ⟨Template.existsUnique_units_eq, Template.expand_units m, fun r r' h => ?_,
    fun p text o g h hg => h.group_eq_none hg, expand_doubledBackslashes m⟩
  exact expand_append m h r'

/-- `\0\\` -/
def wholeAndBackslash : List CodeUnit := (Text.ofString "\\0\\\\").toList

/-- `1\2` -/
def oneAndGroupTwo : List CodeUnit := (Text.ofString "1\\2").toList

/-- At the match of `(?:(a)|b)+` on `ab`: behind `\0\\` the digit is a unit of its own,
there is no second group, and `\0\\` itself can be spelled. -/
theorem expand_homomorphic_unitsInTurn :
    ∃ m, Pattern.Yields Pattern.unitsInTurn "ab" {} m ∧
      ¬Odd (trailingBackslashes wholeAndBackslash) ∧
      expand m (wholeAndBackslash ++ oneAndGroupTwo) = (Text.ofString "ab\\1").toList ∧
      m.group 2 = none ∧
      expand m (doubledBackslashes wholeAndBackslash) = wholeAndBackslash := by
  obtain ⟨m, hm, hfront, hback⟩ : ∃ m, (Pattern.unitsInTurn.search "ab" {}).2 = some m ∧
      expand m wholeAndBackslash = (Text.ofString "ab\\").toList ∧
      expand m oneAndGroupTwo = (Text.ofString "1").toList := ⟨_, by cbv, rfl, rfl⟩
  have hyields : Pattern.Yields Pattern.unitsInTurn "ab" {} m := .search hm
  have heven : ¬Odd (trailingBackslashes wholeAndBackslash) := by decide
  obtain ⟨-, -, happend, hnone, hdoubled⟩ := expand_homomorphic m
  refine ⟨m, hyields, heven, ?_, hnone _ _ _ 2 hyields (by decide), hdoubled _⟩
  rw [happend _ _ heven, hfront, hback]
  rfl

end LineRegex
