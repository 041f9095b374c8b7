/-
LineRegex.Proofs.Grammar.Unambiguous — no text has two derivations.

Two forms that spell the same units, each in front of a text that could not
prolong it, are the same form. For most forms the readers tell how many units
belong to them; what is left is that a form can be told from its units.

  §1 Runs
  §2 Quantifiers and openings
  §3 Escapes
  §4 Bracket expressions
  §5 Atoms
  §6 Derivations
-/
import LineRegex.Proofs.Grammar.Reading

namespace LineRegex.Grammar

/-! ## §1 Runs -/

theorem run_inj {p : CodeUnit → Bool} {ds ds' rest rest' : List CodeUnit}
    (hds : ∀ d ∈ ds, p d = true) (hds' : ∀ d ∈ ds', p d = true)
    (hrest : ∀ u ∈ rest.head?, p u = false) (hrest' : ∀ u ∈ rest'.head?, p u = false)
    (h : ds ++ rest = ds' ++ rest') : ds = ds' ∧ rest = rest' := by
  have hrun := congrArg (List.takeWhile p) h
  rw [takeWhile_append_of_stop hds hrest, takeWhile_append_of_stop hds' hrest'] at hrun
  subst hrun
  exact ⟨rfl, List.append_cancel_left h⟩

/-- Numerals in front of units that are no digits. -/
theorem numeral_inj {m m' rest rest' : List CodeUnit} {u u' : CodeUnit} (hm : IsNumeral m)
    (hm' : IsNumeral m') (hu : u.isDigit = false) (hu' : u'.isDigit = false)
    (h : m ++ u :: rest = m' ++ u' :: rest') : m = m' ∧ u = u' ∧ rest = rest' := by
  obtain ⟨hrun, htail⟩ :=
    run_inj hm.2 hm'.2 (by rintro v ⟨⟩; exact hu) (by rintro v ⟨⟩; exact hu') h
  exact ⟨hrun, List.cons.inj htail⟩

theorem cons_ne_numeral {m rest rest' : List CodeUnit} {u : CodeUnit} (hm : IsNumeral m)
    (hu : u.isDigit = false) : u :: rest ≠ m ++ rest' := by
  obtain ⟨hne, hdigits⟩ := hm
  cases m with
  | nil => exact absurd rfl hne
  | cons d ds =>
    intro h
    have hd := hdigits d (by simp)
    rw [← (List.cons.inj h).1, hu] at hd
    exact Bool.false_ne_true hd

theorem name_inj {m m' rest rest' : List CodeUnit} (hm : IsName m) (hm' : IsName m')
    (h : m ++ unit '>' :: rest = m' ++ unit '>' :: rest') : m = m' ∧ rest = rest' := by
  have hstop : ∀ (rest : List CodeUnit), ∀ v ∈ (unit '>' :: rest).head?, v.isWord = false := by
    rintro rest v ⟨⟩
    rfl
  obtain ⟨hrun, htail⟩ :=
    run_inj (isName_iff.mp hm).1 (isName_iff.mp hm').1 (hstop _) (hstop _) h
  exact ⟨hrun, (List.cons.inj htail).2⟩

/-! ## §2 Quantifiers and openings -/

theorem Quantifier.units_inj {q q' : Quantifier} (hq : q.Valid) (hq' : q'.Valid)
    {rest rest' : List CodeUnit}
    (h : q.first :: q.tail ++ rest = q'.first :: q'.tail ++ rest') : q = q' ∧ rest = rest' := by
  have hcomma : (unit ',').isDigit = false := rfl
  have hclose : (unit '\x7d').isDigit = false := rfl
  cases q <;> cases q' <;>
    simp only [first, tail, List.cons_append, List.cons.injEq, unit_inj, Char.reduceEq, false_and,
      true_and, List.nil_append, List.append_assoc] at h
  case star.star => exact ⟨rfl, h⟩
  case plus.plus => exact ⟨rfl, h⟩
  case optional.optional => exact ⟨rfl, h⟩
  case exactly.exactly m m' =>
    obtain ⟨rfl, -, rfl⟩ := numeral_inj hq.1 hq'.1 hclose hclose h
    exact ⟨rfl, rfl⟩
  case exactly.atLeast m m' =>
    obtain ⟨-, h, -⟩ := numeral_inj hq.1 hq'.1 hclose hcomma h
    simp at h
  case exactly.between m m' n' =>
    obtain ⟨-, h, -⟩ := numeral_inj hq.1 hq'.1.1 hclose hcomma h
    simp at h
  case atLeast.exactly m m' =>
    obtain ⟨-, h, -⟩ := numeral_inj hq.1 hq'.1 hcomma hclose h
    simp at h
  case atLeast.atLeast m m' =>
    obtain ⟨rfl, -, h⟩ := numeral_inj hq.1 hq'.1 hcomma hcomma h
    exact ⟨rfl, by simpa using h⟩
  case atLeast.between m m' n' =>
    obtain ⟨-, -, h⟩ := numeral_inj hq.1 hq'.1.1 hcomma hcomma h
    exact absurd h (cons_ne_numeral hq'.2.1.1 hclose)
  case between.exactly m n m' =>
    obtain ⟨-, h, -⟩ := numeral_inj hq.1.1 hq'.1 hcomma hclose h
    simp at h
  case between.atLeast m n m' =>
    obtain ⟨-, -, h⟩ := numeral_inj hq.1.1 hq'.1 hcomma hcomma h
    exact absurd h.symm (cons_ne_numeral hq.2.1.1 hclose)
  case between.between m n m' n' =>
    obtain ⟨rfl, -, h⟩ := numeral_inj hq.1.1 hq'.1.1 hcomma hcomma h
    obtain ⟨rfl, -, rfl⟩ := numeral_inj hq.2.1.1 hq'.2.1.1 hclose hclose h
    exact ⟨rfl, rfl⟩

theorem suffixUnits_inj {q q' : Option Quantifier} (hq : ∀ p ∈ q, p.Valid)
    (hq' : ∀ p ∈ q', p.Valid) {rest rest' : List CodeUnit}
    (hrest : startsQuantifier rest = false) (hrest' : startsQuantifier rest' = false)
    (h : suffixUnits q ++ rest = suffixUnits q' ++ rest') : q = q' ∧ rest = rest' := by
  have hstart : ∀ (q : Quantifier) (us : List CodeUnit),
      startsQuantifier (q.first :: q.tail ++ us) = true := fun q us => q.isQuantifierStart_first
  cases q with
  | none =>
    cases q' with
    | none => exact ⟨rfl, h⟩
    | some q' =>
      have hrest : startsQuantifier (suffixUnits (some q') ++ rest') = false := h ▸ hrest
      exact absurd (hstart q' rest') (by simpa [suffixUnits] using hrest)
  | some q =>
    cases q' with
    | none =>
      have hrest' : startsQuantifier (suffixUnits (some q) ++ rest) = false := h ▸ hrest'
      exact absurd (hstart q rest) (by simpa [suffixUnits] using hrest')
    | some q' =>
      obtain ⟨hqq, hrest⟩ := Quantifier.units_inj (hq q rfl) (hq' q' rfl) h
      exact ⟨congrArg some hqq, hrest⟩

theorem Opening.units_inj {o o' : Opening} (ho : o.Valid) (ho' : o'.Valid)
    {rest rest' : List CodeUnit} (hrest : startsWith '?' rest = false)
    (hrest' : startsWith '?' rest' = false) (h : o.units ++ rest = o'.units ++ rest') :
    o = o' ∧ rest = rest' := by
  have hmark : ∀ (o : Opening) (us : List CodeUnit), o ≠ numbered →
      startsWith '?' (o.units ++ us) = true := by
    intro o us ho
    cases o with
    | numbered => exact absurd rfl ho
    | plain => rfl
    | named long name => cases long <;> rfl
  by_cases hn : o = numbered
  · subst hn
    by_cases hn' : o' = numbered
    · subst hn'
      exact ⟨rfl, h⟩
    · rw [show rest = o'.units ++ rest' from h, hmark o' rest' hn'] at hrest
      exact absurd hrest (by simp)
  by_cases hn' : o' = numbered
  · subst hn'
    rw [← show o.units ++ rest = rest' from h, hmark o rest hn] at hrest'
    exact absurd hrest' (by simp)
  cases o with
  | numbered => exact absurd rfl hn
  | plain =>
    cases o' with
    | numbered => exact absurd rfl hn'
    | plain => exact ⟨rfl, List.append_cancel_left h⟩
    | named long name => cases long <;> simp [units] at h
  | named long name =>
    cases o' with
    | numbered => exact absurd rfl hn'
    | plain => cases long <;> simp [units] at h
    | named long' name' =>
      obtain ⟨rfl, hname⟩ : long = long' ∧
          name ++ unit '>' :: rest = name' ++ unit '>' :: rest' := by
        cases long <;> cases long' <;> simp [units] at h ⊢ <;> exact h
      obtain ⟨rfl, hrest⟩ := name_inj ho ho' hname
      exact ⟨rfl, hrest⟩

/-! ## §3 Escapes -/

theorem Control.letter_inj {c c' : Control} (h : c.letter = c'.letter) : c = c' := by
  cases c <;> cases c' <;> first | rfl | simp [letter] at h

/-- The escape whose letter stands alone. -/
def EscapeForm.letterMeaning? : EscapeForm → Option ClassEscape
  | control c => some (.single c.value)
  | shorthand s => some (.shorthand s)
  | letter _ | hex _ _ | identity _ | backspace => none

theorem EscapeForm.letterEscape?_head {e : EscapeForm} (he : e.Valid) :
    e.units.head?.bind letterEscape? = e.letterMeaning? := by
  cases e with
  | control c => exact letterEscape?_control c
  | shorthand s => exact letterEscape?_shorthand s
  | identity u => exact letterEscape?_eq_none he.1 he.2
  | letter u => rfl
  | hex high low => rfl
  | backspace => rfl

theorem EscapeForm.eq_of_units {e e' : EscapeForm} (he : e.Valid) (he' : e'.Valid)
    (h : e.units = e'.units) : e = e' := by
  have hletter : e.letterMeaning? = e'.letterMeaning? := by
    rw [← letterEscape?_head he, ← letterEscape?_head he', h]
  -- the letters that stand alone tell apart all that is one unit long
  cases e <;> cases e' <;>
    simp only [units, letterMeaning?, List.cons.injEq, Option.some.injEq,
      ClassEscape.shorthand.injEq, and_true, true_and, reduceCtorEq, and_false] at h hletter
  case control.control c c' => rw [Control.letter_inj h]
  case letter.letter u u' => rw [h]
  case hex.hex a b a' b' => rw [h.1, h.2]
  case shorthand.shorthand s s' => rw [hletter]
  case identity.identity u u' => rw [h]
  case identity.backspace u => exact absurd h (ne_unit_of_isAlpha he.1 rfl)
  case backspace.identity u => exact absurd h.symm (ne_unit_of_isAlpha he'.1 rfl)
  case backspace.backspace => rfl

theorem EscapeForm.units_inj {e e' : EscapeForm} (he : e.Valid) (he' : e'.Valid)
    {rest rest' : List CodeUnit} (h : e.units ++ rest = e'.units ++ rest') :
    e = e' ∧ rest = rest' := by
  have hread := lexClassEscape_append 0 he rest
  rw [h, lexClassEscape_append 0 he' rest', Except.ok.injEq, Prod.mk.injEq] at hread
  obtain ⟨hunits, hrest⟩ := List.append_inj h hread.2.symm
  exact ⟨eq_of_units he he' hunits, hrest⟩

/-! ## §4 Bracket expressions -/

theorem BracketUnit.eq_of_units {a a' : BracketUnit} (ha : a.Valid) (ha' : a'.Valid)
    (hfirst : a.first = a'.first) (htail : a.tail = a'.tail) : a = a' := by
  cases a with
  | plain u =>
    cases a' with
    | plain u' => exact congrArg plain hfirst
    | escaped e' => exact absurd hfirst ha.1
  | escaped e =>
    cases a' with
    | plain u' => exact absurd hfirst.symm ha'.1
    | escaped e' => exact congrArg escaped (EscapeForm.eq_of_units ha ha' htail)

theorem BracketUnit.units_inj {a a' : BracketUnit} (ha : a.Valid) (ha' : a'.Valid)
    {rest rest' : List CodeUnit} (hfirst : a.first = a'.first)
    (htail : a.tail ++ rest = a'.tail ++ rest') : a = a' ∧ rest = rest' := by
  have hread := lexClassAtom_append 0 ha rest
  rw [htail, hfirst, lexClassAtom_append 0 ha' rest', Except.ok.injEq, Prod.mk.injEq] at hread
  obtain ⟨htail, hrest⟩ := List.append_inj htail hread.2.symm
  exact ⟨eq_of_units ha ha' hfirst htail, hrest⟩

theorem BracketMember.eq_of_units {m m' : BracketMember} (hm : m.Valid) (hm' : m'.Valid)
    (hfirst : m.first = m'.first) (htail : m.tail = m'.tail) (hmember : m.member = m'.member) :
    m = m' := by
  have hone : ∀ (a : BracketUnit) (lo hi : CodeUnit), (one a).member ≠ .range lo hi := by
    intro a lo hi
    rw [member]
    cases a.meaning <;> simp
  cases m with
  | one a =>
    cases m' with
    | one a' => exact congrArg one (BracketUnit.eq_of_units hm hm' hfirst htail)
    | range lo hi => exact absurd hmember (hone _ _ _)
  | range lo hi =>
    cases m' with
    | one a' => exact absurd hmember.symm (hone _ _ _)
    | range lo' hi' =>
      obtain ⟨hlo, hrest⟩ := BracketUnit.units_inj hm.1 hm'.1 hfirst htail
      obtain ⟨hhi, hrest⟩ := List.cons.inj (List.cons.inj hrest).2
      rw [hlo, BracketUnit.eq_of_units hm.2.1 hm'.2.1 hhi hrest]

theorem memberUnits_inj {ms ms' : List BracketMember} (hms : ValidMembers ms)
    (hms' : ValidMembers ms') {rest rest' : List CodeUnit}
    (h : memberUnits ms ++ unit ']' :: rest = memberUnits ms' ++ unit ']' :: rest') : ms = ms' := by
  induction ms generalizing ms' with
  | nil =>
    cases ms' with
    | nil => rfl
    | cons m' ms' =>
      exact absurd (List.cons.inj h).1.symm (BracketMember.first_ne_close hms'.head)
  | cons m ms ih =>
    cases ms' with
    | nil => exact absurd (List.cons.inj h).1 (BracketMember.first_ne_close hms.head)
    | cons m' ms' =>
      simp only [memberUnits, List.cons_append, List.append_assoc, List.cons.injEq] at h
      obtain ⟨hfirst, htail⟩ := h
      have hread := lexMember_append 0 hms rest
      rw [hfirst, htail, lexMember_append 0 hms' rest', Except.ok.injEq, Prod.mk.injEq] at hread
      obtain ⟨hmember, hlength⟩ := hread
      obtain ⟨htail, hrest⟩ := List.append_inj htail hlength.symm
      rw [BracketMember.eq_of_units hms.head hms'.head hfirst htail hmember.symm,
        ih hms.tail hms'.tail hrest]

/-! ## §5 Atoms -/

theorem Atom.literal_ne_backslash {u : CodeUnit} (hu : (literal u).Valid) : u ≠ unit '\\' := by
  have hmem : u ∉ specialUnits := hu
  simp only [specialUnits, List.mem_cons, not_or] at hmem
  exact hmem.2.2.2.2.2.2.1

theorem Atom.first_anchor (a : Anchor) : (anchor a).first ≠ unit '\\' := by
  cases a <;> simp [first]

theorem Atom.eq_of_units {a a' : Atom} (ha : a.Valid) (ha' : a'.Valid)
    (hfirst : a.first = a'.first) (htail : a.tail = a'.tail)
    (hexpr : a.expr .narrow readReference 0 = a'.expr .narrow readReference 0) : a = a' := by
  have hescape : ∀ (e : EscapeForm) (r : Reference),
      (escape e).expr .narrow readReference 0 ≠ .backreference r := by
    intro e r
    rw [expr_escape]
    cases e.meaning <;> simp
  -- atoms of different kinds differ in the tree, but for escapes, which denote many
  cases a <;> cases a'
  case literal.literal u u' => exact congrArg literal hfirst
  case any.any => rfl
  case anchor.anchor a a' =>
    simp only [expr, Expr.anchor.injEq] at hexpr
    rw [hexpr]
  case escape.escape e e' => exact congrArg escape (EscapeForm.eq_of_units ha.1 ha'.1 htail)
  case reference.reference ds ds' => exact congrArg reference htail
  case namedReference.namedReference name name' =>
    simp only [expr, readReference, Expr.backreference.injEq, Reference.mk.injEq, Target.name.injEq,
      Array.mk.injEq, true_and] at hexpr
    rw [hexpr]
  case bracket.bracket negated ms negated' ms' =>
    obtain rfl : negated = negated' := by
      simp only [expr, CharClass.ofMembers, Expr.charClass.injEq, CharClass.mk.injEq] at hexpr
      exact hexpr.2
    simp only [tail, List.append_assoc] at htail
    rw [memberUnits_inj ha.2.1 ha'.2.1 (List.append_cancel_left htail)]
  case literal.escape u e => exact absurd hfirst (literal_ne_backslash ha)
  case escape.literal e u => exact absurd hfirst.symm (literal_ne_backslash ha')
  case anchor.escape a e => exact absurd hfirst (first_anchor a)
  case escape.anchor e a => exact absurd hfirst.symm (first_anchor a)
  case escape.reference e ds => exact absurd hexpr (hescape e _)
  case escape.namedReference e name => exact absurd hexpr (hescape e _)
  case reference.escape ds e => exact absurd hexpr.symm (hescape e _)
  case namedReference.escape name e => exact absurd hexpr.symm (hescape e _)
  all_goals simp [expr, readReference, first] at hexpr hfirst

theorem Atom.units_inj {a a' : Atom} (ha : a.Valid) (ha' : a'.Valid) {rest rest' : List CodeUnit}
    (hrest : a.IsReference → ¬ StartsDigit rest) (hrest' : a'.IsReference → ¬ StartsDigit rest')
    (hfirst : a.first = a'.first) (htail : a.tail ++ rest = a'.tail ++ rest') :
    a = a' ∧ rest = rest' := by
  have hread := lexAtom_append .narrow 0 ha hrest
  rw [hfirst, htail, lexAtom_append .narrow 0 ha' hrest', Except.ok.injEq, Prod.mk.injEq] at hread
  obtain ⟨htail, hrest⟩ := List.append_inj htail hread.2.symm
  exact ⟨eq_of_units ha ha' hfirst htail hread.1.symm, hrest⟩

/-! ## §6 Derivations -/

/-- Nothing follows that could belong to an alternation. -/
def EndsAlternation (rest : List CodeUnit) : Prop := ∀ u ∈ rest.head?, u = unit ')'

theorem EndsAlternation.endsSequence {rest : List CodeUnit} (h : EndsAlternation rest) :
    EndsSequence rest := fun u hu => .inr (h u hu)

theorem endsSequence_bar (rest : List CodeUnit) : EndsSequence (unit '|' :: rest) := by
  rintro u ⟨⟩
  exact .inl rfl

theorem endsAlternation_close (rest : List CodeUnit) : EndsAlternation (unit ')' :: rest) := by
  rintro u ⟨⟩
  rfl

/-- An item does not begin where a sequence has ended. -/
theorem not_endsSequence_item {i : Item} (hi : i.Valid) (rest : List CodeUnit) :
    ¬ EndsSequence (i.units ++ rest) := by
  obtain ⟨u, us, hunits, hbar, hclose, -⟩ := Item.units_cons hi
  intro h
  rw [hunits] at h
  exact (h u rfl).elim hbar hclose

mutual

theorem Item.units_inj (i i' : Item) (hi : i.Valid) (hi' : i'.Valid) {rest rest' : List CodeUnit}
    (hrest : startsQuantifier rest = false) (hrest' : startsQuantifier rest' = false)
    (hdigits : i.EndsInDigits → ¬ StartsDigit rest)
    (hdigits' : i'.EndsInDigits → ¬ StartsDigit rest')
    (h : i.units ++ rest = i'.units ++ rest') : i = i' ∧ rest = rest' := by
  cases i with
  | atom a q =>
    cases i' with
    | atom a' q' =>
      simp only [Item.units, List.cons_append, List.append_assoc, List.cons.injEq] at h
      obtain ⟨ha, hsuffix⟩ := Atom.units_inj hi.1 hi'.1 (not_startsDigit_suffix hdigits)
        (not_startsDigit_suffix hdigits') h.1 h.2
      obtain ⟨hq, hrest⟩ := suffixUnits_inj hi.2.2 hi'.2.2 hrest hrest' hsuffix
      exact ⟨by rw [ha, hq], hrest⟩
    | group o body q' =>
      exact absurd (List.cons.inj h).1 (Atom.first_ne hi.1).2.1
  | group o body q =>
    cases i' with
    | atom a' q' => exact absurd (List.cons.inj h).1.symm (Atom.first_ne hi'.1).2.1
    | group o' body' q' =>
      simp only [Item.units, List.cons_append, List.append_assoc, List.cons.injEq, true_and] at h
      obtain ⟨ho, hbody⟩ := Opening.units_inj hi.1 hi'.1
        (startsWith_question (body.not_startsQuantifier hi.2.1 rfl))
        (startsWith_question (body'.not_startsQuantifier hi'.2.1 rfl)) h
      obtain ⟨hbody, hclose⟩ := body.units_inj body' hi.2.1 hi'.2.1 (endsAlternation_close _)
        (endsAlternation_close _) hbody
      obtain ⟨hq, hrest⟩ := suffixUnits_inj hi.2.2 hi'.2.2 hrest hrest' (List.cons.inj hclose).2
      exact ⟨by rw [ho, hbody, hq], hrest⟩

theorem itemUnits_inj (is is' : List Item) (his : ValidItems is) (his' : ValidItems is')
    {rest rest' : List CodeUnit} (hrest : EndsSequence rest) (hrest' : EndsSequence rest')
    (h : itemUnits is ++ rest = itemUnits is' ++ rest') : is = is' ∧ rest = rest' := by
  cases is with
  | nil =>
    cases is' with
    | nil => exact ⟨rfl, h⟩
    | cons i' is' =>
      rw [itemUnits, itemUnits, List.nil_append, List.append_assoc] at h
      exact absurd (h ▸ hrest) (not_endsSequence_item his'.1 _)
  | cons i is =>
    cases is' with
    | nil =>
      rw [itemUnits, itemUnits, List.nil_append, List.append_assoc] at h
      exact absurd (h ▸ hrest') (not_endsSequence_item his.1 _)
    | cons i' is' =>
      rw [itemUnits, itemUnits, List.append_assoc, List.append_assoc] at h
      obtain ⟨hi, hothers⟩ := i.units_inj i' his.1 his'.1
        (not_startsQuantifier_items his.2.2 hrest.not_startsQuantifier)
        (not_startsQuantifier_items his'.2.2 hrest'.not_startsQuantifier)
        (fun hend => startsDigit_append (his.2.1 hend) hrest.not_startsDigit)
        (fun hend => startsDigit_append (his'.2.1 hend) hrest'.not_startsDigit) h
      obtain ⟨his, hrest⟩ := itemUnits_inj is is' his.2.2 his'.2.2 hrest hrest' hothers
      exact ⟨by rw [hi, his], hrest⟩

theorem Alternation.units_inj (a a' : Alternation) (ha : a.Valid) (ha' : a'.Valid)
    {rest rest' : List CodeUnit} (hrest : EndsAlternation rest) (hrest' : EndsAlternation rest')
    (h : a.units ++ rest = a'.units ++ rest') : a = a' ∧ rest = rest' := by
  cases a with
  | last items =>
    cases a' with
    | last items' =>
      obtain ⟨hitems, hrest⟩ := itemUnits_inj items items' ha ha' hrest.endsSequence
        hrest'.endsSequence h
      exact ⟨by rw [hitems], hrest⟩
    | more items' more' =>
      rw [Alternation.units, Alternation.units, List.append_assoc] at h
      obtain ⟨-, hbar⟩ := itemUnits_inj items items' ha ha'.1 hrest.endsSequence
        (endsSequence_bar _) h
      rw [hbar] at hrest
      exact absurd (hrest _ rfl) (by simp)
  | more items more =>
    cases a' with
    | last items' =>
      rw [Alternation.units, Alternation.units, List.append_assoc] at h
      obtain ⟨-, hbar⟩ := itemUnits_inj items items' ha.1 ha' (endsSequence_bar _)
        hrest'.endsSequence h
      rw [← hbar] at hrest'
      exact absurd (hrest' _ rfl) (by simp)
    | more items' more' =>
      rw [Alternation.units, Alternation.units, List.append_assoc, List.append_assoc] at h
      obtain ⟨hitems, hmore⟩ := itemUnits_inj items items' ha.1 ha'.1 (endsSequence_bar _)
        (endsSequence_bar _) h
      obtain ⟨hmore, hrest⟩ := more.units_inj more' ha.2 ha'.2 hrest hrest' (List.cons.inj hmore).2
      exact ⟨by rw [hitems, hmore], hrest⟩

end

/-- A text has at most one derivation. -/
theorem Alternation.Reads.unique {a a' : Alternation} {source : Text} (h : a.Reads source)
    (h' : a'.Reads source) : a = a' := by
  have hend : EndsAlternation [] := by simp [EndsAlternation]
  have hunits : a.units ++ [] = a'.units ++ [] := by rw [h.units, h'.units]
  exact (a.units_inj a' h.valid h'.valid hend hend hunits).1

end LineRegex.Grammar
