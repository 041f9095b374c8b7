/-
LineRegex.Proofs.Grammar.Atoms — the readers of bracket expressions and atoms.

As for the smaller forms, a valid form is read as what it means, and what is
read is a valid form. The hyphen takes most of the work: whether it joins two
members is decided by the unit behind it, which belongs to the next member or
closes the brackets.

  §1 Units inside brackets
  §2 Members                — `rangeEnd?` finds no range exactly where the
                              grammar allows none.
  §3 Bracket expressions
  §4 Escapes outside brackets
  §5 Atoms
-/
import LineRegex.Proofs.Grammar.Lexemes

namespace LineRegex.Grammar

/-! ## §1 Units inside brackets -/

theorem BracketUnit.first_ne_close {a : BracketUnit} (ha : a.Valid) : a.first ≠ unit ']' := by
  cases a with
  | plain u => exact ha.2
  | escaped e => simp [first]

theorem lexClassAtom_append (position : Nat) {a : BracketUnit} (ha : a.Valid)
    (rest : List CodeUnit) :
    lexClassAtom position a.first (a.tail ++ rest) = .ok (a.meaning, a.tail.length) := by
  cases a with
  | plain u =>
    have hu : u ≠ unit '\\' := ha.1
    simp [lexClassAtom, BracketUnit.first, hu, BracketUnit.meaning, BracketUnit.tail]
  | escaped e =>
    have he := lexClassEscape_append position (e := e) ha rest
    simp [lexClassAtom, BracketUnit.first, BracketUnit.tail, he, BracketUnit.meaning]

theorem exists_unit_of_lexClassAtom {position : Nat} {u : CodeUnit} {units : List CodeUnit}
    {m : ClassEscape} {k : Nat} (hu : u ≠ unit ']')
    (h : lexClassAtom position u units = .ok (m, k)) :
    ∃ (a : BracketUnit) (rest : List CodeUnit), a.Valid ∧ a.first = u ∧
      units = a.tail ++ rest ∧ m = a.meaning ∧ k = a.tail.length := by
  unfold lexClassAtom at h
  split at h
  · rename_i hback
    obtain ⟨e, rest, he, rfl, rfl, rfl⟩ := exists_form_of_lexClassEscape h
    exact ⟨.escaped e, rest, he, hback.symm, rfl, rfl, rfl⟩
  · rename_i hback
    simp only [Except.ok.injEq, Prod.mk.injEq] at h
    exact ⟨.plain u, units, ⟨hback, hu⟩, rfl, rfl, h.1.symm, h.2.symm⟩

/-! ## §2 Members -/

theorem rangeEnd?_cons {u : CodeUnit} (rest : List CodeUnit) (hu : u ≠ unit '-') :
    rangeEnd? (u :: rest) = none := by
  cases rest with
  | nil => rfl
  | cons v rest => simp [rangeEnd?, hu]

theorem rangeEnd?_hyphen {u : CodeUnit} (rest : List CodeUnit) (hu : u ≠ unit ']') :
    rangeEnd? (unit '-' :: u :: rest) = some (u, rest) := by
  simp [rangeEnd?, hu]

theorem eq_hyphen_of_rangeEnd? {units rest : List CodeUnit} {u : CodeUnit}
    (h : rangeEnd? units = some (u, rest)) :
    units = unit '-' :: u :: rest ∧ u ≠ unit ']' := by
  unfold rangeEnd? at h
  split at h
  · split at h
    · rename_i hc
      simp only [Option.some.injEq, Prod.mk.injEq] at h
      obtain ⟨rfl, rfl⟩ := h
      simp only [Bool.and_eq_true, decide_eq_true_eq, bne_iff_ne, ne_eq] at hc
      exact ⟨by rw [hc.1], hc.2⟩
    · cases h
  · cases h

theorem ValidMembers.head {m : BracketMember} {ms : List BracketMember}
    (h : ValidMembers (m :: ms)) : m.Valid := by
  cases m with
  | one a => exact h.1
  | range lo hi => exact h.1

theorem ValidMembers.tail {m : BracketMember} {ms : List BracketMember}
    (h : ValidMembers (m :: ms)) : ValidMembers ms := by
  cases m with
  | one a => exact h.2.2
  | range lo hi => exact h.2

theorem BracketMember.first_ne_close {m : BracketMember} (hm : m.Valid) :
    m.first ≠ unit ']' := by
  cases m with
  | one a => exact BracketUnit.first_ne_close hm
  | range lo hi => exact BracketUnit.first_ne_close hm.1

/-- Behind a hyphen that begins valid members, and is not all of them, stands
what would make a range of it. -/
theorem exists_ne_close_of_hyphen {ms : List BracketMember} (hms : ValidMembers ms)
    (hhead : (memberUnits ms).head? = some (unit '-'))
    (hne : ms ≠ [.one (.plain (unit '-'))]) :
    ∃ u rest, memberUnits ms = unit '-' :: u :: rest ∧ u ≠ unit ']' := by
  cases ms with
  | nil => simp [memberUnits] at hhead
  | cons m ms =>
    cases m with
    | one a =>
      cases a with
      | escaped e => simp [memberUnits, BracketMember.first, BracketUnit.first] at hhead
      | plain u =>
        obtain rfl : u = unit '-' := by
          simpa [memberUnits, BracketMember.first, BracketUnit.first] using hhead
        cases ms with
        | nil => exact absurd rfl hne
        | cons m ms =>
          exact ⟨m.first, m.tail ++ memberUnits ms, rfl,
            BracketMember.first_ne_close hms.tail.head⟩
    | range lo hi =>
      obtain ⟨⟨hlo, hhi, -⟩, -⟩ := hms
      cases lo with
      | escaped e => simp [memberUnits, BracketMember.first, BracketUnit.first] at hhead
      | plain u =>
        obtain rfl : u = unit '-' := by
          simpa [memberUnits, BracketMember.first, BracketUnit.first] using hhead
        exact ⟨unit '-', hi.first :: hi.tail ++ memberUnits ms, rfl, by simp⟩

/-- In front of valid members the reader finds no range exactly if a hyphen
there is the last member. -/
theorem rangeEnd?_eq_none_iff {ms : List BracketMember} (hms : ValidMembers ms)
    (rest : List CodeUnit) :
    rangeEnd? (memberUnits ms ++ unit ']' :: rest) = none ↔ HyphenLast ms := by
  constructor
  · intro hnone hhead
    by_contra hne
    obtain ⟨u, rest', heq, hu⟩ := exists_ne_close_of_hyphen hms hhead hne
    rw [heq, List.cons_append, List.cons_append, rangeEnd?_hyphen _ hu] at hnone
    cases hnone
  · intro hlast
    cases ms with
    | nil => exact rangeEnd?_cons rest (by simp)
    | cons m ms =>
      by_cases hm : m.first = unit '-'
      · rw [hlast (by simp [memberUnits, hm])]
        rfl
      · exact rangeEnd?_cons _ hm

theorem lexMember_append (position : Nat) {m : BracketMember} {ms : List BracketMember}
    (hms : ValidMembers (m :: ms)) (rest : List CodeUnit) :
    lexMember position m.first (m.tail ++ (memberUnits ms ++ unit ']' :: rest)) =
      .ok (m.member, m.tail.length) := by
  cases m with
  | one a =>
    obtain ⟨ha, hlast, hms⟩ := hms
    have hread := lexClassAtom_append position ha (memberUnits ms ++ unit ']' :: rest)
    have hnone := (rangeEnd?_eq_none_iff hms rest).mpr hlast
    simp only [lexMember, BracketMember.first, BracketMember.tail, BracketMember.member, hread,
      bind, Except.bind, List.drop_left, hnone]
    cases a.meaning <;> rfl
  | range lo hi =>
    obtain ⟨⟨hlo, hhi, hslo, hshi, hle⟩, -⟩ := hms
    generalize memberUnits ms ++ unit ']' :: rest = rest
    have hlow := lexClassAtom_append position hlo (unit '-' :: hi.first :: (hi.tail ++ rest))
    have hhigh := lexClassAtom_append (position + 1 + lo.tail.length + 1) hhi rest
    have hjoin := rangeEnd?_hyphen (hi.tail ++ rest) (BracketUnit.first_ne_close hhi)
    have hlt : ¬ hi.value < lo.value := Nat.not_lt.mpr hle
    rw [hslo] at hlow
    rw [hshi] at hhigh
    simp only [lexMember, BracketMember.first, BracketMember.tail, BracketMember.member,
      List.append_assoc, List.cons_append, hlow, bind, Except.bind, List.drop_left, hjoin, hhigh,
      if_neg hlt, pure, Except.pure, Except.ok.injEq, Prod.mk.injEq, true_and, List.length_append,
      List.length_cons]
    omega

theorem BracketUnit.isSingle_of_meaning {a : BracketUnit} {u : CodeUnit}
    (h : a.meaning = .single u) : a.IsSingle ∧ a.value = u := by
  simp [IsSingle, value, h]

theorem exists_member_of_lexMember {position : Nat} {u : CodeUnit} {units : List CodeUnit}
    {mem : Member} {k : Nat} (hu : u ≠ unit ']')
    (h : lexMember position u units = .ok (mem, k)) :
    ∃ (m : BracketMember) (rest : List CodeUnit), m.Valid ∧ m.first = u ∧
      units = m.tail ++ rest ∧ mem = m.member ∧ k = m.tail.length ∧
      ∀ a, m = .one a → rangeEnd? rest = none := by
  unfold lexMember at h
  obtain ⟨⟨meaning, n⟩, ha, hmem⟩ := bind_eq_ok_iff.mp h
  obtain ⟨a, rest, hvalid, hfirst, rfl, rfl, rfl⟩ := exists_unit_of_lexClassAtom hu ha
  simp only [List.drop_left] at hmem
  split at hmem
  · rename_i s hm hnone
    simp only [pure, Except.pure, Except.ok.injEq, Prod.mk.injEq] at hmem
    exact ⟨.one a, rest, hvalid, hfirst, rfl, by simp [BracketMember.member, hm, hmem.1.symm],
      hmem.2.symm, fun _ _ => hnone⟩
  · simp [refuse] at hmem
  · rename_i lo hm hnone
    simp only [pure, Except.pure, Except.ok.injEq, Prod.mk.injEq] at hmem
    exact ⟨.one a, rest, hvalid, hfirst, rfl, by simp [BracketMember.member, hm, hmem.1.symm],
      hmem.2.symm, fun _ _ => hnone⟩
  · rename_i lo v rest' hm hrange
    obtain ⟨rfl, hv⟩ := eq_hyphen_of_rangeEnd? hrange
    obtain ⟨⟨meaning', n'⟩, hb, hend⟩ := bind_eq_ok_iff.mp hmem
    obtain ⟨b, rest'', hvalid', rfl, rfl, rfl, rfl⟩ := exists_unit_of_lexClassAtom hv hb
    simp only at hend
    split at hend
    · simp [refuse] at hend
    · rename_i hi hm'
      obtain ⟨hslo, rfl⟩ := BracketUnit.isSingle_of_meaning hm
      obtain ⟨hshi, rfl⟩ := BracketUnit.isSingle_of_meaning hm'
      split at hend
      · simp [refuse] at hend
      · rename_i hlt
        simp only [pure, Except.pure, Except.ok.injEq, Prod.mk.injEq] at hend
        refine ⟨.range a b, rest'', ⟨hvalid, hvalid', hslo, hshi, Nat.not_lt.mp hlt⟩, hfirst,
          by simp [BracketMember.tail], hend.1.symm, ?_, by simp⟩
        rw [← hend.2]
        simp [BracketMember.tail]
        omega

/-! ## §3 Bracket expressions -/

theorem lexMembers_append (opening position : Nat) : ∀ {ms : List BracketMember},
    ValidMembers ms → ∀ (rest : List CodeUnit),
      lexMembers opening position (memberUnits ms ++ unit ']' :: rest) =
        .ok (ms.map (·.member), (memberUnits ms).length + 1)
  | [], _, rest => by simp [memberUnits, lexMembers]
  | m :: ms, hms, rest => by
    have hread := lexMember_append position hms rest
    have hrest := lexMembers_append opening (position + 1 + m.tail.length) hms.tail rest
    rw [memberUnits, List.cons_append, List.cons_append, List.append_assoc, lexMembers,
      if_neg (BracketMember.first_ne_close hms.head)]
    simp only [hread, List.drop_left, hrest, List.map_cons, List.length_cons, List.length_append,
      Except.ok.injEq, Prod.mk.injEq, true_and]
    omega

theorem exists_members_of_lexMembers {opening position : Nat} {units : List CodeUnit}
    {members : List Member} {k : Nat} (h : lexMembers opening position units = .ok (members, k)) :
    ∃ (ms : List BracketMember) (rest : List CodeUnit), ValidMembers ms ∧
      units = memberUnits ms ++ unit ']' :: rest ∧ members = ms.map (·.member) ∧
      k = (memberUnits ms).length + 1 := by
  fun_induction lexMembers opening position units generalizing members k with
  | case1 => simp [refuse] at h
  | case2 position rest =>
    simp only [Except.ok.injEq, Prod.mk.injEq] at h
    exact ⟨[], rest, trivial, rfl, h.1.symm, h.2.symm⟩
  | case3 => simp at h
  | case4 => simp at h
  | case5 position u rest hu mem n hmem ms' n' hms' ih =>
    simp only [Except.ok.injEq, Prod.mk.injEq] at h
    obtain ⟨m, rest, hvalid, rfl, rfl, rfl, rfl, hnone⟩ := exists_member_of_lexMember hu hmem
    rw [List.drop_left] at ih hms'
    obtain ⟨ms, rest, hms, rfl, rfl, rfl⟩ := ih hms'
    refine ⟨m :: ms, rest, ?_, by simp [memberUnits], h.1.symm, ?_⟩
    · cases m with
      | one a => exact ⟨hvalid, (rangeEnd?_eq_none_iff hms rest).mp (hnone a rfl), hms⟩
      | range lo hi => exact ⟨hvalid, hms⟩
    · rw [← h.2]
      simp [memberUnits]
      omega

theorem lexBracket_append (w : Width) (position : Nat) {negated : Bool}
    {ms : List BracketMember} (hvalid : (Atom.bracket negated ms).Valid) (rest : List CodeUnit) :
    lexBracket w position ((Atom.bracket negated ms).tail ++ rest) =
      .ok (.ofMembers w negated (ms.map (·.member)), (Atom.bracket negated ms).tail.length) := by
  obtain ⟨hne, hms, hcaret⟩ := hvalid
  have hmembers : ms.map (·.member) ≠ [] := by simpa using hne
  cases negated with
  | true =>
    have hread := lexMembers_append position (position + 1 + 1) hms rest
    have hstart : startsWith '^' (unit '^' :: (memberUnits ms ++ unit ']' :: rest)) = true := rfl
    simp only [lexBracket, Atom.tail, if_true, List.cons_append, List.nil_append,
      List.append_assoc, hstart, List.drop_one, List.tail_cons, hread]
    cases hm : ms.map (·.member) with
    | nil => exact absurd hm hmembers
    | cons m' ms' => simp; omega
  | false =>
    have hread := lexMembers_append position (position + 1) hms rest
    have hstart : startsWith '^' (memberUnits ms ++ unit ']' :: rest) = false := by
      have hhead := hcaret rfl
      cases ms with
      | nil => exact absurd rfl hne
      | cons m ms => simpa [startsWith, memberUnits] using hhead
    simp only [lexBracket, Atom.tail, Bool.false_eq_true, if_false, List.nil_append,
      List.append_assoc, List.cons_append, hstart, List.drop_zero, Nat.add_zero, hread]
    cases hm : ms.map (·.member) with
    | nil => exact absurd hm hmembers
    | cons m' ms' => simp

theorem exists_bracket_of_lexBracket {w : Width} {position : Nat} {units : List CodeUnit}
    {c : CharClass} {k : Nat} (h : lexBracket w position units = .ok (c, k)) :
    ∃ (negated : Bool) (ms : List BracketMember) (rest : List CodeUnit),
      (Atom.bracket negated ms).Valid ∧ units = (Atom.bracket negated ms).tail ++ rest ∧
      k = (Atom.bracket negated ms).tail.length := by
  unfold lexBracket at h
  dsimp only at h
  split at h
  · simp at h
  · simp [refuse] at h
  · rename_i members n hne hread
    simp only [Except.ok.injEq, Prod.mk.injEq] at h
    obtain ⟨ms, rest, hms, hunits, rfl, rfl⟩ := exists_members_of_lexMembers hread
    have hne' : ms ≠ [] := by
      rintro rfl
      exact hne rfl
    cases hcaret : startsWith '^' units with
    | true =>
      obtain ⟨units, rfl⟩ := eq_cons_of_startsWith hcaret
      simp only [hcaret, if_true, List.drop_one, List.tail_cons] at hunits h
      subst hunits
      refine ⟨true, ms, rest, ⟨hne', hms, by simp⟩, by simp [Atom.tail], ?_⟩
      rw [← h.2]
      simp [Atom.tail]
      omega
    | false =>
      simp only [hcaret, Bool.false_eq_true, if_false, List.drop_zero, Nat.zero_add] at hunits h
      subst hunits
      refine ⟨false, ms, rest, ⟨hne', hms, fun _ hhead => ?_⟩, by simp [Atom.tail], ?_⟩
      · cases ms with
        | nil => exact hne' rfl
        | cons m ms =>
          rw [memberUnits, List.cons_append, List.head?_cons] at hhead
          simp [startsWith, memberUnits, Option.some.inj hhead] at hcaret
      · rw [← h.2]
        simp [Atom.tail]

/-! ## §4 Escapes outside brackets -/

/-- A backreference as the reader keeps it: numbers past `maxRepeatCount` are
not told apart. -/
def readReference (position : Nat) : Target → Reference
  | .number n => ⟨position, .number (min n (maxRepeatCount + 1))⟩
  | .name name => ⟨position, .name name⟩

theorem eq_cons_of_numeral {ds : List CodeUnit} (hds : IsNumeral ds)
    (hzero : ds.head? ≠ some (unit '0')) :
    ∃ d ds', ds = d :: ds' ∧ d.isDigit = true ∧ d ≠ unit '0' := by
  obtain ⟨hne, hdigits⟩ := hds
  cases ds with
  | nil => exact absurd rfl hne
  | cons d ds => exact ⟨d, ds, rfl, hdigits d (by simp), by simpa using hzero⟩

theorem ne_unit_of_isDigit {u : CodeUnit} (h : u.isDigit = true) {c : Char}
    (hc : (unit c).isDigit = false) : u ≠ unit c := by
  rintro rfl
  simp [hc] at h

theorem lexEscape_reference (position : Nat) {ds rest : List CodeUnit} (hds : IsNumeral ds)
    (hzero : ds.head? ≠ some (unit '0')) (hrest : ¬ StartsDigit rest) :
    lexEscape position (ds ++ rest) =
      .ok (.reference (readReference position (.number (decimalValue ds))), ds.length) := by
  have hrun : leadingDigits (ds ++ rest) = ds :=
    takeWhile_append_of_stop hds.2 (not_startsDigit_iff.mp hrest)
  obtain ⟨d, ds, rfl, hd, hd0⟩ := eq_cons_of_numeral hds hzero
  rw [List.cons_append] at hrun ⊢
  have hb := ne_unit_of_isDigit hd (c := 'b') rfl
  have hk := ne_unit_of_isDigit hd (c := 'k') rfl
  have hdigit : (d.isDigit && d != unit '0') = true := by simp [hd, hd0]
  simp only [lexEscape, if_neg hb, if_neg hk, if_pos hdigit, hrun]
  rfl

theorem lexEscape_namedReference (position : Nat) {name : List CodeUnit} (hname : IsName name)
    (rest : List CodeUnit) :
    lexEscape position (unit 'k' :: unit '<' :: name ++ unit '>' :: rest) =
      .ok (.reference (readReference position (.name name.toArray)), name.length + 3) := by
  have hread := lexGroupName_append (position + 3) hname rest
  simp [lexEscape, lexNamedTarget, startsWith, hread, bind, Except.bind, pure, Except.pure,
    readReference]
  omega

theorem lexEscape_form (position : Nat) {e : EscapeForm} (he : e.Valid) (hne : e ≠ .backspace)
    (rest : List CodeUnit) :
    lexEscape position (e.units ++ rest) = .ok (.ofClass e.meaning, e.units.length) := by
  have hread := lexClassEscape_append position he rest
  obtain ⟨u, us, hunits, hb, hk, hdigit⟩ : ∃ u us, e.units = u :: us ∧ u ≠ unit 'b' ∧
      u ≠ unit 'k' ∧ (u.isDigit && u != unit '0') = false := by
    cases e with
    | control c => exact ⟨c.letter, [], rfl, by cases c <;> simp [Control.letter],
        by cases c <;> simp [Control.letter], by cases c <;> rfl⟩
    | letter u => exact ⟨unit 'c', [u], rfl, by simp, by simp, rfl⟩
    | hex high low => exact ⟨unit 'x', [high, low], rfl, by simp, by simp, rfl⟩
    | shorthand s => exact ⟨s.letter, [], rfl, by cases s <;> simp [Shorthand.letter],
        by cases s <;> simp [Shorthand.letter], by cases s <;> rfl⟩
    | identity u => exact ⟨u, [], rfl, ne_unit_of_isAlpha he.1 rfl, ne_unit_of_isAlpha he.1 rfl,
        by simp [he.2]⟩
    | backspace => exact absurd rfl hne
  rw [hunits, List.cons_append] at hread ⊢
  simp only [lexEscape, if_neg hb, if_neg hk, hdigit, Bool.false_eq_true, if_false, hread, bind,
    Except.bind, pure, Except.pure]

theorem exists_name_of_lexNamedTarget {position : Nat} {units : List CodeUnit} {t : Target}
    {k : Nat} (h : lexNamedTarget position units = .ok (t, k)) :
    ∃ name rest, IsName name ∧ units = unit '<' :: (name ++ unit '>' :: rest) ∧
      k = name.length + 2 := by
  unfold lexNamedTarget at h
  split at h
  · rename_i hless
    obtain ⟨units, rfl⟩ := eq_cons_of_startsWith hless
    obtain ⟨⟨name, n⟩, hname, h⟩ := bind_eq_ok_iff.mp h
    obtain ⟨rest, hvalid, hunits, rfl⟩ := exists_name_of_lexGroupName hname
    rw [List.drop_one, List.tail_cons] at hunits
    simp only [pure, Except.pure, Except.ok.injEq, Prod.mk.injEq] at h
    exact ⟨name.toList, rest, hvalid, by rw [hunits], by omega⟩
  · simp [refuse] at h

/-- What a backslash begins outside brackets. -/
theorem exists_atom_of_lexEscape {position : Nat} {units : List CodeUnit} {e : Escape} {k : Nat}
    (h : lexEscape position units = .ok (e, k)) :
    ∃ (a : Atom) (rest : List CodeUnit), a.Valid ∧ a.first = unit '\\' ∧
      units = a.tail ++ rest ∧ k = a.tail.length ∧ (a.IsReference → ¬ StartsDigit rest) := by
  unfold lexEscape at h
  split at h
  · simp [refuse] at h
  · rename_i u rest
    split_ifs at h with hb hk hdigit
    · simp [refuse] at h
    · obtain ⟨⟨target, n⟩, hn, h⟩ := bind_eq_ok_iff.mp h
      obtain ⟨name, rest, hname, rfl, rfl⟩ := exists_name_of_lexNamedTarget hn
      simp only [pure, Except.pure, Except.ok.injEq, Prod.mk.injEq] at h
      refine ⟨.namedReference name, rest, hname, rfl, by simp [Atom.tail, hk], ?_, False.elim⟩
      rw [← h.2]
      simp [Atom.tail]
      omega
    · obtain ⟨rest', hunits, hdigits, hstop⟩ := exists_run CodeUnit.isDigit (u :: rest)
      rw [Bool.and_eq_true, bne_iff_ne] at hdigit
      have hrun : (u :: rest).takeWhile CodeUnit.isDigit =
          u :: rest.takeWhile CodeUnit.isDigit := by
        rw [List.takeWhile_cons, if_pos hdigit.1]
      simp only [Except.ok.injEq, Prod.mk.injEq] at h
      refine ⟨.reference ((u :: rest).takeWhile CodeUnit.isDigit), rest', ⟨⟨?_, hdigits⟩, ?_⟩, rfl,
        hunits, h.2.symm, fun _ => not_startsDigit_iff.mpr hstop⟩
      · simp [hrun]
      · simpa [hrun] using hdigit.2
    · obtain ⟨⟨meaning, n⟩, he, h⟩ := bind_eq_ok_iff.mp h
      obtain ⟨f, rest', hf, hunits, rfl, rfl⟩ := exists_form_of_lexClassEscape he
      simp only [pure, Except.pure, Except.ok.injEq, Prod.mk.injEq] at h
      refine ⟨.escape f, rest', ⟨hf, ?_⟩, rfl, hunits, h.2.symm, False.elim⟩
      rintro rfl
      simp only [EscapeForm.units, List.cons_append, List.cons.injEq] at hunits
      exact hb hunits.1

/-! ## §5 Atoms -/

theorem Atom.expr_escape {ρ : Type} (w : Width) (ref : Nat → Target → ρ) (position : Nat)
    (e : EscapeForm) : (Atom.escape e).expr w ref position =
      match e.meaning with
      | .single u => .unit u
      | .shorthand s => .charClass ⟨s.ranges w, false⟩ := rfl

/-- An atom is read as its tree. -/
theorem lexAtom_append (w : Width) (position : Nat) {a : Atom} (ha : a.Valid)
    {rest : List CodeUnit} (hrest : a.IsReference → ¬ StartsDigit rest) :
    lexAtom w position a.first (a.tail ++ rest) =
      .ok (a.expr w readReference position, a.tail.length) := by
  cases a with
  | literal u =>
    have hu : u ∉ specialUnits := ha
    simp only [specialUnits, List.mem_cons, not_or] at hu
    simp [lexAtom, Atom.first, Atom.tail, Atom.expr, hu]
  | any => simp [lexAtom, Atom.first, Atom.tail, Atom.expr]
  | anchor a => cases a <;> simp [lexAtom, Atom.first, Atom.tail, Atom.expr]
  | escape e =>
    have hread := lexEscape_form position ha.1 ha.2 rest
    simp only [lexAtom, Atom.first, Atom.tail, Atom.expr]
    simp [hread, bind, Except.bind, pure, Except.pure]
    cases e.meaning <;> rfl
  | reference digits =>
    have hread := lexEscape_reference position ha.1 ha.2 (hrest trivial)
    simp [lexAtom, Atom.first, Atom.tail, Atom.expr, hread, bind, Except.bind, pure, Except.pure,
      Escape.toExpr]
  | namedReference name =>
    have hread := lexEscape_namedReference position ha rest
    simp at hread
    simp [lexAtom, Atom.first, Atom.tail, Atom.expr, hread, bind, Except.bind, pure, Except.pure,
      Escape.toExpr]
  | bracket negated ms =>
    have hread := lexBracket_append w position ha rest
    simp [lexAtom, Atom.first, Atom.expr, hread, bind, Except.bind, pure, Except.pure]

theorem exists_atom_of_lexAtom {w : Width} {position : Nat} {u : CodeUnit}
    {units : List CodeUnit} {e : Expr Reference} {k : Nat} (hbar : u ≠ unit '|')
    (hopen : u ≠ unit '(') (hclose : u ≠ unit ')') (hstart : u.isQuantifierStart = false)
    (h : lexAtom w position u units = .ok (e, k)) :
    ∃ (a : Atom) (rest : List CodeUnit), a.Valid ∧ a.first = u ∧ units = a.tail ++ rest ∧
      k = a.tail.length ∧ (a.IsReference → ¬ StartsDigit rest) := by
  unfold lexAtom at h
  split_ifs at h with hbracket hback hany hcaret hdollar
  · obtain ⟨⟨c, n⟩, hb, hc⟩ := bind_eq_ok_iff.mp h
    obtain ⟨negated, ms, rest, hvalid, rfl, hn⟩ := exists_bracket_of_lexBracket hb
    simp only [pure, Except.pure, Except.ok.injEq, Prod.mk.injEq] at hc
    exact ⟨.bracket negated ms, rest, hvalid, hbracket.symm, rfl, hc.2.symm.trans hn, False.elim⟩
  · obtain ⟨⟨escape, n⟩, he, hexpr⟩ := bind_eq_ok_iff.mp h
    obtain ⟨a, rest, hvalid, hfirst, rfl, hn, hrest⟩ := exists_atom_of_lexEscape he
    simp only [pure, Except.pure, Except.ok.injEq, Prod.mk.injEq] at hexpr
    exact ⟨a, rest, hvalid, hfirst.trans hback.symm, rfl, hexpr.2.symm.trans hn, hrest⟩
  · simp only [Except.ok.injEq, Prod.mk.injEq] at h
    exact ⟨.any, units, trivial, hany.symm, rfl, h.2.symm, False.elim⟩
  · simp only [Except.ok.injEq, Prod.mk.injEq] at h
    exact ⟨.anchor .lineStart, units, trivial, hcaret.symm, rfl, h.2.symm, False.elim⟩
  · simp only [Except.ok.injEq, Prod.mk.injEq] at h
    exact ⟨.anchor .lineEnd, units, trivial, hdollar.symm, rfl, h.2.symm, False.elim⟩
  · simp only [Except.ok.injEq, Prod.mk.injEq] at h
    refine ⟨.literal u, units, ?_, rfl, rfl, h.2.symm, False.elim⟩
    simp only [CodeUnit.isQuantifierStart, Bool.or_eq_false_iff, beq_eq_false_iff_ne] at hstart
    simp [Atom.Valid, specialUnits, hbar, hopen, hclose, hstart, hbracket, hback, hany, hcaret,
      hdollar]

/-- What is read as an atom is its tree. -/
theorem exists_expr_of_lexAtom {w : Width} {position : Nat} {u : CodeUnit}
    {units : List CodeUnit} {e : Expr Reference} {k : Nat} (hbar : u ≠ unit '|')
    (hopen : u ≠ unit '(') (hclose : u ≠ unit ')') (hstart : u.isQuantifierStart = false)
    (h : lexAtom w position u units = .ok (e, k)) :
    ∃ (a : Atom) (rest : List CodeUnit), a.Valid ∧ a.first = u ∧ units = a.tail ++ rest ∧
      e = a.expr w readReference position ∧ k = a.tail.length ∧
      (a.IsReference → ¬ StartsDigit rest) := by
  obtain ⟨a, rest, ha, rfl, rfl, rfl, hfollow⟩ :=
    exists_atom_of_lexAtom hbar hopen hclose hstart h
  rw [lexAtom_append w position ha hfollow, Except.ok.injEq, Prod.mk.injEq] at h
  exact ⟨a, rest, ha, rfl, rfl, h.1.symm, rfl, hfollow⟩

/-- No atom begins like a bar, a parenthesis or a quantifier. -/
theorem Atom.first_ne {a : Atom} (ha : a.Valid) :
    a.first ≠ unit '|' ∧ a.first ≠ unit '(' ∧ a.first ≠ unit ')' ∧
      a.first.isQuantifierStart = false := by
  cases a with
  | literal u =>
    have hu : u ∉ specialUnits := ha
    simp only [specialUnits, List.mem_cons, not_or] at hu
    simp [Atom.first, CodeUnit.isQuantifierStart, hu]
  | anchor a => cases a <;> simp [Atom.first, CodeUnit.isQuantifierStart]
  | _ => simp [Atom.first, CodeUnit.isQuantifierStart]

theorem Atom.isAnchor_expr {ρ : Type} (w : Width) (ref : Nat → Target → ρ) (position : Nat)
    (a : Atom) : (a.expr w ref position).isAnchor = true ↔ a.IsAnchor := by
  cases a with
  | anchor a => simp [Atom.expr, Expr.isAnchor, Atom.IsAnchor]
  | escape e =>
    rw [Atom.expr_escape]
    cases e.meaning <;> simp [Expr.isAnchor, Atom.IsAnchor]
  | _ => simp [Atom.expr, Expr.isAnchor, Atom.IsAnchor]

end LineRegex.Grammar
