/-
LineRegex.Proofs.Grammar.Prefixes — an error that is seen stays, whatever follows.

A reader looks at the units it takes and at the next one or two behind them. So
with more units at the end it comes to the same, if it left some of its units
over, or if it found a fault that is more than the lack of further units. What
ends too early is no such fault: an escape, a name, braces or brackets may be bad
only because they are not complete yet.

  §1 Decided results
  §2 Names and openings
  §3 Quantifiers
  §4 Escapes
  §5 Bracket expressions  — a hyphen at the end may still begin a range.
  §6 Reading
-/
import LineRegex.Proofs.Grammar.Refusals

namespace LineRegex

/-! ## §1 Decided results -/

/-- A fault of the units up to a point: no unit behind can mend it. -/
def SyntaxFault.IsFinal : SyntaxFault → Prop
  | emptyOperand | multipleRepeat | missingParen | nestingTooDeep | unsupportedFeature => True
  | badEscape | badBracketExpression | badBraceExpression | badBackreference | badGroupName => False

namespace Grammar

/-- What a reader made of the units shows that it need not see more of them: it
left some over, or found a final fault. -/
def Decided {α : Type} (units : List CodeUnit) : Checked (α × Nat) → Prop
  | .ok (_, n) => n < units.length
  | .error e => e.fault.IsFinal

/-- A result that is passed on, with the units in front counted, was decided itself. -/
theorem Decided.inner {α β : Type} {units : List CodeUnit} (front : List CodeUnit)
    {x : Checked (α × Nat)} {g : α × Nat → β × Nat}
    (hg : ∀ a n, (g (a, n)).2 = front.length + n)
    (h : Decided (front ++ units) (x >>= fun a => pure (g a))) : Decided units x := by
  cases x with
  | error e => exact h
  | ok found =>
    obtain ⟨a, n⟩ := found
    have hlt : (g (a, n)).2 < (front ++ units).length := h
    rw [hg, List.length_append] at hlt
    exact Nat.lt_of_add_lt_add_left hlt

/-! ## §2 Names and openings -/

theorem startsWith_cons (c : Char) (u : CodeUnit) (rest : List CodeUnit) :
    startsWith c (u :: rest) = (u == unit c) := by
  simp [startsWith]

section Names

variable {opening position : Nat} {units : List CodeUnit} (more : List CodeUnit)

theorem lexGroupName_more (h : Decided units (lexGroupName position units)) :
    lexGroupName position (units ++ more) = lexGroupName position units := by
  cases hname : lexGroupName position units with
  | error e =>
    rw [hname] at h
    unfold lexGroupName at hname
    dsimp only at hname
    split_ifs at hname <;> (obtain rfl := refuse_eq_error_iff.mp hname; exact h.elim)
  | ok found =>
    obtain ⟨name, n⟩ := found
    obtain ⟨rest, hvalid, rfl, rfl⟩ := exists_name_of_lexGroupName hname
    rw [List.append_assoc, List.cons_append, lexGroupName_append position hvalid]

theorem lexNamedOpener_more (h : Decided units (lexNamedOpener opening position units)) :
    lexNamedOpener opening position (units ++ more) = lexNamedOpener opening position units := by
  cases units with
  | nil => exact h.elim
  | cons u rest =>
    have hstart : ∀ c, startsWith c (u :: rest ++ more) = startsWith c (u :: rest) := fun c => rfl
    unfold lexNamedOpener at h ⊢
    rw [hstart, hstart]
    split_ifs at h ⊢
    · rfl
    · rw [lexGroupName_more more (h.inner [] fun a n => (Nat.zero_add n).symm)]

/-- Only where a group begins with `(?` and no more, what follows decides. -/
theorem lexGroupOpener_more (h : Decided units (lexGroupOpener opening units))
    (hne : lexGroupOpener opening units ≠ refuse .missingParen opening) :
    lexGroupOpener opening (units ++ more) = lexGroupOpener opening units := by
  match units, h, hne with
  | [], h, _ => exact absurd h (Nat.lt_irrefl 0)
  | [v], h, hne =>
    by_cases hquestion : v = unit '?'
    · subst hquestion
      exact absurd rfl hne
    · simp [lexGroupOpener, startsWith, hquestion]
  | v :: u :: rest, h, _ =>
    simp only [lexGroupOpener, List.cons_append, startsWith_cons, List.drop_one,
      List.tail_cons] at h ⊢
    split_ifs at h ⊢ with hnumbered hcolon hshort hlong hless hless'
    · rfl
    · rfl
    · rw [lexNamedOpener_more more (h.inner [v, u] fun o n => rfl)]
    · obtain ⟨rest, rfl⟩ := eq_cons_of_startsWith hless'
      rw [List.cons_append, List.tail_cons, List.tail_cons] at *
      rw [lexNamedOpener_more more (h.inner [v, u, unit '<'] fun o n => rfl)]
    · exact h.elim
    · obtain ⟨rest, rfl⟩ := eq_cons_of_startsWith (by assumption)
      exact absurd rfl hless
    · exact h.elim
    · rfl

end Names

/-! ## §3 Quantifiers -/

section Quantifiers

variable {position : Nat} {u : CodeUnit} {units : List CodeUnit} (more : List CodeUnit)

theorem not_isFinal_of_lexBounds {e : SyntaxError} (h : lexBounds position u units = .error e) :
    ¬ e.fault.IsFinal := by
  unfold lexBounds at h
  split_ifs at h
  split at h
  · obtain rfl := refuse_eq_error_iff.mp h
    exact id
  · cases h

theorem lexSuffix_more {ρ : Type} {atom : Expr ρ}
    (h : Decided units (lexSuffix position atom units)) :
    lexSuffix position atom (units ++ more) = lexSuffix position atom units := by
  cases units with
  | nil => exact absurd h (Nat.lt_irrefl 0)
  | cons u rest =>
    simp only [lexSuffix, List.cons_append] at h ⊢
    split_ifs at h ⊢ with hstart hanchor
    · rfl
    · rfl
    · cases hbounds : lexBounds position u rest with
      | error e =>
        rw [hbounds] at h
        exact absurd h (not_isFinal_of_lexBounds hbounds)
      | ok found =>
        obtain ⟨b, n⟩ := found
        obtain ⟨q, rest, hq, rfl, rfl, rfl, rfl⟩ :=
          exists_quantifier_of_lexBounds (by simpa using hstart) hbounds
        rw [hbounds] at h
        rw [List.append_assoc, lexBounds_append position hq]
        simp only [bind, Except.bind, List.drop_left] at h ⊢
        cases rest with
        | nil =>
          have hlt : 1 + q.tail.length < (q.first :: (q.tail ++ [])).length := h
          simp only [List.append_nil, List.length_cons] at hlt
          omega
        | cons v rest => rfl

end Quantifiers

/-! ## §4 Escapes -/

section Escapes

variable {position : Nat} {units : List CodeUnit} (more : List CodeUnit)

theorem lexClassEscape_more (h : Decided units (lexClassEscape position units)) :
    lexClassEscape position (units ++ more) = lexClassEscape position units := by
  cases units with
  | nil => exact h.elim
  | cons u rest =>
    simp only [lexClassEscape, List.cons_append] at h ⊢
    cases hletter : letterEscape? u with
    | some e => rfl
    | none =>
      simp only [hletter] at h ⊢
      split_ifs at h ⊢ with hc hx
      · cases hv : controlLetter? rest with
        | none => rw [hv] at h; exact h.elim
        | some v =>
          obtain ⟨u', rest, rfl, hu', rfl⟩ := controlLetter?_cases hv
          simp [controlLetter?, hu']
      · cases hv : hexPair? rest with
        | none => rw [hv] at h; exact h.elim
        | some v =>
          obtain ⟨a, b, rest, rfl, -⟩ := hexPair?_cases hv
          have hsame : hexPair? (a :: b :: rest ++ more) = hexPair? (a :: b :: rest) := rfl
          rw [hsame, hv]
      all_goals rfl

theorem lexNamedTarget_more (h : Decided units (lexNamedTarget position units)) :
    lexNamedTarget position (units ++ more) = lexNamedTarget position units := by
  cases units with
  | nil => exact h.elim
  | cons u rest =>
    simp only [lexNamedTarget, List.cons_append, startsWith_cons, List.drop_one,
      List.tail_cons] at h ⊢
    split_ifs at h ⊢
    · rw [lexGroupName_more more (h.inner [u] fun name n => rfl)]
    · rfl

/-- A run of digits that ends in front of the last unit is no longer with more of them. -/
theorem leadingDigits_more (h : (leadingDigits units).length < units.length) :
    leadingDigits (units ++ more) = leadingDigits units := by
  obtain ⟨rest, hunits, hdigits, hstop⟩ := exists_run CodeUnit.isDigit units
  unfold leadingDigits at *
  generalize units.takeWhile CodeUnit.isDigit = run at *
  subst hunits
  cases rest with
  | nil => simp at h
  | cons u rest =>
    rw [List.append_assoc]
    exact takeWhile_append_of_stop hdigits hstop

theorem lexEscape_more (h : Decided units (lexEscape position units)) :
    lexEscape position (units ++ more) = lexEscape position units := by
  cases units with
  | nil => exact h.elim
  | cons u rest =>
    simp only [lexEscape, List.cons_append] at h ⊢
    split_ifs at h ⊢
    · rfl
    · rw [lexNamedTarget_more more (h.inner [u] fun target n => rfl)]
    · rw [← List.cons_append, leadingDigits_more more h]
    · rw [← List.cons_append, lexClassEscape_more more
        (h.inner [] fun e n => (Nat.zero_add n).symm)]

end Escapes

/-! ## §5 Bracket expressions -/

section Brackets

variable {position : Nat} {u : CodeUnit} {units : List CodeUnit} (more : List CodeUnit)

theorem lexClassAtom_more (h : Decided units (lexClassAtom position u units)) :
    lexClassAtom position u (units ++ more) = lexClassAtom position u units := by
  unfold lexClassAtom at h ⊢
  split_ifs at h ⊢
  · exact lexClassEscape_more more h
  · rfl

/-- Whether a range follows is decided by two units, or by one that is no hyphen. -/
theorem rangeEnd?_more (hne : units ≠ []) (hhyphen : units ≠ [unit '-']) :
    rangeEnd? (units ++ more) =
      (rangeEnd? units).map fun (u, rest) => (u, rest ++ more) := by
  match units, hne, hhyphen with
  | [u], _, hhyphen =>
    have hu : u ≠ unit '-' := fun h => hhyphen (by rw [h])
    rw [List.cons_append, rangeEnd?_cons _ hu, rangeEnd?_cons _ hu]
    rfl
  | u :: v :: rest, _, _ =>
    simp only [rangeEnd?, List.cons_append]
    split_ifs <;> rfl

theorem rangeEnd?_drop_more {n : Nat} (hlt : n < units.length)
    (hhyphen : units.drop n ≠ [unit '-']) :
    rangeEnd? ((units ++ more).drop n) =
      (rangeEnd? (units.drop n)).map fun (u, rest) => (u, rest ++ more) := by
  have hne : units.drop n ≠ [] := by simpa using hlt
  rw [List.drop_append_of_le_length hlt.le, rangeEnd?_more more hne hhyphen]

/-- A member is complete if it is not in front of a hyphen that is the last unit. -/
theorem lexMember_more (h : Decided units (lexMember position u units))
    (hhyphen : ∀ m n, lexMember position u units = .ok (m, n) → units.drop n ≠ [unit '-']) :
    lexMember position u (units ++ more) = lexMember position u units := by
  cases hfirst : lexClassAtom position u units with
  | error e =>
    have hfinal : e.fault.IsFinal := by rw [lexMember, hfirst] at h; exact h
    have hfirst' := lexClassAtom_more more (by rw [hfirst]; exact hfinal)
    rw [lexMember, lexMember, hfirst', hfirst]
    rfl
  | ok found =>
    obtain ⟨first, n⟩ := found
    cases hrange : rangeEnd? (units.drop n) with
    | none =>
      obtain ⟨m, hm⟩ : ∃ m, lexMember position u units = .ok (m, n) := by
        simp only [lexMember, hfirst, bind, Except.bind, hrange]
        cases first <;> exact ⟨_, rfl⟩
      rw [hm] at h
      have hlt : n < units.length := h
      have hfirst' := lexClassAtom_more more (by rw [hfirst]; exact hlt)
      have hrange' := rangeEnd?_drop_more more hlt (hhyphen m n hm)
      rw [hrange, Option.map_none] at hrange'
      simp only [lexMember, hfirst', hfirst, bind, Except.bind, hrange, hrange']
    | some found =>
      obtain ⟨v, rest⟩ := found
      obtain ⟨hdrop, -⟩ := eq_hyphen_of_rangeEnd? hrange
      have hlength := congrArg List.length hdrop
      simp only [List.length_drop, List.length_cons] at hlength
      have hlt : n < units.length := by omega
      have hfirst' := lexClassAtom_more more (by rw [hfirst]; exact hlt)
      have hrange' := rangeEnd?_drop_more more hlt (by simp [hdrop])
      rw [hrange, Option.map_some] at hrange'
      cases first with
      | shorthand s =>
        simp only [lexMember, hfirst, bind, Except.bind, hrange] at h
        exact h.elim
      | single lo =>
        simp only [lexMember, hfirst', hfirst, bind, Except.bind, hrange, hrange'] at h ⊢
        have hlast : Decided rest (lexClassAtom (position + 1 + n + 1) v rest) := by
          cases hlast : lexClassAtom (position + 1 + n + 1) v rest with
          | error e => rw [hlast] at h; exact h
          | ok found =>
            obtain ⟨last, k⟩ := found
            rw [hlast] at h
            cases last with
            | shorthand s => exact h.elim
            | single hi =>
              dsimp only at h
              split_ifs at h
              · exact h.elim
              · have hbehind : n + 2 + k < units.length := h
                show k < rest.length
                omega
        rw [lexClassAtom_more more hlast]

theorem lexMembers_hyphen (opening position : Nat) :
    lexMembers opening position [unit '-'] = refuse .badBracketExpression opening := by
  simp [lexMembers, lexMember, lexClassAtom, rangeEnd?, bind, Except.bind, pure, Except.pure,
    refuse]

/-- In front of members that are not merely unclosed, a member is complete. -/
theorem lexMember_more_of_ok {opening position' : Nat} {m : Member} {n : Nat}
    (hmember : lexMember position u units = .ok (m, n))
    (hrest : lexMembers opening position' (units.drop n) ≠
      refuse .badBracketExpression opening) :
    lexMember position u (units ++ more) = .ok (m, n) ∧
      (units ++ more).drop n = units.drop n ++ more := by
  have hlt : n < units.length := by
    by_contra hge
    rw [List.drop_eq_nil_of_le (by omega), lexMembers] at hrest
    exact hrest rfl
  have hhyphen : units.drop n ≠ [unit '-'] := by
    intro heq
    rw [heq, lexMembers_hyphen] at hrest
    exact hrest rfl
  refine ⟨?_, List.drop_append_of_le_length hlt.le⟩
  rw [lexMember_more more (by rw [hmember]; exact hlt), hmember]
  intro m' n' hok
  rw [hmember] at hok
  cases hok
  exact hhyphen

/-- Members are refused for one that is complete, or else not for good. -/
theorem lexMembers_more {opening : Nat} (h : Decided units (lexMembers opening position units)) :
    lexMembers opening position (units ++ more) = lexMembers opening position units := by
  -- where members are refused for good or closed, the units do not end behind the first one,
  -- and so it is decided; the others are decided by induction
  fun_induction lexMembers opening position units with
  | case1 => exact h.elim
  | case2 position rest => rw [List.cons_append, lexMembers, if_pos rfl]
  | case3 position u rest hu e hmember =>
    have hmember' := lexMember_more more (by rw [hmember]; exact h) (by simp [hmember])
    rw [List.cons_append, lexMembers, if_neg hu, hmember', hmember]
  | case4 position u rest hu m n hmember e hrest ih =>
    have hfinal : e.fault.IsFinal := h
    have hne : lexMembers opening (position + 1 + n) (rest.drop n) ≠
        refuse .badBracketExpression opening := by
      rw [hrest]
      rintro ⟨⟩
      exact hfinal
    obtain ⟨hmember', hdrop⟩ := lexMember_more_of_ok more hmember hne
    rw [hrest] at ih
    rw [List.cons_append, lexMembers, if_neg hu, hmember']
    simp only [hdrop, ih hfinal]
  | case5 position u rest hu m n hmember ms k hrest ih =>
    have hlt : 1 + n + k < (u :: rest).length := h
    have hne : lexMembers opening (position + 1 + n) (rest.drop n) ≠
        refuse .badBracketExpression opening := by
      rw [hrest]
      rintro ⟨⟩
    obtain ⟨hmember', hdrop⟩ := lexMember_more_of_ok more hmember hne
    rw [hrest] at ih
    have hbehind : k < (rest.drop n).length := by
      rw [List.length_cons] at hlt
      rw [List.length_drop]
      omega
    rw [List.cons_append, lexMembers, if_neg hu, hmember']
    simp only [hdrop, ih hbehind]

theorem lexBracket_more {w : Width} (h : Decided units (lexBracket w position units)) :
    lexBracket w position (units ++ more) = lexBracket w position units := by
  have hne : units ≠ [] := by
    rintro rfl
    simp [lexBracket, startsWith, lexMembers, refuse, Decided, SyntaxFault.IsFinal] at h
  have hcaret : startsWith '^' (units ++ more) = startsWith '^' units := by
    cases units with
    | nil => exact absurd rfl hne
    | cons u rest => rfl
  have hskip : (if startsWith '^' units = true then 1 else 0) ≤ units.length := by
    have hpos := List.length_pos_iff.mpr hne
    split <;> omega
  unfold lexBracket at h ⊢
  dsimp only at h ⊢
  rw [hcaret]
  generalize (if startsWith '^' units = true then 1 else 0) = skipped at h hskip ⊢
  have hmembers : Decided (units.drop skipped)
      (lexMembers position (position + 1 + skipped) (units.drop skipped)) := by
    cases hmembers : lexMembers position (position + 1 + skipped) (units.drop skipped) with
    | error e => rw [hmembers] at h; exact h
    | ok found =>
      obtain ⟨ms, n⟩ := found
      rw [hmembers] at h
      cases ms with
      | nil => exact h.elim
      | cons m ms =>
        have hlt : skipped + n < units.length := h
        show n < (units.drop skipped).length
        rw [List.length_drop]
        omega
  rw [List.drop_append_of_le_length hskip, lexMembers_more more hmembers]

theorem lexAtom_more {w : Width} (h : Decided units (lexAtom w position u units)) :
    lexAtom w position u (units ++ more) = lexAtom w position u units := by
  unfold lexAtom at h ⊢
  split_ifs at h ⊢
  · rw [lexBracket_more more (h.inner [] fun c n => (Nat.zero_add n).symm)]
  · rw [lexEscape_more more (h.inner [] fun e n => (Nat.zero_add n).symm)]
  all_goals rfl

end Brackets

/-! ## §6 Reading -/

section Reading

variable {w : Width} {source units rest : List CodeUnit} {position : Nat} {u : CodeUnit}
  {d : Draft} {e : SyntaxError}

theorem drop_of_cons_eq_drop (h : u :: rest = source.drop position) (n : Nat) :
    rest.drop n = source.drop (position + 1 + n) := by
  rw [Nat.add_assoc, ← List.drop_drop, ← h, Nat.add_comm, List.drop_succ_cons]

theorem getElem?_of_cons_eq_drop (h : u :: rest = source.drop position) :
    source[position]? = some u := by
  rw [← Nat.add_zero position, ← List.getElem?_drop, ← h]
  rfl

/-- Reading refuses nothing at the end of the units. -/
theorem lt_of_read_drop {n : Nat} (h : Draft.read w position (units.drop n) d = .error e) :
    n < units.length := by
  by_contra hge
  rw [List.drop_eq_nil_of_le (by omega), Draft.read] at h
  cases h

/-- An error that comes of reading a form, or of what is behind the form, comes of
it whatever follows. -/
theorem bind_error_more {α β : Type} {x x' : Checked (α × Nat)} {f f' : α × Nat → Checked β}
    (h : (x >>= f) = .error e) (hfinal : e.fault.IsFinal) (hform : Decided units x → x' = x)
    (hbehind : ∀ a n, x = .ok (a, n) → f (a, n) = .error e →
      n < units.length ∧ f' (a, n) = .error e) : (x' >>= f') = .error e := by
  rcases bind_eq_error_iff.mp h with hx | ⟨⟨a, n⟩, hx, hf⟩
  · rw [hform (by rw [hx]; exact hfinal), hx]
    rfl
  · obtain ⟨hlt, hf'⟩ := hbehind a n hx hf
    rw [hform (by rw [hx]; exact hlt), hx]
    exact hf'

theorem not_isFinal_of_openGroup {opening : Nat} {o : GroupOpener}
    (h : d.openGroup opening o = .error e) : ¬ e.fault.IsFinal := by
  cases o with
  | plain => cases h
  | numbered => cases h
  | named name place =>
    simp only [Draft.openGroup] at h
    split at h
    · obtain rfl := refuse_eq_error_iff.mp h
      exact id
    · cases h

/-- Reading refuses for a final fault whatever follows, unless the fault is a
group that nothing closes. -/
theorem read_more (hunits : units = source.drop position)
    (h : Draft.read w position units d = .error e) (hfinal : e.fault.IsFinal)
    (hopen : e.fault = .missingParen → source[e.position]? ≠ some (unit '('))
    (more : List CodeUnit) : Draft.read w position (units ++ more) d = .error e := by
  -- the end of the units is never refused, so what was read before the error left units over
  fun_induction Draft.read w position units d with
  | case1 => cases h
  | case2 position d rest ih =>
    rw [List.cons_append, read_bar]
    exact ih (drop_of_cons_eq_drop hunits 0) h
  | case3 position d rest hdepth =>
    rw [List.cons_append, Draft.read]
    simpa [hdepth] using h
  | case4 position d rest hdepth _ ih =>
    rw [List.cons_append, Draft.read]
    simp only [unit_inj, Char.reduceEq, if_false, if_true, hdepth]
    have hne : lexGroupOpener position rest ≠ refuse .missingParen position := by
      intro hopener
      rw [hopener] at h
      cases h
      exact hopen rfl (getElem?_of_cons_eq_drop hunits)
    refine bind_error_more h hfinal (fun hdecided => lexGroupOpener_more more hdecided hne) ?_
    intro opener n _ hread
    rcases bind_eq_error_iff.mp hread with hgroup | ⟨d', hgroup, hread⟩
    · exact absurd hfinal (not_isFinal_of_openGroup hgroup)
    · have hlt := lt_of_read_drop hread
      refine ⟨hlt, ?_⟩
      simp only [hgroup, List.drop_append_of_le_length hlt.le]
      exact ih n d' (drop_of_cons_eq_drop hunits n) hread
  | case5 position d rest hclose =>
    rw [List.cons_append, Draft.read]
    simpa [hclose] using h
  | case6 position d rest group d' hclose _ _ ih =>
    rw [List.cons_append, Draft.read]
    simp only [unit_inj, Char.reduceEq, if_false, if_true, hclose]
    refine bind_error_more h hfinal (lexSuffix_more more) ?_
    intro item n _ hread
    have hlt := lt_of_read_drop hread
    refine ⟨hlt, ?_⟩
    simp only [List.drop_append_of_le_length hlt.le]
    exact ih item n (drop_of_cons_eq_drop hunits n) hread
  | case7 position d u rest hbar hparen hclose hstart =>
    rw [List.cons_append, Draft.read]
    simpa [hbar, hparen, hclose, hstart] using h
  | case8 position d u rest hbar hparen hclose hstart ih =>
    rw [List.cons_append, Draft.read]
    simp only [hbar, hparen, hclose, hstart, if_false]
    refine bind_error_more h hfinal (lexAtom_more more) ?_
    intro atom n _ hsuffix
    have hlt : n < rest.length := by
      by_contra hge
      have hnil : rest.drop n = [] := List.drop_eq_nil_of_le (by omega)
      simp only [hnil, lexSuffix] at hsuffix
      have hread : Draft.read w (position + 1 + n + 0) (rest.drop (n + 0)) (d.push atom) =
          .error e := hsuffix
      exact hge (lt_of_read_drop hread)
    refine ⟨hlt, ?_⟩
    simp only [List.drop_append_of_le_length hlt.le]
    refine bind_error_more hsuffix hfinal (lexSuffix_more more) ?_
    intro item k _ hread
    have hlt' := lt_of_read_drop hread
    refine ⟨by rw [List.length_drop]; omega, ?_⟩
    simp only [List.drop_append_of_le_length hlt'.le]
    have hbehind : rest.drop (n + k) = source.drop (position + 1 + n + k) := by
      rw [drop_of_cons_eq_drop hunits, Nat.add_assoc (position + 1)]
    exact ih n item k hbehind hread

end Reading

end Grammar

open Grammar

/-- The error is seen before the end of the text: nothing to repeat, a quantifier
too many, a group too many, a feature that is not supported, or a parenthesis that
closes nothing. -/
def SyntaxError.IsSeenIn (e : SyntaxError) (source : Text) : Prop :=
  match e.fault with
  | .emptyOperand | .multipleRepeat | .nestingTooDeep | .unsupportedFeature => True
  | .missingParen => source[e.position]? = some (unit ')')
  | _ => False

/-- An error that is seen in a text is not changed by what follows: with any units
behind it the text is refused for the same fault at the same position. -/
theorem parse_append_of_seen {w : Width} {source : Text} {e : SyntaxError}
    (h : parse w source = .error e) (hseen : e.IsSeenIn source) (more : Text) :
    parse w (source ++ more) = .error e := by
  obtain ⟨fault, position⟩ := e
  have hfinal : fault.IsFinal := by cases fault <;> trivial
  have hopen : fault = .missingParen → source.toList[position]? ≠ some (unit '(') := by
    rintro rfl hparen
    have hclose : source[position]? = some (unit ')') := hseen
    rw [Array.getElem?_toList, hclose] at hparen
    cases hparen
  have hparse := h
  rw [parse] at hparse
  rcases bind_eq_error_iff.mp hparse with hread | ⟨d, hread, hfinish⟩
  · have hstart : source.toList = source.toList.drop 0 := rfl
    have hmore := read_more hstart hread hfinal hopen more.toList
    rw [parse, Array.toList_append, hmore]
    rfl
  -- what is found at the end only is a group that is not closed, or a bad reference
  cases hframes : d.frames with
  | cons f frames =>
    have hopened : OpenedIn source.toList Draft.empty := by simp [OpenedIn, Draft.empty]
    have hparen := (read_blames [] (by simp) rfl hopened).2 d hread f
      (by rw [hframes]; exact List.mem_cons_self)
    rw [Draft.finish, hframes] at hfinish
    cases hfinish
    exact absurd hparen (hopen rfl)
  | nil =>
    obtain ⟨a, ha⟩ := exists_derivation_of_read hread hframes
    rw [parse_of_reads w ha] at h
    split at h
    · cases h
      exact hfinal.elim
    · cases h

/-- The brackets are not closed, and need not be. -/
theorem parse_nonWordBoundary :
    parse .narrow "[a-c\\B" = refuse .unsupportedFeature 4 ∧
      (⟨.unsupportedFeature, 4⟩ : SyntaxError).IsSeenIn "[a-c\\B" ∧
      parse .narrow ("[a-c\\B" ++ "-]*") = refuse .unsupportedFeature 4 := by
  have hparse : parse .narrow "[a-c\\B" = refuse .unsupportedFeature 4 := by cbv
  exact ⟨hparse, trivial, parse_append_of_seen hparse trivial "-]*"⟩

end LineRegex
