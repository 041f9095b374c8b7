/-
LineRegex.Proofs.Grammar.Faults — what the readers find fault with.

Every reader is told where its units begin, and reports a position of its own.
For each of them there is one statement: when it refuses, the position it
reports lies in the units it was given, and there stands a unit that the fault
is found at. Only a group name may be missed at the end of the units.

  §1 Results              — what it takes to be refused.
  §2 Offending units      — the units of a fault, `PointsInto`.
  §3 Names and openings
  §4 Quantifiers
  §5 Escapes
  §6 Bracket expressions  — a bad one is reported at its bracket or at the
                            first unit of a member.
-/
import LineRegex.Proofs.Grammar.Reading

namespace LineRegex

/-! ## §1 Results -/

@[simp] theorem refuse_eq_error_iff {α : Type} {fault : SyntaxFault} {position : Nat}
    {e : SyntaxError} : (refuse fault position : Checked α) = .error e ↔ e = ⟨fault, position⟩ := by
  rw [refuse, Except.error.injEq, eq_comm]

theorem bind_eq_error_iff {ε α β : Type} {x : Except ε α} {g : α → Except ε β} {e : ε} :
    (x >>= g) = .error e ↔ x = .error e ∨ ∃ a, x = .ok a ∧ g a = .error e := by
  cases x with
  | error err => simp [bind, Except.bind]
  | ok a => simp [bind, Except.bind]

theorem bind_pure_eq_error_iff {ε α β : Type} {x : Except ε α} {g : α → β} {e : ε} :
    (x >>= fun a => pure (g a)) = .error e ↔ x = .error e := by
  simp [bind_eq_error_iff, pure, Except.pure]

/-! ## §2 Offending units -/

/-- The units that a fault is found at. A bad name, or a bad member of a bracket
expression, may begin with any unit. -/
def SyntaxFault.offenders : SyntaxFault → List Char
  | emptyOperand | multipleRepeat => ['*', '+', '?', '\x7b']
  | badEscape | badBackreference => ['\\']
  | missingParen => ['(', ')']
  | badBraceExpression => ['\x7b']
  | nestingTooDeep => ['(']
  | unsupportedFeature => ['(', '\\']
  | badBracketExpression | badGroupName => []

namespace Grammar

theorem add_length_cons (position : Nat) (u : CodeUnit) (units : List CodeUnit) :
    position + (u :: units).length = position + 1 + units.length := by
  rw [List.length_cons, Nat.add_right_comm, Nat.add_assoc]

/-- The error is one of the units that begin at a position: it points at a unit
that its fault is found at, or lacks a group name. -/
def PointsInto (position : Nat) (units : List CodeUnit) (e : SyntaxError) : Prop :=
  ∃ before after, units = before ++ after ∧ e.position = position + before.length ∧
    (e.fault = .badGroupName ∨ ∃ c ∈ e.fault.offenders, ∃ rest, after = unit c :: rest)

section PointsInto

variable {position : Nat} {fault : SyntaxFault} {units : List CodeUnit} {e : SyntaxError}

theorem pointsInto_front {c : Char} (hc : c ∈ fault.offenders) (rest : List CodeUnit) :
    PointsInto position (unit c :: rest) ⟨fault, position⟩ :=
  ⟨[], _, rfl, rfl, .inr ⟨c, hc, rest, rfl⟩⟩

theorem pointsInto_of_refuse {α : Type} {c : Char} (hc : c ∈ fault.offenders)
    (h : (refuse fault position : Checked α) = .error e) {rest : List CodeUnit} :
    PointsInto position (unit c :: rest) e := by
  obtain rfl := refuse_eq_error_iff.mp h
  exact pointsInto_front hc rest

theorem pointsInto_name (before after : List CodeUnit) :
    PointsInto position (before ++ after) ⟨.badGroupName, position + before.length⟩ :=
  ⟨before, after, rfl, rfl, .inl rfl⟩

theorem PointsInto.behind (front : List CodeUnit)
    (h : PointsInto (position + front.length) units e) : PointsInto position (front ++ units) e := by
  obtain ⟨before, after, rfl, hposition, hfault⟩ := h
  refine ⟨front ++ before, after, (List.append_assoc ..).symm, ?_, hfault⟩
  rw [hposition, List.length_append, Nat.add_assoc]

end PointsInto

/-! ## §3 Names and openings -/

section Names

variable {position opening : Nat} {units : List CodeUnit} {e : SyntaxError}

theorem pointsInto_of_lexGroupName (h : lexGroupName position units = .error e) :
    PointsInto position units e := by
  obtain ⟨rest, hunits, -, -⟩ := exists_run CodeUnit.isWord units
  unfold lexGroupName at h
  generalize units.takeWhile CodeUnit.isWord = run at *
  subst hunits
  dsimp only at h
  split_ifs at h
  · obtain rfl := refuse_eq_error_iff.mp h
    exact pointsInto_name [] _
  · obtain rfl := refuse_eq_error_iff.mp h
    exact pointsInto_name run rest

theorem pointsInto_of_lexNamedOpener (h : lexNamedOpener opening position units = .error e) :
    e = ⟨.unsupportedFeature, opening⟩ ∨ PointsInto position units e := by
  unfold lexNamedOpener at h
  split at h
  · exact .inl (refuse_eq_error_iff.mp h)
  · exact .inr (pointsInto_of_lexGroupName (bind_pure_eq_error_iff.mp h))

theorem pointsInto_of_lexGroupOpener (h : lexGroupOpener opening units = .error e) :
    PointsInto opening (unit '(' :: units) e := by
  -- where a name is read, behind `?<` or `?P<`
  have named : ∀ mark {rest : List CodeUnit},
      lexNamedOpener opening (opening + (unit '(' :: mark).length) rest = .error e →
      PointsInto opening (unit '(' :: mark ++ rest) e := by
    intro mark rest hname
    rcases pointsInto_of_lexNamedOpener hname with rfl | hname
    · exact pointsInto_front (by decide) _
    · exact hname.behind (unit '(' :: mark)
  unfold lexGroupOpener at h
  split at h
  · cases h
  · rename_i hquestion
    obtain ⟨units, rfl⟩ := eq_cons_of_startsWith (c := '?') (by simpa using hquestion)
    simp only [List.drop_one, List.tail_cons] at h
    split at h
    · exact pointsInto_of_refuse (by decide) h
    · rename_i u rest
      split_ifs at h with hcolon hless hlong hless'
      · subst hless
        exact named [unit '?', unit '<'] (bind_pure_eq_error_iff.mp h)
      · subst hlong
        obtain ⟨rest, rfl⟩ := eq_cons_of_startsWith hless'
        exact named [unit '?', unit 'P', unit '<'] (bind_pure_eq_error_iff.mp h)
      · subst hlong
        obtain rfl := refuse_eq_error_iff.mp h
        exact pointsInto_name [unit '(', unit '?', unit 'P'] rest
      · exact pointsInto_of_refuse (by decide) h

/-- A name that is given twice is reported where it stands the second time. -/
theorem pointsInto_of_openGroup {o : Opening} {d : Draft}
    (h : d.openGroup opening (o.opener opening) = .error e) (rest : List CodeUnit) :
    PointsInto opening (unit '(' :: o.units ++ rest) e := by
  cases o with
  | numbered => cases h
  | plain => cases h
  | named long name =>
    cases long with
    | false =>
      simp only [Opening.opener, Draft.openGroup] at h
      split at h
      · obtain rfl := refuse_eq_error_iff.mp h
        exact pointsInto_name [unit '(', unit '?', unit '<'] _
      · cases h
    | true =>
      simp only [Opening.opener, Draft.openGroup] at h
      split at h
      · obtain rfl := refuse_eq_error_iff.mp h
        exact pointsInto_name [unit '(', unit '?', unit 'P', unit '<'] _
      · cases h

end Names

/-! ## §4 Quantifiers -/

theorem exists_char_of_isQuantifierStart {u : CodeUnit} (hu : u.isQuantifierStart = true) :
    ∃ c ∈ ['*', '+', '?', '\x7b'], u = unit c := by
  simpa [CodeUnit.isQuantifierStart, or_assoc] using hu

section Quantifiers

variable {position : Nat} {u : CodeUnit} {units : List CodeUnit} {e : SyntaxError}

theorem pointsInto_of_lexBounds (hu : u.isQuantifierStart = true)
    (h : lexBounds position u units = .error e) : PointsInto position (u :: units) e := by
  unfold lexBounds at h
  split_ifs at h with hstar hplus hoptional
  · have hbrace : u = unit '\x7b' := by
      simpa [CodeUnit.isQuantifierStart, hstar, hplus, hoptional] using hu
    split at h
    · rw [hbrace]
      exact pointsInto_of_refuse (by decide) h
    · cases h

theorem pointsInto_of_lexSuffix {ρ : Type} {atom : Expr ρ}
    (h : lexSuffix position atom units = .error e) : PointsInto position units e := by
  unfold lexSuffix at h
  split at h
  · cases h
  · rename_i u rest
    split at h
    · cases h
    · rename_i hu
      have hu : u.isQuantifierStart = true := by simpa using hu
      split at h
      · obtain ⟨c, hc, rfl⟩ := exists_char_of_isQuantifierStart hu
        exact pointsInto_of_refuse hc h
      · rcases bind_eq_error_iff.mp h with hbounds | ⟨⟨b, n⟩, hbounds, hbehind⟩
        · exact pointsInto_of_lexBounds hu hbounds
        · obtain ⟨q, rest, -, rfl, rfl, -, rfl⟩ := exists_quantifier_of_lexBounds hu hbounds
          simp only [List.drop_left] at hbehind
          split at hbehind
          · rename_i hstart
            cases rest with
            | nil => cases hstart
            | cons v rest =>
              obtain ⟨c, hc, rfl⟩ := exists_char_of_isQuantifierStart hstart
              rw [← add_length_cons position q.first q.tail] at hbehind
              exact (pointsInto_of_refuse hc hbehind).behind (q.first :: q.tail)
          · cases hbehind

end Quantifiers

/-! ## §5 Escapes -/

section Escapes

variable {position : Nat} {units : List CodeUnit} {e : SyntaxError}

theorem pointsInto_of_lexClassEscape (h : lexClassEscape position units = .error e) :
    PointsInto position (unit '\\' :: units) e := by
  unfold lexClassEscape at h
  split at h
  · exact pointsInto_of_refuse (by decide) h
  · split at h
    · cases h
    · split_ifs at h
      · split at h
        · cases h
        · exact pointsInto_of_refuse (by decide) h
      · split at h
        · cases h
        · exact pointsInto_of_refuse (by decide) h
      · exact pointsInto_of_refuse (by decide) h
      · exact pointsInto_of_refuse (by decide) h

theorem pointsInto_of_lexNamedTarget (h : lexNamedTarget position units = .error e) :
    PointsInto position (unit '\\' :: unit 'k' :: units) e := by
  unfold lexNamedTarget at h
  split at h
  · rename_i hless
    obtain ⟨rest, rfl⟩ := eq_cons_of_startsWith hless
    have hname := pointsInto_of_lexGroupName (bind_pure_eq_error_iff.mp h)
    exact hname.behind [unit '\\', unit 'k', unit '<']
  · exact pointsInto_of_refuse (by decide) h

theorem pointsInto_of_lexEscape (h : lexEscape position units = .error e) :
    PointsInto position (unit '\\' :: units) e := by
  unfold lexEscape at h
  split at h
  · exact pointsInto_of_refuse (by decide) h
  · split_ifs at h with hb hk
    · exact pointsInto_of_refuse (by decide) h
    · rw [hk]
      exact pointsInto_of_lexNamedTarget (bind_pure_eq_error_iff.mp h)
    · exact pointsInto_of_lexClassEscape (bind_pure_eq_error_iff.mp h)

end Escapes

/-! ## §6 Bracket expressions -/

/-- The members are valid and none of them goes on: behind one that is no range
the units do not make it one. -/
def MembersBefore : List BracketMember → List CodeUnit → Prop
  | [], _ => True
  | m :: ms, rest =>
    m.Valid ∧ (∀ a, m = .one a → rangeEnd? (memberUnits ms ++ rest) = none) ∧
      MembersBefore ms rest

/-- A bracket expression up to the end of some of its members. -/
def bracketFront (negated : Bool) (ms : List BracketMember) : List CodeUnit :=
  unit '[' :: (if negated then [unit '^'] else []) ++ memberUnits ms

/-- The units begin with a bracket expression, and so many units into it stands
its bracket, or the first unit of one of its members. -/
inductive BracketPart : List CodeUnit → Nat → Prop
  | bracket (rest : List CodeUnit) : BracketPart (unit '[' :: rest) 0
  | member {negated : Bool} {ms : List BracketMember} {u : CodeUnit} {rest : List CodeUnit}
      (hcaret : negated = false → (memberUnits ms ++ u :: rest).head? ≠ some (unit '^'))
      (hmembers : MembersBefore ms (u :: rest)) (hu : u ≠ unit ']') :
      BracketPart (bracketFront negated ms ++ u :: rest) (bracketFront negated ms).length

/-- The error is one of the bracket expression that begins at a position. -/
def PointsIntoBracket (position : Nat) (units : List CodeUnit) (e : SyntaxError) : Prop :=
  e.fault = .badBracketExpression ∧ ∃ n, BracketPart units n ∧ e.position = position + n

section Brackets

variable {position : Nat} {u : CodeUnit} {units : List CodeUnit} {e : SyntaxError}

theorem pointsInto_of_lexClassAtom (h : lexClassAtom position u units = .error e) :
    PointsInto position (u :: units) e := by
  unfold lexClassAtom at h
  split at h
  · rename_i hback
    rw [hback]
    exact pointsInto_of_lexClassEscape h
  · cases h

theorem pointsInto_of_lexMember (hu : u ≠ unit ']') (h : lexMember position u units = .error e) :
    e = ⟨.badBracketExpression, position⟩ ∨ PointsInto position (u :: units) e := by
  unfold lexMember at h
  rcases bind_eq_error_iff.mp h with hfirst | ⟨⟨meaning, n⟩, hfirst, hmember⟩
  · exact .inr (pointsInto_of_lexClassAtom hfirst)
  · obtain ⟨a, rest, -, rfl, rfl, rfl, rfl⟩ := exists_unit_of_lexClassAtom hu hfirst
    simp only [List.drop_left] at hmember
    split at hmember
    · cases hmember
    · exact .inl (refuse_eq_error_iff.mp hmember)
    · cases hmember
    · rename_i lo v rest' hmeaning hrange
      obtain ⟨rfl, -⟩ := eq_hyphen_of_rangeEnd? hrange
      rcases bind_eq_error_iff.mp hmember with hlast | ⟨⟨last, k⟩, -, hend⟩
      · right
        rw [← add_length_cons position a.first a.tail] at hlast
        have hjoined := (pointsInto_of_lexClassAtom hlast).behind [unit '-']
        exact hjoined.behind (a.first :: a.tail)
      · left
        dsimp only at hend
        split at hend
        · exact refuse_eq_error_iff.mp hend
        · split at hend
          · exact refuse_eq_error_iff.mp hend
          · cases hend

/-- Members are refused for one of them, unless no bracket closes them. -/
theorem pointsInto_of_lexMembers {opening : Nat}
    (h : lexMembers opening position units = .error e) :
    e = ⟨.badBracketExpression, opening⟩ ∨ PointsInto position units e ∨
      ∃ ms u rest, MembersBefore ms (u :: rest) ∧ u ≠ unit ']' ∧
        units = memberUnits ms ++ u :: rest ∧
        e = ⟨.badBracketExpression, position + (memberUnits ms).length⟩ := by
  fun_induction lexMembers opening position units generalizing e with
  | case1 => exact .inl (refuse_eq_error_iff.mp h)
  | case2 => cases h
  | case3 position u rest hu e' hmember =>
    obtain rfl : e' = e := by simpa using h
    rcases pointsInto_of_lexMember hu hmember with rfl | hpoints
    · exact .inr (.inr ⟨[], u, rest, trivial, hu, rfl, rfl⟩)
    · exact .inr (.inl hpoints)
  | case4 position u rest hu mem n hmember e' hrest ih =>
    obtain rfl : e' = e := by simpa using h
    obtain ⟨m, rest, hm, rfl, rfl, -, rfl, hone⟩ := exists_member_of_lexMember hu hmember
    rw [List.drop_left] at ih hrest
    rw [← add_length_cons position m.first m.tail] at ih hrest
    rcases ih hrest with rfl | hpoints | ⟨ms, u, rest, hms, hu, rfl, rfl⟩
    · exact .inl rfl
    · exact .inr (.inl (hpoints.behind (m.first :: m.tail)))
    · refine .inr (.inr ⟨m :: ms, u, rest, ⟨hm, hone, hms⟩, hu, by simp [memberUnits], ?_⟩)
      rw [memberUnits, List.length_append, Nat.add_assoc]
  | case5 => cases h

theorem lexMembers_of_lexBracket {w : Width} (h : lexBracket w position units = .error e) :
    e = ⟨.badBracketExpression, position⟩ ∨ ∃ (negated : Bool) (inner : List CodeUnit),
      unit '[' :: units = bracketFront negated [] ++ inner ∧
      (negated = false → inner.head? ≠ some (unit '^')) ∧
      lexMembers position (position + (bracketFront negated []).length) inner = .error e := by
  unfold lexBracket at h
  dsimp only at h
  split at h
  · rename_i e' hmembers
    obtain rfl : e' = e := by simpa using h
    right
    cases hcaret : startsWith '^' units with
    | true =>
      obtain ⟨inner, rfl⟩ := eq_cons_of_startsWith hcaret
      rw [hcaret] at hmembers
      exact ⟨true, inner, rfl, by simp, hmembers⟩
    | false =>
      rw [hcaret] at hmembers
      refine ⟨false, units, rfl, fun _ hhead => ?_, hmembers⟩
      simp [startsWith, hhead] at hcaret
  · exact .inl (refuse_eq_error_iff.mp h)
  · cases h

theorem pointsInto_of_lexBracket {w : Width} (h : lexBracket w position units = .error e) :
    PointsInto position (unit '[' :: units) e ∨
      PointsIntoBracket position (unit '[' :: units) e := by
  rcases lexMembers_of_lexBracket h with rfl | ⟨negated, inner, hunits, hcaret, hmembers⟩
  · exact .inr ⟨rfl, 0, .bracket units, rfl⟩
  rcases pointsInto_of_lexMembers hmembers with rfl | hpoints | ⟨ms, u, rest, hms, hu, rfl, rfl⟩
  · exact .inr ⟨rfl, 0, .bracket units, rfl⟩
  · rw [hunits]
    exact .inl (hpoints.behind _)
  · have hfront : bracketFront negated ms = bracketFront negated [] ++ memberUnits ms := by
      simp [bracketFront, memberUnits]
    rw [hunits, ← List.append_assoc, ← hfront]
    refine .inr ⟨rfl, _, .member hcaret hms hu, ?_⟩
    rw [hfront, List.length_append, Nat.add_assoc]

theorem pointsInto_of_lexAtom {w : Width} (h : lexAtom w position u units = .error e) :
    PointsInto position (u :: units) e ∨ PointsIntoBracket position (u :: units) e := by
  unfold lexAtom at h
  split_ifs at h with hbracket hback
  · rw [hbracket]
    exact pointsInto_of_lexBracket (bind_pure_eq_error_iff.mp h)
  · rw [hback]
    exact .inl (pointsInto_of_lexEscape (bind_pure_eq_error_iff.mp h))

end Brackets

end Grammar

end LineRegex
