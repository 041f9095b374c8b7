/-
LineRegex.Proofs.Grammar.Lexemes — the readers take exactly the forms.

For each reader there are two statements. In front of any text that cannot
prolong it, a valid form is read as what it means, all of it and nothing
more. Whatever is read is a valid form, in front of such a text.

  §1 Results      — what it takes to succeed.
  §2 Runs         — digits and word units.
  §3 Quantifiers
  §4 Names and openings
  §5 Escapes
-/
import Mathlib.Data.List.TakeWhile
import LineRegex.Proofs.Grammar.Derivation

namespace LineRegex

/-! ## §1 Results -/

theorem bind_eq_ok_iff {ε α β : Type} {x : Except ε α} {g : α → Except ε β} {b : β} :
    (x >>= g) = .ok b ↔ ∃ a, x = .ok a ∧ g a = .ok b := by
  cases x with
  | error err => simp [bind, Except.bind]
  | ok a => simp [bind, Except.bind]

theorem bind_pure_eq_ok_iff {ε α β : Type} {x : Except ε α} {g : α → β} {b : β} :
    (x >>= fun a => pure (g a)) = .ok b ↔ ∃ a, x = .ok a ∧ g a = b := by
  simp [bind_eq_ok_iff, pure, Except.pure]

namespace Grammar

/-! ## §2 Runs -/

section Runs

variable {p : CodeUnit → Bool} {ds rest units : List CodeUnit}

theorem takeWhile_append_of_stop (hds : ∀ d ∈ ds, p d = true)
    (hrest : ∀ u ∈ rest.head?, p u = false) : (ds ++ rest).takeWhile p = ds := by
  rw [List.takeWhile_append_of_pos hds]
  cases rest with
  | nil => simp
  | cons u rest => simp [hrest u rfl]

theorem exists_run (p : CodeUnit → Bool) (units : List CodeUnit) :
    ∃ rest, units = units.takeWhile p ++ rest ∧ (∀ d ∈ units.takeWhile p, p d = true) ∧
      ∀ u ∈ rest.head?, p u = false := by
  refine ⟨units.dropWhile p, List.takeWhile_append_dropWhile.symm,
    fun d hd => List.mem_takeWhile_imp hd, ?_⟩
  intro u hu
  have := List.head?_dropWhile_not p units
  rw [Option.mem_def.mp hu] at this
  simpa using this

end Runs

theorem not_startsDigit_iff {units : List CodeUnit} :
    ¬ StartsDigit units ↔ ∀ u ∈ units.head?, u.isDigit = false := by
  simp [StartsDigit]

theorem lexCount?_append {m rest : List CodeUnit} (hm : IsCount m) (hrest : ¬ StartsDigit rest) :
    lexCount? (m ++ rest) = some (decimalValue m, m.length) := by
  obtain ⟨⟨hne, hdigits⟩, hle⟩ := hm
  have hrun : leadingDigits (m ++ rest) = m :=
    takeWhile_append_of_stop hdigits (not_startsDigit_iff.mp hrest)
  simp [lexCount?, hrun, hne, hle]

theorem exists_count_of_lexCount? {units : List CodeUnit} {v n : Nat}
    (h : lexCount? units = some (v, n)) :
    ∃ m rest, IsCount m ∧ units = m ++ rest ∧ v = decimalValue m ∧ n = m.length := by
  obtain ⟨rest, hunits, hdigits, -⟩ := exists_run CodeUnit.isDigit units
  unfold lexCount? leadingDigits at h
  generalize units.takeWhile CodeUnit.isDigit = m at *
  by_cases hbad : m.isEmpty || maxRepeatCount < decimalValue m
  · simp [hbad] at h
  · simp only [hbad, Bool.false_eq_true, if_false, Option.some.injEq, Prod.mk.injEq] at h
    simp only [Bool.or_eq_true, List.isEmpty_iff, decide_eq_true_eq, not_or, Nat.not_lt] at hbad
    exact ⟨m, rest, ⟨⟨hbad.1, hdigits⟩, hbad.2⟩, hunits, h.1.symm, h.2.symm⟩

/-! ## §3 Quantifiers -/

theorem Quantifier.isQuantifierStart_first (q : Quantifier) : q.first.isQuantifierStart = true := by
  cases q <;> rfl

theorem not_startsDigit_nil : ¬ StartsDigit [] := by
  simp [StartsDigit]

theorem not_startsDigit_cons {u : CodeUnit} {rest : List CodeUnit} (h : u.isDigit = false) :
    ¬ StartsDigit (u :: rest) := by
  simp [StartsDigit, h]

/-- A brace or a comma ends a count. -/
theorem lexCount?_append_cons {m : List CodeUnit} (hm : IsCount m) {u : CodeUnit}
    (hu : u.isDigit = false) (rest : List CodeUnit) :
    lexCount? (m ++ u :: rest) = some (decimalValue m, m.length) :=
  lexCount?_append hm (not_startsDigit_cons hu)

/-- A count begins with a digit. -/
theorem IsCount.startsWith_eq_false {m : List CodeUnit} (hm : IsCount m) (rest : List CodeUnit)
    {c : Char} (hc : (unit c).isDigit = false) : startsWith c (m ++ rest) = false := by
  obtain ⟨⟨hne, hdigits⟩, -⟩ := hm
  cases m with
  | nil => exact absurd rfl hne
  | cons d ds =>
    have hd : CodeUnit.isDigit d = true := hdigits d (by simp)
    have hdc : d ≠ unit c := by rintro rfl; simp [hd] at hc
    simp [startsWith, hdc]

theorem lexBounds_append (position : Nat) {q : Quantifier} (hq : q.Valid) (rest : List CodeUnit) :
    lexBounds position q.first (q.tail ++ rest) = .ok (q.bounds, q.tail.length) := by
  cases q with
  | star => rfl
  | plus => rfl
  | optional => rfl
  | exactly m =>
    have hcount := lexCount?_append_cons hq (u := unit '}') rfl rest
    simp [lexBounds, Quantifier.first, Quantifier.tail, Quantifier.bounds, lexBraces?, hcount,
      startsWith]
  | atLeast m =>
    have hcount := lexCount?_append_cons hq (u := unit ',') rfl (unit '}' :: rest)
    simp [lexBounds, Quantifier.first, Quantifier.tail, Quantifier.bounds, lexBraces?, hcount,
      startsWith, lexUpperBound?]
  | between m n =>
    obtain ⟨hm, hn, hle⟩ := hq
    have hmin := lexCount?_append_cons hm (u := unit ',') rfl (n ++ unit '}' :: rest)
    have hmax := lexCount?_append_cons hn (u := unit '}') rfl rest
    have hopen := hn.startsWith_eq_false (unit '}' :: rest) (c := '}') rfl
    have hupper : lexUpperBound? (decimalValue m) (n ++ unit '}' :: rest) =
        some (⟨decimalValue m, some (decimalValue n)⟩, n.length + 1) := by
      rw [lexUpperBound?, hopen]
      simp [hmax, startsWith, hle]
    simp [lexBounds, Quantifier.first, Quantifier.tail, Quantifier.bounds, lexBraces?, hmin,
      startsWith, hupper]
    omega

theorem eq_cons_of_startsWith {c : Char} {units : List CodeUnit} (h : startsWith c units = true) :
    ∃ rest, units = unit c :: rest := by
  cases units with
  | nil => simp [startsWith] at h
  | cons u rest => exact ⟨rest, by simpa [startsWith] using h⟩

theorem lexUpperBound?_cases {min : Nat} {units : List CodeUnit} {b : Bounds} {k : Nat}
    (h : lexUpperBound? min units = some (b, k)) :
    (∃ rest, units = unit '}' :: rest ∧ b = ⟨min, none⟩ ∧ k = 1) ∨
      ∃ n rest, IsCount n ∧ min ≤ decimalValue n ∧ units = n ++ unit '}' :: rest ∧
        b = ⟨min, some (decimalValue n)⟩ ∧ k = n.length + 1 := by
  unfold lexUpperBound? at h
  split at h
  · rename_i hclose
    obtain ⟨rest, rfl⟩ := eq_cons_of_startsWith hclose
    simp only [Option.some.injEq, Prod.mk.injEq] at h
    exact .inl ⟨rest, rfl, h.1.symm, h.2.symm⟩
  · split at h
    · simp at h
    · rename_i v k' hcount
      obtain ⟨n, rest, hn, rfl, rfl, rfl⟩ := exists_count_of_lexCount? hcount
      rw [List.drop_left] at h
      split at h
      · rename_i hclose
        rw [Bool.and_eq_true, decide_eq_true_eq] at hclose
        obtain ⟨rest, rfl⟩ := eq_cons_of_startsWith hclose.1
        simp only [Option.some.injEq, Prod.mk.injEq] at h
        exact .inr ⟨n, rest, hn, hclose.2, rfl, h.1.symm, h.2.symm⟩
      · simp at h

theorem exists_quantifier_of_lexBraces? {units : List CodeUnit} {b : Bounds} {k : Nat}
    (h : lexBraces? units = some (b, k)) :
    ∃ (q : Quantifier) (rest : List CodeUnit), q.Valid ∧ q.first = unit '\x7b' ∧
      units = q.tail ++ rest ∧ b = q.bounds ∧ k = q.tail.length := by
  unfold lexBraces? at h
  split at h
  · simp at h
  · rename_i v k' hcount
    obtain ⟨m, rest, hm, rfl, rfl, rfl⟩ := exists_count_of_lexCount? hcount
    rw [List.drop_left] at h
    split at h
    · rename_i hclose
      obtain ⟨rest, rfl⟩ := eq_cons_of_startsWith hclose
      simp only [Option.some.injEq, Prod.mk.injEq] at h
      obtain ⟨rfl, rfl⟩ := h
      exact ⟨.exactly m, rest, hm, rfl, by simp [Quantifier.tail], rfl, by simp [Quantifier.tail]⟩
    · split at h
      · rename_i hcomma
        obtain ⟨rest, rfl⟩ := eq_cons_of_startsWith hcomma
        rw [show (m ++ unit ',' :: rest).drop (m.length + 1) = rest by simp] at h
        obtain ⟨⟨b', k'⟩, hupper, heq⟩ := Option.map_eq_some_iff.mp h
        simp only [Prod.mk.injEq] at heq
        obtain ⟨rfl, rfl⟩ := heq
        rcases lexUpperBound?_cases hupper with
          ⟨rest, rfl, rfl, rfl⟩ | ⟨n, rest, hn, hle, rfl, rfl, rfl⟩
        · exact ⟨.atLeast m, rest, hm, rfl, by simp [Quantifier.tail], rfl,
            by simp [Quantifier.tail]⟩
        · exact ⟨.between m n, rest, ⟨hm, hn, hle⟩, rfl, by simp [Quantifier.tail], rfl,
            by simp [Quantifier.tail]; omega⟩
      · simp at h

theorem exists_quantifier_of_lexBounds {position : Nat} {u : CodeUnit} {units : List CodeUnit}
    {b : Bounds} {k : Nat} (hu : u.isQuantifierStart = true)
    (h : lexBounds position u units = .ok (b, k)) :
    ∃ (q : Quantifier) (rest : List CodeUnit), q.Valid ∧ q.first = u ∧
      units = q.tail ++ rest ∧ b = q.bounds ∧ k = q.tail.length := by
  unfold lexBounds at h
  split_ifs at h with hstar hplus hoptional
  · simp only [Except.ok.injEq, Prod.mk.injEq] at h
    exact ⟨.star, units, trivial, hstar.symm, rfl, h.1.symm, h.2.symm⟩
  · simp only [Except.ok.injEq, Prod.mk.injEq] at h
    exact ⟨.plus, units, trivial, hplus.symm, rfl, h.1.symm, h.2.symm⟩
  · simp only [Except.ok.injEq, Prod.mk.injEq] at h
    exact ⟨.optional, units, trivial, hoptional.symm, rfl, h.1.symm, h.2.symm⟩
  · have hbrace : u = unit '\x7b' := by
      simpa [CodeUnit.isQuantifierStart, hstar, hplus, hoptional] using hu
    split at h
    · simp [refuse] at h
    · rename_i found hfound
      obtain rfl : found = (b, k) := by simpa using h
      rw [hbrace]
      exact exists_quantifier_of_lexBraces? hfound

/-- An atom with its quantifier is read as the quantified tree. -/
theorem lexSuffix_append {ρ : Type} (position : Nat) (e : Expr ρ) {q : Option Quantifier}
    (hq : ∀ q' ∈ q, q'.Valid) (hanchor : e.isAnchor = true → q = none) {rest : List CodeUnit}
    (hrest : startsQuantifier rest = false) :
    lexSuffix position e (suffixUnits q ++ rest) = .ok (quantify q e, (suffixUnits q).length) := by
  cases q with
  | none =>
    cases rest with
    | nil => rfl
    | cons u rest =>
      have hu : CodeUnit.isQuantifierStart u = false := hrest
      simp [lexSuffix, suffixUnits, hu, quantify]
  | some q =>
    have he : e.isAnchor = false := by simpa using hanchor
    have hbounds := lexBounds_append position (hq q rfl) rest
    simp [lexSuffix, suffixUnits, q.isQuantifierStart_first, he, hbounds, quantify, hrest, bind,
      Except.bind, pure, Except.pure, Nat.add_comm]

theorem exists_suffix_of_lexSuffix {ρ : Type} {position : Nat} {e e' : Expr ρ}
    {units : List CodeUnit} {k : Nat} (h : lexSuffix position e units = .ok (e', k)) :
    ∃ (q : Option Quantifier) (rest : List CodeUnit), (∀ q' ∈ q, q'.Valid) ∧
      (e.isAnchor = true → q = none) ∧ units = suffixUnits q ++ rest ∧
      startsQuantifier rest = false ∧ k = (suffixUnits q).length := by
  unfold lexSuffix at h
  split at h
  · simp only [Except.ok.injEq, Prod.mk.injEq] at h
    exact ⟨none, [], by simp, by simp, rfl, rfl, h.2.symm⟩
  · rename_i u rest
    split at h
    · rename_i hu
      simp only [Except.ok.injEq, Prod.mk.injEq] at h
      exact ⟨none, u :: rest, by simp, by simp, rfl, by simpa [startsQuantifier] using hu,
        h.2.symm⟩
    · rename_i hu
      split at h
      · simp [refuse] at h
      · rename_i he
        obtain ⟨⟨b, n⟩, hb, h⟩ := bind_eq_ok_iff.mp h
        obtain ⟨q, rest, hq, rfl, rfl, rfl, rfl⟩ :=
          exists_quantifier_of_lexBounds (by simpa using hu) hb
        simp only [List.drop_left] at h
        split at h
        · simp [refuse] at h
        · rename_i hstart
          simp only [pure, Except.pure, Except.ok.injEq, Prod.mk.injEq] at h
          refine ⟨some q, rest, by simpa using hq, fun ha => absurd ha he, rfl,
            by simpa using hstart, ?_⟩
          rw [← h.2, suffixUnits, List.length_cons, Nat.add_comm]

/-! ## §4 Names and openings -/

theorem isDigit_of_isAlpha {u : CodeUnit} (h : u.isAlpha = true) : u.isDigit = false := by
  have h0 : unit '0' = 48 := rfl
  have h9 : unit '9' = 57 := rfl
  have ha : unit 'a' = 97 := rfl
  have hz : unit 'z' = 122 := rfl
  have hA : unit 'A' = 65 := rfl
  have hZ : unit 'Z' = 90 := rfl
  simp only [CodeUnit.isAlpha, CodeUnit.isDigit, Bool.or_eq_true, Bool.and_eq_true,
    decide_eq_true_eq] at h ⊢
  grind

/-- A name is a run of word units that the readers take for one. -/
theorem isName_iff {name : List CodeUnit} :
    IsName name ↔ (∀ u ∈ name, u.isWord = true) ∧ isGroupName name = true := by
  cases name with
  | nil => simp [IsName, isGroupName]
  | cons u rest =>
    have hfirst : (u.isAlpha = true ∨ u = unit '_') ↔ u.isWord = true ∧ u.isDigit = false := by
      constructor
      · rintro (h | rfl)
        · exact ⟨by simp [CodeUnit.isWord, h], isDigit_of_isAlpha h⟩
        · exact ⟨rfl, rfl⟩
      · rintro ⟨hword, hdigit⟩
        simpa [CodeUnit.isWord, hdigit] using hword
    simp only [IsName, isGroupName, hfirst, List.forall_mem_cons, Bool.not_eq_true']
    exact and_right_comm

theorem lexGroupName_append (position : Nat) {name : List CodeUnit} (hname : IsName name)
    (rest : List CodeUnit) :
    lexGroupName position (name ++ unit '>' :: rest) = .ok (name.toArray, name.length + 1) := by
  obtain ⟨hword, hgroup⟩ := isName_iff.mp hname
  have hrun : (name ++ unit '>' :: rest).takeWhile CodeUnit.isWord = name :=
    takeWhile_append_of_stop hword (by rintro u ⟨⟩; rfl)
  simp [lexGroupName, hrun, hgroup, startsWith]

theorem exists_name_of_lexGroupName {position : Nat} {units : List CodeUnit} {name : Text}
    {k : Nat} (h : lexGroupName position units = .ok (name, k)) :
    ∃ rest, IsName name.toList ∧ units = name.toList ++ unit '>' :: rest ∧
      k = name.toList.length + 1 := by
  obtain ⟨rest, hunits, hword, -⟩ := exists_run CodeUnit.isWord units
  unfold lexGroupName at h
  generalize units.takeWhile CodeUnit.isWord = run at *
  subst hunits
  simp only [List.drop_left] at h
  split at h
  · simp [refuse] at h
  · rename_i hgroup
    split at h
    · simp [refuse] at h
    · rename_i hclose
      obtain ⟨rest, rfl⟩ := eq_cons_of_startsWith (by simpa using hclose)
      simp only [Except.ok.injEq, Prod.mk.injEq] at h
      obtain ⟨rfl, rfl⟩ := h
      exact ⟨rest, isName_iff.mpr ⟨hword, by simpa using hgroup⟩, rfl, rfl⟩

/-- What the reader makes of an opening at a position. -/
def Opening.opener (position : Nat) : Opening → GroupOpener
  | numbered => .numbered
  | plain => .plain
  | named false name => .named name.toArray (position + 3)
  | named true name => .named name.toArray (position + 4)

/-- Behind the `<` of an opening stands a name, and not a lookbehind. -/
theorem lexNamedOpener_append (opening position : Nat) {name : List CodeUnit}
    (hname : IsName name) (rest : List CodeUnit) :
    lexNamedOpener opening position (name ++ unit '>' :: rest) =
      .ok (.named name.toArray position, name.length + 1) := by
  have hstart : ∀ c : Char, (unit c).isWord = false →
      startsWith c (name ++ unit '>' :: rest) = false := by
    intro c hc
    cases name with
    | nil => exact hname.elim
    | cons u rest =>
      have hu : u ≠ unit c := by
        rintro rfl
        simp [(isName_iff.mp hname).1 _ (List.mem_cons_self ..)] at hc
      simp [startsWith, hu]
  have h := lexGroupName_append position hname rest
  simp [lexNamedOpener, hstart '=' rfl, hstart '!' rfl, h, bind, Except.bind, pure, Except.pure]

theorem lexGroupOpener_append (position : Nat) {o : Opening} (ho : o.Valid)
    {rest : List CodeUnit} (hrest : startsWith '?' rest = false) :
    lexGroupOpener position (o.units ++ rest) = .ok (o.opener position, o.units.length) := by
  cases o with
  | numbered => simp [lexGroupOpener, Opening.units, hrest, Opening.opener]
  | plain => simp [lexGroupOpener, Opening.units, startsWith, Opening.opener]
  | named long name =>
    cases long with
    | false =>
      have h := lexNamedOpener_append position (position + 3) ho rest
      simp [lexGroupOpener, Opening.units, startsWith, Opening.opener, h, bind, Except.bind, pure,
        Except.pure]
      omega
    | true =>
      have h := lexNamedOpener_append position (position + 4) ho rest
      simp [lexGroupOpener, Opening.units, startsWith, Opening.opener, h, bind, Except.bind, pure,
        Except.pure]
      omega

theorem exists_name_of_lexNamedOpener {opening position : Nat} {units : List CodeUnit}
    {op : GroupOpener} {k : Nat} (h : lexNamedOpener opening position units = .ok (op, k)) :
    ∃ name rest, IsName name ∧ units = name ++ unit '>' :: rest ∧
      op = .named name.toArray position ∧ k = name.length + 1 := by
  unfold lexNamedOpener at h
  split at h
  · simp [refuse] at h
  · obtain ⟨⟨name, n⟩, hn, h⟩ := bind_eq_ok_iff.mp h
    obtain ⟨rest, hname, hunits, rfl⟩ := exists_name_of_lexGroupName hn
    simp only [pure, Except.pure, Except.ok.injEq, Prod.mk.injEq] at h
    exact ⟨name.toList, rest, hname, hunits, h.1.symm, h.2.symm⟩

theorem exists_opening_of_lexGroupOpener {position : Nat} {units : List CodeUnit}
    {op : GroupOpener} {k : Nat} (h : lexGroupOpener position units = .ok (op, k)) :
    ∃ (o : Opening) (rest : List CodeUnit), o.Valid ∧ units = o.units ++ rest ∧
      op = o.opener position ∧ k = o.units.length := by
  unfold lexGroupOpener at h
  split at h
  · simp only [Except.ok.injEq, Prod.mk.injEq] at h
    exact ⟨.numbered, units, trivial, rfl, h.1.symm, h.2.symm⟩
  · rename_i hquestion
    obtain ⟨units, rfl⟩ := eq_cons_of_startsWith (c := '?') (by simpa using hquestion)
    simp only [List.drop_one, List.tail_cons] at h
    split at h
    · simp [refuse] at h
    · rename_i u rest
      split_ifs at h with hcolon hless hlong hless'
      · subst hcolon
        simp only [Except.ok.injEq, Prod.mk.injEq] at h
        exact ⟨.plain, rest, trivial, rfl, h.1.symm, h.2.symm⟩
      · subst hless
        obtain ⟨⟨op', n⟩, hn, h⟩ := bind_eq_ok_iff.mp h
        obtain ⟨name, rest, hname, rfl, rfl, rfl⟩ := exists_name_of_lexNamedOpener hn
        simp only [pure, Except.pure, Except.ok.injEq, Prod.mk.injEq] at h
        exact ⟨.named false name, rest, hname, by simp [Opening.units], h.1.symm,
          by simp [Opening.units]; omega⟩
      · subst hlong
        obtain ⟨rest, rfl⟩ := eq_cons_of_startsWith hless'
        obtain ⟨⟨op', n⟩, hn, h⟩ := bind_eq_ok_iff.mp h
        obtain ⟨name, rest, hname, rfl, rfl, rfl⟩ := exists_name_of_lexNamedOpener hn
        simp only [pure, Except.pure, Except.ok.injEq, Prod.mk.injEq] at h
        exact ⟨.named true name, rest, hname, by simp [Opening.units], h.1.symm,
          by simp [Opening.units]; omega⟩
      · simp [refuse] at h
      · simp [refuse] at h

/-! ## §5 Escapes -/

theorem letterEscape?_control (c : Control) : letterEscape? c.letter = some (.single c.value) := by
  cases c <;> rfl

theorem letterEscape?_shorthand (s : Shorthand) : letterEscape? s.letter = some (.shorthand s) := by
  cases s <;> rfl

/-- The letters that stand alone are those of control and shorthand escapes. -/
theorem letterEscape?_cases {u : CodeUnit} {m : ClassEscape} (h : letterEscape? u = some m) :
    (∃ c : Control, c.letter = u ∧ m = .single c.value) ∨
      ∃ s : Shorthand, s.letter = u ∧ m = .shorthand s := by
  simp only [letterEscape?, Option.or_eq_some_iff, Option.map_eq_some_iff] at h
  rcases h with ⟨v, hv, rfl⟩ | ⟨-, s, hs, rfl⟩
  · left
    unfold controlEscape? at hv
    split_ifs at hv with h1 h2 h3 h4 h5 h6 <;> simp only [Option.some.injEq] at hv <;> subst hv
    · exact ⟨.formFeed, h1.symm, rfl⟩
    · exact ⟨.lineFeed, h2.symm, rfl⟩
    · exact ⟨.carriageReturn, h3.symm, rfl⟩
    · exact ⟨.tab, h4.symm, rfl⟩
    · exact ⟨.verticalTab, h5.symm, rfl⟩
    · exact ⟨.null, h6.symm, rfl⟩
  · right
    refine ⟨s, ?_, rfl⟩
    unfold Shorthand.ofUnit? at hs
    split_ifs at hs with h1 h2 h3 h4 h5 h6 <;> simp only [Option.some.injEq] at hs <;> subst hs
    · exact h1.symm
    · exact h2.symm
    · exact h3.symm
    · exact h4.symm
    · exact h5.symm
    · exact h6.symm

/-- Units that are neither letters nor digits do not stand alone. -/
theorem letterEscape?_eq_none {u : CodeUnit} (halpha : u.isAlpha = false)
    (hdigit : u.isDigit = false) : letterEscape? u = none := by
  rw [Option.eq_none_iff_forall_ne_some]
  intro m hm
  rcases letterEscape?_cases hm with ⟨c, rfl, -⟩ | ⟨s, rfl, -⟩
  · cases c with
    | null => exact absurd hdigit (by decide)
    | _ => exact absurd halpha (by decide)
  · cases s <;> exact absurd halpha (by decide)

theorem ne_unit_of_isAlpha {u : CodeUnit} (h : u.isAlpha = false) {c : Char}
    (hc : (unit c).isAlpha = true) : u ≠ unit c := by
  rintro rfl
  simp [hc] at h

theorem lexClassEscape_append (position : Nat) {e : EscapeForm} (he : e.Valid)
    (rest : List CodeUnit) :
    lexClassEscape position (e.units ++ rest) = .ok (e.meaning, e.units.length) := by
  cases e with
  | control c => simp [lexClassEscape, EscapeForm.units, letterEscape?_control, EscapeForm.meaning]
  | letter u =>
    have hu : u.isAlpha = true := he
    have hc : letterEscape? (unit 'c') = none := rfl
    simp [lexClassEscape, EscapeForm.units, hc, controlLetter?, hu, EscapeForm.meaning]
  | hex high low =>
    obtain ⟨v, hv⟩ := Option.isSome_iff_exists.mp he.1
    obtain ⟨v', hv'⟩ := Option.isSome_iff_exists.mp he.2
    have hx : letterEscape? (unit 'x') = none := rfl
    simp [lexClassEscape, EscapeForm.units, hx, hexPair?, hv, hv', EscapeForm.meaning]
  | shorthand s =>
    simp [lexClassEscape, EscapeForm.units, letterEscape?_shorthand, EscapeForm.meaning]
  | identity u =>
    obtain ⟨halpha, hdigit⟩ := he
    simp [lexClassEscape, EscapeForm.units, letterEscape?_eq_none halpha hdigit, halpha, hdigit,
      ne_unit_of_isAlpha halpha (c := 'c') rfl, ne_unit_of_isAlpha halpha (c := 'x') rfl,
      ne_unit_of_isAlpha halpha (c := 'b') rfl, ne_unit_of_isAlpha halpha (c := 'B') rfl,
      EscapeForm.meaning]
  | backspace =>
    have hb : letterEscape? (unit 'b') = none := rfl
    simp [lexClassEscape, EscapeForm.units, hb, EscapeForm.meaning]

theorem controlLetter?_cases {units : List CodeUnit} {v : CodeUnit}
    (h : controlLetter? units = some v) :
    ∃ u rest, units = u :: rest ∧ u.isAlpha = true ∧ v = u % 32 := by
  unfold controlLetter? at h
  split at h
  · rename_i u rest
    split at h
    · rename_i hu
      exact ⟨u, rest, rfl, hu, by simpa using h.symm⟩
    · simp at h
  · simp at h

theorem hexPair?_cases {units : List CodeUnit} {v : CodeUnit} (h : hexPair? units = some v) :
    ∃ a b rest, units = a :: b :: rest ∧ a.hexValue?.isSome = true ∧ b.hexValue?.isSome = true ∧
      v = a.hexValue?.getD 0 * 16 + b.hexValue?.getD 0 := by
  unfold hexPair? at h
  split at h
  · rename_i a b rest
    cases ha : a.hexValue? with
    | none => simp [ha] at h
    | some x =>
      cases hb : b.hexValue? with
      | none => simp [ha, hb] at h
      | some y =>
        refine ⟨a, b, rest, rfl, by simp [ha], by simp [hb], ?_⟩
        simpa [ha, hb] using h.symm
  · simp at h

theorem exists_form_of_lexClassEscape {position : Nat} {units : List CodeUnit} {m : ClassEscape}
    {k : Nat} (h : lexClassEscape position units = .ok (m, k)) :
    ∃ (e : EscapeForm) (rest : List CodeUnit), e.Valid ∧ units = e.units ++ rest ∧
      m = e.meaning ∧ k = e.units.length := by
  unfold lexClassEscape at h
  split at h
  · simp [refuse] at h
  · rename_i u rest
    split at h
    · rename_i m' hletter
      simp only [Except.ok.injEq, Prod.mk.injEq] at h
      obtain ⟨rfl, rfl⟩ := h
      rcases letterEscape?_cases hletter with ⟨c, rfl, rfl⟩ | ⟨s, rfl, rfl⟩
      · exact ⟨.control c, rest, trivial, rfl, rfl, rfl⟩
      · exact ⟨.shorthand s, rest, trivial, rfl, rfl, rfl⟩
    · split_ifs at h with hc hx hb hB hreserved
      · split at h
        · rename_i v hv
          obtain ⟨u', rest, rfl, hu', rfl⟩ := controlLetter?_cases hv
          simp only [Except.ok.injEq, Prod.mk.injEq] at h
          exact ⟨.letter u', rest, hu', by rw [hc]; rfl, h.1.symm, h.2.symm⟩
        · simp [refuse] at h
      · split at h
        · rename_i v hv
          obtain ⟨a, b, rest, rfl, ha, hb, rfl⟩ := hexPair?_cases hv
          simp only [Except.ok.injEq, Prod.mk.injEq] at h
          exact ⟨.hex a b, rest, ⟨ha, hb⟩, by rw [hx]; rfl, h.1.symm, h.2.symm⟩
        · simp [refuse] at h
      · simp only [Except.ok.injEq, Prod.mk.injEq] at h
        exact ⟨.backspace, rest, trivial, by rw [hb]; rfl, h.1.symm, h.2.symm⟩
      · simp [refuse] at h
      · simp [refuse] at h
      · simp only [Except.ok.injEq, Prod.mk.injEq] at h
        simp only [Bool.or_eq_true, not_or, Bool.not_eq_true] at hreserved
        exact ⟨.identity u, rest, hreserved, rfl, h.1.symm, h.2.symm⟩

end Grammar

end LineRegex
