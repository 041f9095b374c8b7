/-
LineRegex.Proofs.Descent.Lexers — names, bounds, escapes and brackets, by position.

Each function here begins at the shared position and loops or looks one or two units ahead,
with a check of its own in front of every look. Each agrees with the reader of the same name
that takes the unread units as a list: it reads the same, moves on by as much, and refuses
the pattern for the same fault. A loop ends because every round moves on, and so one round
more than the pattern has units is enough.

  §1 Agreement
  §2 Names
  §3 Bounds
  §4 Escapes
  §5 Brackets
  §6 Openers
-/
import LineRegex.Proofs.Descent.Positions

namespace LineRegex.Descent

variable (source : Text) (rounds : Nat)

/-! ## §1 Agreement -/

/-- The descent does what a reader says, when `skipped` units have not been counted. -/
def Agrees {α : Type} (f : Descent α) (s : DescentState) (skipped : Nat)
    (r : Checked (α × Nat)) : Prop :=
  Goes source f s (fun a t => ∃ n, r = .ok (a, n) ∧ t = s.forward (skipped + n))
    (fun e => r = .error e)

section Agreement

variable {source} {α β : Type} {f : Descent β} {s : DescentState} {skipped : Nat}
  {r : Checked (β × Nat)} {E : SyntaxError → Prop}

theorem Agrees.goes (h : Agrees source f s skipped r) {Q : β → DescentState → Prop}
    (hread : ∀ b n, r = .ok (b, n) → Q b (s.forward (skipped + n)))
    (hrefused : ∀ e, r = .error e → E e) : Goes source f s Q E := by
  refine h.imp (fun b t _ _ hb => ?_) hrefused
  obtain ⟨n, hn, rfl⟩ := hb
  exact hread b n hn

theorem Agrees.ite {c : Prop} [Decidable c] {g : Descent β} {r' : Checked (β × Nat)}
    (hf : c → Agrees source f s skipped r) (hg : ¬c → Agrees source g s skipped r') :
    Agrees source (if c then f else g) s skipped (if c then r else r') := by
  by_cases hc : c
  · rw [if_pos hc, if_pos hc]
    exact hf hc
  · rw [if_neg hc, if_neg hc]
    exact hg hc

theorem Agrees.bind (h : Agrees source f s skipped r) {k : β → Descent α}
    {Q : α → DescentState → Prop}
    (hread : ∀ b n, r = .ok (b, n) → Goes source (k b) (s.forward (skipped + n)) Q E)
    (hrefused : ∀ e, r = .error e → E e) : Goes source (f >>= k) s Q E := by
  refine Goes.bind (h.imp (fun _ _ _ _ hb => hb) hrefused) fun b t hb _ => ?_
  obtain ⟨n, hn, rfl⟩ := hb
  exact hread b n hn

end Agreement

theorem ok_bind {γ δ : Type} (c : γ) (k : γ → Checked δ) : (.ok c >>= k) = k c := rfl

/-- What was found, or else the refusal. -/
def orRefuse {α : Type} (e : SyntaxError) : Option α → Checked α
  | some a => .ok a
  | none => .error e

/-! ## §2 Names -/

/-- Moves behind all word units that come next. -/
def skipWord : Nat → Descent Unit
  | 0 => unended
  | left + 1 => do
    if ← nextSatisfies source CodeUnit.isWord then
      advance source
      skipWord left
    else return

/-- Reads a group name and the `>` that closes it. -/
def lexGroupName : Descent Text := do
  let first ← position
  skipWord source rounds
  let behind ← position
  if behind = first then fail .badGroupName first
  else if (← unitAt source first).isDigit then fail .badGroupName first
  else if ← nextIs source '>' then
    let name ← unitsFrom source first
    advance source
    return name
  else fail .badGroupName behind

section Names

variable {source rounds} {s : DescentState} {E : SyntaxError → Prop}

theorem takeWhile_of_head? {kind : CodeUnit → Bool} {units : List CodeUnit}
    (h : ∀ u ∈ units.head?, kind u = false) : units.takeWhile kind = [] := by
  cases units with
  | nil => rfl
  | cons u rest => exact List.takeWhile_cons_of_neg (by simp [h u rfl])

/-- By induction on the rounds. -/
theorem goes_skipWord {left : Nat} (hleft : source.size < s.position + left) :
    Goes source (skipWord source left) s
      (fun _ t => t = s.forward ((s.unread source).takeWhile CodeUnit.isWord).length) E := by
  induction left generalizing s with
  | zero => exact .behindEnd hleft
  | succ left ih =>
    refine .ifNextSatisfies (fun u rest h hu => ?_) fun hnot => .pure ?_
    · refine .advance h ((ih (DescentState.size_lt_forward_add hleft)).onRead ?_)
      rintro _ _ - - rfl
      rw [DescentState.unread_forward_one h, h, List.takeWhile_cons_of_pos hu, List.length_cons,
        DescentState.forward_forward, Nat.add_comm]
    · rw [takeWhile_of_head? hnot]
      rfl

theorem agrees_lexGroupName (hrounds : source.size < rounds) (s : DescentState) :
    Agrees source (lexGroupName source rounds) s 0
      (LineRegex.lexGroupName s.position (s.unread source)) := by
  refine .look position_apply (.bind (goes_skipWord (s.size_lt_add hrounds)) ?_)
  rintro _ _ rfl -
  refine .look position_apply ?_
  unfold LineRegex.lexGroupName
  cases hunits : s.unread source with
  | nil => exact .ite (fun _ => .fail rfl) fun hne => absurd rfl hne
  | cons u rest =>
    cases hword : u.isWord with
    | false =>
      rw [List.takeWhile_cons_of_neg (by simp [hword])]
      exact .ite (fun _ => .fail rfl) fun hne => absurd rfl hne
    | true =>
      have htake : (u :: rest).take ((u :: rest).takeWhile CodeUnit.isWord).length = _ :=
        (List.prefix_iff_eq_take.mp (List.takeWhile_prefix CodeUnit.isWord)).symm
      rw [List.takeWhile_cons_of_pos hword] at htake ⊢
      generalize rest.takeWhile CodeUnit.isWord = name at htake ⊢
      refine .ite (fun hend => absurd hend (by simp)) fun _ => ?_
      refine .look (unitAt_apply (DescentState.getElem?_position hunits)) ?_
      refine .ite (fun hdigit => .fail ?_) fun hdigit => ?_
      · simp only [isGroupName, hdigit]
        rfl
      · rw [if_neg (by simp [isGroupName, hdigit])]
        have hunread : (s.forward (u :: name).length).unread source =
            (u :: rest).drop (u :: name).length := by rw [DescentState.unread_forward, hunits]
        rw [← hunread]
        refine .ifNextIs (fun rest' hclose => ?_) fun hclose => .fail ?_
        · refine .look (unitsFrom_apply (Nat.le_add_right _ _) (DescentState.lt_size hclose).le)
            (.advance hclose (.pure ?_))
          have htext := s.extract_eq source (u :: name).length
          rw [hunits, htake] at htext
          rw [hclose, DescentState.position_forward, htext]
          exact ⟨_, if_neg (by simp [startsWith]), by simp⟩
        · rw [hclose]
          exact if_pos rfl

end Names

/-! ## §3 Bounds -/

/-- Reads the digits that continue a number. -/
def countFrom : Nat → Nat → Descent (Option Nat)
  | 0, _ => unended
  | left + 1, n => do
    let n := n * 10 + ((← peek source) - unit '0')
    if maxRepeatCount < n then return none
    else
      advance source
      if ← nextSatisfies source CodeUnit.isDigit then countFrom left n else return some n

/-- Reads a run of digits whose value is at most `maxRepeatCount`. -/
def lexCount : Descent (Option Nat) := do
  if ← nextSatisfies source CodeUnit.isDigit then countFrom source rounds 0 else return none

/-- Reads the upper bound and the closing brace, behind the comma; the opening one stands at
`brace`. -/
def lexUpperBound (brace min : Nat) : Descent Bounds := do
  if ← skip source '}' then return ⟨min, none⟩
  else
    match ← lexCount source rounds with
    | none => fail .badBraceExpression brace
    | some max =>
      if ← nextIs source '}' then
        if max < min then fail .badBraceExpression brace
        else
          advance source
          return ⟨min, some max⟩
      else fail .badBraceExpression brace

/-- Reads the bounds that the brace at the position opens. -/
def lexBraces : Descent Bounds := do
  let brace ← position
  advance source
  match ← lexCount source rounds with
  | none => fail .badBraceExpression brace
  | some min =>
    if ← skip source '}' then return ⟨min, some min⟩
    else if ← skip source ',' then lexUpperBound source rounds brace min
    else fail .badBraceExpression brace

/-- Reads the quantifier that the next unit opens. -/
def lexBounds : Descent Bounds := do
  let u ← peek source
  if u = unit '*' then
    advance source
    return ⟨0, none⟩
  else if u = unit '+' then
    advance source
    return ⟨1, none⟩
  else if u = unit '?' then
    advance source
    return ⟨0, some 1⟩
  else lexBraces source rounds

section Bounds

variable {source rounds} {s : DescentState} {E : SyntaxError → Prop}

/-- The number whose decimal digits are those of `n` and then the others. -/
def continued (n : Nat) (digits : List CodeUnit) : Nat :=
  digits.foldl (fun n d => n * 10 + (d - unit '0')) n

theorem le_continued (n : Nat) (digits : List CodeUnit) : n ≤ continued n digits := by
  induction digits generalizing n with
  | nil => exact le_rfl
  | cons d digits ih =>
    have hstep : n ≤ n * 10 + (d - unit '0') := by omega
    exact hstep.trans (ih _)

theorem leadingDigits_of_head? {units : List CodeUnit}
    (h : ∀ u ∈ units.head?, CodeUnit.isDigit u = false) : leadingDigits units = [] :=
  takeWhile_of_head? h

theorem leadingDigits_cons {u : CodeUnit} (hu : u.isDigit = true) (rest : List CodeUnit) :
    leadingDigits (u :: rest) = u :: leadingDigits rest :=
  List.takeWhile_cons_of_pos hu

/-- What reading digits comes to: nothing if the number is too large, or else the number,
behind all of them. -/
inductive Counts (s : DescentState) (n : Nat) (digits : List CodeUnit) :
    Option Nat → DescentState → Prop where
  | large {t : DescentState} (h : maxRepeatCount < continued n digits) : Counts s n digits none t
  | read (h : continued n digits ≤ maxRepeatCount) :
      Counts s n digits (some (continued n digits)) (s.forward digits.length)

/-- By induction on the rounds. -/
theorem goes_countFrom {n left : Nat} {u : CodeUnit} {rest : List CodeUnit}
    (hleft : source.size < s.position + left) (h : s.unread source = u :: rest) :
    Goes source (countFrom source left n) s (Counts s n (u :: leadingDigits rest)) E := by
  induction left generalizing s n u rest with
  | zero => exact .behindEnd hleft
  | succ left ih =>
    refine .look (peek_apply h) (.ite (fun hlarge => .pure ?_) fun hsmall => .advance h ?_)
    · exact .large (hlarge.trans_le (le_continued _ (leadingDigits rest)))
    · have hunread : (s.forward 1).unread source = rest := DescentState.unread_forward_one h
      refine .ifNextSatisfies (fun v rest' hcons hv => ?_) fun hnot => .pure ?_
      · obtain rfl := hunread.symm.trans hcons
        rw [leadingDigits_cons hv]
        refine (ih (DescentState.size_lt_forward_add hleft) hcons).onRead fun r t _ _ hrt => ?_
        cases hrt with
        | large hlarge => exact .large hlarge
        | read hsmall =>
          rw [DescentState.forward_forward, Nat.add_comm 1]
          exact .read hsmall
      · rw [hunread] at hnot
        rw [leadingDigits_of_head? hnot]
        exact .read (Nat.le_of_not_lt hsmall)

theorem goes_lexCount (hrounds : source.size < rounds) (s : DescentState) :
    Goes source (lexCount source rounds) s
      (fun r t => r = (lexCount? (s.unread source)).map Prod.fst ∧
        ∀ v n, lexCount? (s.unread source) = some (v, n) → t = s.forward n) E := by
  refine .ifNextSatisfies (fun u rest h hu => ?_) fun hnot => .pure ?_
  · refine (goes_countFrom (s.size_lt_add hrounds) h).onRead fun r t _ _ hrt => ?_
    have hcount : lexCount? (u :: rest) =
        if maxRepeatCount < continued 0 (u :: leadingDigits rest) then none
        else some (continued 0 (u :: leadingDigits rest), (u :: leadingDigits rest).length) := by
      rw [lexCount?, leadingDigits_cons hu]
      simp [decimalValue, continued]
    rw [h, hcount]
    cases hrt with
    | large hlarge =>
      rw [if_pos hlarge]
      exact ⟨rfl, fun _ _ hread => by cases hread⟩
    | read hsmall =>
      rw [if_neg (Nat.not_lt.mpr hsmall)]
      refine ⟨rfl, ?_⟩
      rintro _ _ ⟨⟩
      rfl
  · rw [lexCount?, leadingDigits_of_head? hnot]
    exact ⟨rfl, fun _ _ hread => by cases hread⟩

theorem agrees_lexUpperBound (hrounds : source.size < rounds) (s : DescentState)
    (brace min : Nat) :
    Agrees source (lexUpperBound source rounds brace min) s 0
      (orRefuse ⟨.badBraceExpression, brace⟩ (lexUpperBound? min (s.unread source))) := by
  unfold lexUpperBound?
  refine .ifSkip (fun rest h => .pure ?_) fun hopen => ?_
  · rw [h]
    exact ⟨1, rfl, rfl⟩
  · rw [if_neg (by simp [hopen])]
    refine .bind (goes_lexCount hrounds s) ?_
    rintro _ t ⟨rfl, ht⟩ -
    cases hmax : lexCount? (s.unread source) with
    | none => exact .fail rfl
    | some maxCount =>
      obtain ⟨max, n⟩ := maxCount
      obtain rfl := ht max n hmax
      have hbehind : (s.forward n).unread source = (s.unread source).drop n :=
        DescentState.unread_forward source s n
      dsimp only [Option.map_some]
      rw [← hbehind]
      refine .ifNextIs (fun rest h => ?_) fun hnot => .fail ?_
      · rw [h]
        refine .ite (fun hless => .fail ?_) fun hle => .advance h (.pure ?_)
        · rw [if_neg (by simp [Nat.not_le.mpr hless])]
          rfl
        · refine ⟨n + 1, ?_, by rw [DescentState.forward_forward, Nat.zero_add]⟩
          rw [if_pos (by simpa [startsWith] using hle)]
          rfl
      · rw [hnot]
        rfl

theorem agrees_lexBraces (hrounds : source.size < rounds) {u : CodeUnit} {rest : List CodeUnit}
    (h : s.unread source = u :: rest) :
    Agrees source (lexBraces source rounds) s 1
      (orRefuse ⟨.badBraceExpression, s.position⟩ (lexBraces? rest)) := by
  have hunread : (s.forward 1).unread source = rest := DescentState.unread_forward_one h
  refine .look position_apply (.advance h (.bind (goes_lexCount hrounds _) ?_))
  rintro _ t ⟨rfl, ht⟩ -
  rw [hunread] at ht ⊢
  unfold lexBraces?
  cases hmin : lexCount? rest with
  | none => exact .fail rfl
  | some minCount =>
    obtain ⟨min, n⟩ := minCount
    obtain rfl := ht min n hmin
    have hbehind : ((s.forward 1).forward n).unread source = rest.drop n := by
      rw [DescentState.unread_forward, hunread]
    dsimp only [Option.map_some]
    rw [← hbehind]
    refine .ifSkip (fun rest' hclose => .pure ?_) fun hopen => ?_
    · rw [hclose]
      exact ⟨n + 1, rfl, by simp only [DescentState.forward_forward, Nat.add_assoc]⟩
    · rw [hopen]
      refine .ifSkip (fun rest' hcomma => ?_) fun hnot => .fail ?_
      · rw [hcomma, if_neg Bool.false_ne_true, if_pos (by rfl)]
        have hupper := agrees_lexUpperBound hrounds (((s.forward 1).forward n).forward 1)
          s.position min
        rw [DescentState.forward_forward, DescentState.unread_forward, hunread] at hupper
        cases hbound : lexUpperBound? min (rest.drop (n + 1)) with
        | none =>
          rw [hbound] at hupper
          exact hupper.goes nofun fun _ he => he
        | some found =>
          rw [hbound] at hupper
          refine hupper.goes (fun b k hb => ?_) nofun
          cases hb
          refine ⟨n + 1 + k, rfl, ?_⟩
          simp only [DescentState.forward_forward]
          congr 1
          omega
      · rw [hnot]
        rfl

theorem agrees_lexBounds (hrounds : source.size < rounds) {u : CodeUnit} {rest : List CodeUnit}
    (h : s.unread source = u :: rest) :
    Agrees source (lexBounds source rounds) s 1 (LineRegex.lexBounds s.position u rest) := by
  have hone (b : Bounds) : Agrees source (do advance source; return b) s 1 (.ok (b, 0)) :=
    .advance h (.pure ⟨0, rfl, rfl⟩)
  refine .look (peek_apply h) (Agrees.ite (fun _ => hone _) fun _ => .ite (fun _ => hone _)
    fun _ => .ite (fun _ => hone _) fun _ => ?_)
  have hbraces := agrees_lexBraces hrounds h
  generalize lexBraces? rest = found at hbraces
  cases found with
  | none => exact hbraces
  | some found => exact hbraces

end Bounds

/-! ## §4 Escapes -/

/-- Reads the digits that continue the number of a group. -/
def lexNumber : Nat → Nat → Descent Nat
  | 0, _ => unended
  | left + 1, n => do
    if ← nextSatisfies source CodeUnit.isDigit then
      let u ← peek source
      advance source
      lexNumber left (min (n * 10 + (u - unit '0')) (maxRepeatCount + 1))
    else return n

/-- Reads the two hexadecimal digits of the escape at a position. -/
def lexHexPair (escape : Nat) : Descent CodeUnit := do
  let first ← position
  if first + 1 < source.size then
    match (← unitAt source first).hexValue? with
    | none => fail .badEscape escape
    | some high =>
      match (← unitAt source (first + 1)).hexValue? with
      | none => fail .badEscape escape
      | some low =>
        moveTo source (first + 2)
        return high * 16 + low
  else fail .badEscape escape

/-- Reads what follows the unit `u` behind the backslash at a position. -/
def lexEscapeOf (inBrackets : Bool) (escape : Nat) (u : CodeUnit) : Descent Escape := do
  match letterEscape? u with
  | some e => return .ofClass e
  | none =>
    if u = unit 'c' then
      if ← nextSatisfies source CodeUnit.isAlpha then
        let v ← peek source
        advance source
        return .ofClass (.single (v % 32))
      else fail .badEscape escape
    else if u = unit 'x' then return .ofClass (.single (← lexHexPair source escape))
    else if u = unit 'b' then
      if inBrackets then return .ofClass (.single 8) else fail .unsupportedFeature escape
    else if u = unit 'B' then fail .unsupportedFeature escape
    else if u = unit 'k' then
      if inBrackets then fail .badEscape escape
      else if ← skip source '<' then
        return .reference ⟨escape, .name (← lexGroupName source rounds)⟩
      else fail .badEscape escape
    else if u.isDigit then
      if inBrackets then fail .badEscape escape
      else return .reference ⟨escape, .number (← lexNumber source rounds (u - unit '0'))⟩
    else if u.isAlpha then fail .badEscape escape
    else return .ofClass (.single u)

/-- Reads the escape at the position. -/
def lexEscape (inBrackets : Bool) : Descent Escape := do
  let escape ← position
  advance source
  if ← atEnd source then fail .badEscape escape
  else
    let u ← peek source
    advance source
    lexEscapeOf source rounds inBrackets escape u

section Escapes

variable {source rounds} {s : DescentState} {E : SyntaxError → Prop} {u : CodeUnit}
  {rest : List CodeUnit}

/-- By induction on the rounds: past the largest count, numbers are not told apart. -/
theorem goes_lexNumber {n left : Nat} (hleft : source.size < s.position + left) :
    Goes source (lexNumber source left (min n (maxRepeatCount + 1))) s
      (fun r t =>
        r = min (continued n (leadingDigits (s.unread source))) (maxRepeatCount + 1) ∧
          t = s.forward (leadingDigits (s.unread source)).length) E := by
  induction left generalizing s n with
  | zero => exact .behindEnd hleft
  | succ left ih =>
    refine .ifNextSatisfies (fun u rest h hu => ?_) fun hnot => .pure ?_
    · refine .look (peek_apply h) (.advance h ?_)
      have hcapped : min (min n (maxRepeatCount + 1) * 10 + (u - unit '0')) (maxRepeatCount + 1) =
          min (n * 10 + (u - unit '0')) (maxRepeatCount + 1) := by omega
      rw [hcapped, h, leadingDigits_cons hu]
      refine (ih (DescentState.size_lt_forward_add hleft)).onRead ?_
      rw [DescentState.unread_forward_one h]
      rintro _ _ - - ⟨rfl, rfl⟩
      rw [List.length_cons, DescentState.forward_forward, Nat.add_comm 1]
      exact ⟨rfl, rfl⟩
    · rw [leadingDigits_of_head? hnot]
      exact ⟨rfl, rfl⟩

theorem agrees_lexHexPair (s : DescentState) (escape : Nat) :
    Agrees source (lexHexPair source escape) s 0
      (orRefuse ⟨.badEscape, escape⟩ ((hexPair? (s.unread source)).map (·, 2))) := by
  refine .look position_apply ?_
  have hlength := s.length_unread source
  cases hunits : s.unread source with
  | nil =>
    rw [hunits, List.length_nil] at hlength
    exact .ite (fun hlt => by omega) fun _ => .fail rfl
  | cons a rest =>
    cases rest with
    | nil =>
      rw [hunits, List.length_singleton] at hlength
      exact .ite (fun hlt => by omega) fun _ => .fail rfl
    | cons b rest =>
      have hb : source[s.position + 1]? = some b := by
        rw [← s.getElem?_unread, hunits]
        rfl
      refine .ite (fun hlt => ?_) fun hge => ?_
      · refine .look (unitAt_apply (DescentState.getElem?_position hunits)) ?_
        simp only [hexPair?]
        cases a.hexValue? with
        | none => exact .fail rfl
        | some high =>
          refine .look (unitAt_apply hb) ?_
          cases b.hexValue? with
          | none => exact .fail rfl
          | some low =>
            exact .step (moveTo_apply (Nat.le_add_right _ 2) hlt) (Nat.le_add_right _ 2) hlt
              (.pure ⟨2, rfl, rfl⟩)
      · rw [hunits, List.length_cons, List.length_cons] at hlength
        omega

theorem controlLetter?_of_head? {units : List CodeUnit}
    (h : ∀ u ∈ units.head?, CodeUnit.isAlpha u = false) : controlLetter? units = none := by
  cases units with
  | nil => rfl
  | cons u rest => exact if_neg (by simp [h u rfl])

theorem agrees_lexEscapeOf_class (h : s.unread source = u :: rest) {inBrackets : Bool}
    {escape : Nat} (hunits : u = unit 'b' ∨ u = unit 'k' ∨ u.isDigit ∧ u ≠ unit '0' →
      inBrackets = true) :
    Agrees source (do advance source; lexEscapeOf source rounds inBrackets escape u) s 0
      (do let (e, n) ← lexClassEscape escape (u :: rest); return (.ofClass e, n)) := by
  refine .advance h ?_
  unfold lexEscapeOf lexClassEscape
  dsimp only
  have hunread : (s.forward 1).unread source = rest := DescentState.unread_forward_one h
  cases hletter : letterEscape? u with
  | some e => exact .pure ⟨1, rfl, rfl⟩
  | none =>
    refine .ite (fun hc => ?_) fun hc => .ite (fun hx => ?_) fun hx => .ite (fun hb => ?_) fun hb =>
      .ite (fun hB => ?_) fun hB => .ite (fun hk => ?_) fun hk => .ite (fun hdigit => ?_)
      fun hdigit => .ite (fun halpha => ?_) fun halpha => ?_
    · rw [if_pos hc]
      refine .ifNextSatisfies (fun v rest' hcons hv => ?_) fun hnot => .fail ?_
      · refine .look (peek_apply hcons) (.advance hcons (.pure ⟨2, ?_, rfl⟩))
        rw [← hunread, hcons, controlLetter?, if_pos hv]
        rfl
      · rw [hunread] at hnot
        rw [controlLetter?_of_head? hnot]
        rfl
    · rw [if_neg hc, if_pos hx]
      have hpair := @agrees_lexHexPair source (s.forward 1) escape
      rw [hunread] at hpair
      generalize hexPair? rest = pair at hpair ⊢
      cases pair with
      | none =>
        refine hpair.bind (fun _ _ hread => by cases hread) ?_
        rintro _ ⟨⟩
        rfl
      | some v =>
        refine hpair.bind (fun w n hw => ?_) fun _ hrefused => by cases hrefused
        cases hw
        exact .pure ⟨3, rfl, rfl⟩
    · rw [if_neg hc, if_neg hx, if_pos hb, if_pos (hunits (.inl hb))]
      exact .pure ⟨1, rfl, rfl⟩
    · rw [if_neg hc, if_neg hx, if_neg hb, if_pos hB]
      exact .fail rfl
    · rw [if_neg hc, if_neg hx, if_neg hb, if_neg hB, if_pos (hunits (.inr (.inl hk)))]
      subst hk
      exact .fail rfl
    · have hzero : u ≠ unit '0' := by
        rintro rfl
        cases hletter
      rw [if_neg hc, if_neg hx, if_neg hb, if_neg hB,
        if_pos (hunits (.inr (.inr ⟨hdigit, hzero⟩))), if_pos (by simp [hdigit])]
      exact .fail rfl
    · rw [if_neg hc, if_neg hx, if_neg hb, if_neg hB, if_pos (by simp [halpha])]
      exact .fail rfl
    · rw [if_neg hc, if_neg hx, if_neg hb, if_neg hB, if_neg (by simp [halpha, hdigit])]
      exact .pure ⟨1, rfl, rfl⟩

/-- An escape is read as what stands behind the backslash is read. -/
theorem agrees_lexEscape_of {inBrackets : Bool} {r : List CodeUnit → Checked (Escape × Nat)}
    (h : s.unread source = u :: rest) (hend : r [] = refuse .badEscape s.position)
    (hof : ∀ v rest', (s.forward 1).unread source = v :: rest' →
      Agrees source (do advance source; lexEscapeOf source rounds inBrackets s.position v)
        (s.forward 1) 0 (r (v :: rest'))) :
    Agrees source (lexEscape source rounds inBrackets) s 1 (r rest) := by
  rw [← DescentState.unread_forward_one h]
  refine .look position_apply (.advance h (.ifAtEnd (fun hnil => .fail ?_) fun v rest' hcons => ?_))
  · rw [hnil, hend]
    rfl
  · rw [hcons]
    refine .look (peek_apply hcons) ((hof v rest' hcons).goes (fun e n he => ⟨n, he, ?_⟩)
      fun e he => he)
    rw [DescentState.forward_forward, Nat.zero_add]

theorem agrees_lexEscape_class (h : s.unread source = u :: rest) :
    Agrees source (lexEscape source rounds true) s 1
      (do let (e, n) ← lexClassEscape s.position rest; return (.ofClass e, n)) :=
  agrees_lexEscape_of
    (r := fun units => do
      let (e, n) ← lexClassEscape s.position units
      return (.ofClass e, n)) h rfl fun _ _ hcons => agrees_lexEscapeOf_class hcons fun _ => rfl

theorem agrees_lexEscapeOf_name (hrounds : source.size < rounds) {escape : Nat}
    (hescape : s.position = escape + 1) (h : s.unread source = unit 'k' :: rest) :
    Agrees source (do advance source; lexEscapeOf source rounds false escape (unit 'k')) s 0
      (do
        let (target, n) ← lexNamedTarget escape rest
        return (.reference ⟨escape, target⟩, 1 + n)) := by
  have hnamed : lexEscapeOf source rounds false escape (unit 'k') =
      (do if ← skip source '<' then
            return .reference ⟨escape, .name (← lexGroupName source rounds)⟩
          else fail .badEscape escape) := rfl
  rw [hnamed, ← DescentState.unread_forward_one h]
  refine .advance h (.ifSkip (fun rest' hopen => ?_) fun hnot => .fail ?_)
  · have hname := agrees_lexGroupName hrounds ((s.forward 1).forward 1)
    have hposition : ((s.forward 1).forward 1).position = escape + 3 := by
      simp only [DescentState.position_forward, hescape]
    rw [hposition, DescentState.unread_forward_one hopen] at hname
    rw [hopen, lexNamedTarget, if_pos (by simp [startsWith]), List.drop_one, List.tail_cons]
    refine hname.bind (fun name n hn => .pure ⟨1 + (1 + n), ?_, ?_⟩) fun e he => ?_
    · rw [hn]
      rfl
    · simp only [DescentState.forward_forward]
      congr 1
      omega
    · rw [he]
      rfl
  · rw [lexNamedTarget, hnot]
    rfl

theorem digit_bounds (hdigit : u.isDigit = true) : 48 ≤ u ∧ u ≤ 57 := by
  have h0 : unit '0' = 48 := rfl
  have h9 : unit '9' = 57 := rfl
  simp only [CodeUnit.isDigit, Bool.and_eq_true, decide_eq_true_eq] at hdigit
  grind

theorem lexEscapeOf_digit {escape : Nat} (hdigit : u.isDigit = true) (hzero : u ≠ unit '0') :
    lexEscapeOf source rounds false escape u =
      (do return .reference ⟨escape, .number (← lexNumber source rounds (u - unit '0'))⟩) := by
  obtain ⟨hlow, hhigh⟩ := digit_bounds hdigit
  interval_cases u
  · exact absurd rfl hzero
  all_goals rfl

theorem agrees_lexEscapeOf_number (hrounds : source.size < rounds) {escape : Nat}
    (h : s.unread source = u :: rest) (hdigit : u.isDigit = true) (hzero : u ≠ unit '0') :
    Agrees source (do advance source; lexEscapeOf source rounds false escape u) s 0
      (.ok (.reference ⟨escape, .number (referenceNumber (leadingDigits (u :: rest)))⟩,
        (leadingDigits (u :: rest)).length)) := by
  have hcapped : min (u - unit '0') (maxRepeatCount + 1) = u - unit '0' := by
    refine min_eq_left ((Nat.sub_le_sub_right (digit_bounds hdigit).2 _).trans ?_)
    decide
  rw [lexEscapeOf_digit hdigit hzero, leadingDigits_cons hdigit, ← hcapped]
  refine .advance h (.bind (goes_lexNumber (DescentState.size_lt_add hrounds _)) ?_)
  rw [DescentState.unread_forward_one h]
  rintro _ _ ⟨rfl, rfl⟩ -
  refine .pure ⟨(u :: leadingDigits rest).length, ?_, ?_⟩
  · have hvalue : continued (u - unit '0') (leadingDigits rest) =
        decimalValue (u :: leadingDigits rest) := by simp [continued, decimalValue]
    rw [hvalue, referenceNumber]
  · simp only [DescentState.forward_forward, List.length_cons]
    congr 1
    omega

theorem agrees_lexEscape (hrounds : source.size < rounds) (h : s.unread source = u :: rest) :
    Agrees source (lexEscape source rounds false) s 1 (LineRegex.lexEscape s.position rest) := by
  refine agrees_lexEscape_of h rfl fun v rest' hcons => ?_
  unfold LineRegex.lexEscape
  dsimp only
  by_cases hb : v = unit 'b'
  · subst hb
    exact .advance hcons (.fail rfl)
  by_cases hk : v = unit 'k'
  · subst hk
    exact agrees_lexEscapeOf_name hrounds rfl hcons
  rw [if_neg hb, if_neg hk]
  by_cases hdigit : v.isDigit = true ∧ v ≠ unit '0'
  · rw [if_pos (by simp [hdigit])]
    exact agrees_lexEscapeOf_number hrounds hcons hdigit.1 hdigit.2
  · rw [if_neg (by simpa using hdigit)]
    refine agrees_lexEscapeOf_class hcons ?_
    rintro (hv | hv | hv)
    · exact absurd hv hb
    · exact absurd hv hk
    · exact absurd hv hdigit

end Escapes

/-! ## §5 Brackets -/

/-- Reads one unit or escape inside brackets. -/
def lexClassAtom : Descent ClassEscape := do
  let u ← peek source
  if u = unit '\\' then
    match ← lexEscape source rounds true with
    | .ofClass e => return e
    | .reference _ => return .single 0
  else
    advance source
    return .single u

/-- Whether a hyphen comes next that makes a range. -/
def startsRange : Descent Bool := do
  if ← nextIs source '-' then
    let hyphen ← position
    if hyphen + 1 < source.size then return (← unitAt source (hyphen + 1)) != unit ']'
    else return false
  else return false

/-- Reads one member. -/
def lexMember : Descent Member := do
  let place ← position
  match ← lexClassAtom source rounds with
  | .shorthand s =>
    if ← startsRange source then fail .badBracketExpression place else return .shorthand s
  | .single lo =>
    if ← startsRange source then
      advance source
      match ← lexClassAtom source rounds with
      | .shorthand _ => fail .badBracketExpression place
      | .single hi =>
        if hi < lo then fail .badBracketExpression place else return .range lo hi
    else return .single lo

/-- Reads members up to the closing bracket or the end of the pattern. -/
def lexMembers : Nat → Descent (List Member)
  | 0 => unended
  | left + 1 => do
    if ← nextSatisfies source (· != unit ']') then
      let m ← lexMember source rounds
      return m :: (← lexMembers left)
    else return []

/-- Reads the bracket expression that opens at the position. -/
def lexBracket (w : Width) : Descent CharClass := do
  let opening ← position
  advance source
  let negated ← skip source '^'
  let members ← lexMembers source rounds rounds
  if ← atEnd source then fail .badBracketExpression opening
  else
    advance source
    if members.isEmpty then fail .badBracketExpression opening
    else return .ofMembers w negated members

section Brackets

variable {source rounds} {s : DescentState} {E : SyntaxError → Prop} {u : CodeUnit}
  {rest : List CodeUnit}

theorem agrees_lexClassAtom (h : s.unread source = u :: rest) :
    Agrees source (lexClassAtom source rounds) s 1 (LineRegex.lexClassAtom s.position u rest) := by
  refine .look (peek_apply h) (Agrees.ite (fun _ => ?_) fun _ => .advance h (.pure ⟨0, rfl, rfl⟩))
  have hescape : Agrees source (lexEscape source rounds true) s 1 _ := agrees_lexEscape_class h
  generalize lexClassEscape s.position rest = r at hescape ⊢
  cases r with
  | error e =>
    refine hescape.bind nofun ?_
    rintro _ ⟨⟩
    rfl
  | ok found =>
    refine hescape.bind (fun e n he => ?_) nofun
    cases he
    exact .pure ⟨found.2, rfl, rfl⟩

theorem startsRange_apply :
    startsRange source s = some (.ok (rangeEnd? (s.unread source)).isSome, s) := by
  refine (bind_apply (nextIs_apply '-')).trans ?_
  cases hunits : s.unread source with
  | nil => rfl
  | cons a rest =>
    by_cases ha : a = unit '-'
    · subst ha
      have hlength := s.length_unread source
      rw [hunits, List.length_cons] at hlength
      rw [if_pos (by simp [startsWith])]
      refine (bind_apply position_apply).trans ?_
      cases rest with
      | nil =>
        rw [List.length_nil] at hlength
        rw [if_neg (by omega)]
        rfl
      | cons b rest =>
        have hb : source[s.position + 1]? = some b := by
          rw [← s.getElem?_unread, hunits]
          rfl
        rw [List.length_cons] at hlength
        rw [if_pos (by omega)]
        refine (bind_apply (unitAt_apply hb)).trans ?_
        have hrange : (rangeEnd? (unit '-' :: b :: rest)).isSome = (b != unit ']') := by
          by_cases hclose : b = unit ']' <;> simp [rangeEnd?, hclose]
        rw [hrange]
        rfl
    · have hrange : rangeEnd? (a :: rest) = none := by cases rest <;> simp [rangeEnd?, ha]
      rw [if_neg (by simp [startsWith, ha]), hrange]
      rfl

theorem eq_of_rangeEnd? {units : List CodeUnit} {v : CodeUnit}
    (h : rangeEnd? units = some (v, rest)) :
    units = unit '-' :: v :: rest := by
  unfold rangeEnd? at h
  split at h
  · split at h
    · rename_i hrange
      cases h
      simp only [Bool.and_eq_true, decide_eq_true_eq] at hrange
      rw [hrange.1]
    · cases h
  · cases h

theorem agrees_lexMember (h : s.unread source = u :: rest) :
    Agrees source (lexMember source rounds) s 1 (LineRegex.lexMember s.position u rest) := by
  unfold LineRegex.lexMember
  refine .look position_apply
    ((agrees_lexClassAtom h).bind (fun first n hfirst => ?_) fun e he => ?_)
  · have hbehind := DescentState.unread_forward_add h n
    rw [hfirst, ok_bind]
    dsimp only
    cases first with
    | shorthand c =>
      refine .look startsRange_apply ?_
      rw [hbehind]
      cases rangeEnd? (rest.drop n) with
      | none => exact .ite (fun hsome => by cases hsome) fun _ => .pure ⟨n, rfl, rfl⟩
      | some range => exact .ite (fun _ => .fail rfl) fun hnone => absurd rfl hnone
    | single lo =>
      refine .look startsRange_apply ?_
      rw [hbehind]
      cases hrange : rangeEnd? (rest.drop n) with
      | none => exact .ite (fun hsome => by cases hsome) fun _ => .pure ⟨n, rfl, rfl⟩
      | some range =>
        obtain ⟨v, rest'⟩ := range
        refine .ite (fun _ => ?_) fun hnone => absurd rfl hnone
        rw [eq_of_rangeEnd? hrange] at hbehind
        have hlast : Agrees source (lexClassAtom source rounds) _ 1 _ :=
          agrees_lexClassAtom (DescentState.unread_forward_one hbehind)
        have hposition : ((s.forward (1 + n)).forward 1).position = s.position + 1 + n + 1 := by
          simp only [DescentState.position_forward]
          omega
        rw [hposition] at hlast
        refine .advance hbehind (hlast.bind (fun last k hlast => ?_) fun e he => ?_)
        · dsimp only
          rw [hlast, ok_bind]
          cases last with
          | shorthand _ => exact .fail rfl
          | single hi =>
            refine .ite (fun hless => .fail (if_pos hless)) fun hle => ?_
            refine .pure ⟨n + 2 + k, if_neg hle, ?_⟩
            simp only [DescentState.forward_forward]
            congr 1
            omega
        · dsimp only
          rw [he]
          rfl
  · rw [he]
    rfl

/-- By induction on the rounds: the loop stops at the end of the pattern, or at a bracket that
closes. -/
theorem goes_lexMembers (opening : Nat) {left : Nat} (s : DescentState)
    (hleft : source.size < s.position + left) :
    Goes source (lexMembers source rounds left) s
      (fun ms t =>
        t.unread source = [] ∧ LineRegex.lexMembers opening s.position (s.unread source) =
          refuse .badBracketExpression opening ∨
        ∃ n rest, t = s.forward n ∧ t.unread source = unit ']' :: rest ∧
          LineRegex.lexMembers opening s.position (s.unread source) = .ok (ms, n + 1))
      (fun e => LineRegex.lexMembers opening s.position (s.unread source) = .error e) := by
  induction left generalizing s with
  | zero => exact .behindEnd hleft
  | succ left ih =>
    refine .ifNextSatisfies (fun u rest h hu => ?_) fun hnot => .pure ?_
    · have hopen : u ≠ unit ']' := by simpa using hu
      rw [h, LineRegex.lexMembers, if_neg hopen]
      refine (agrees_lexMember h).bind (fun m n hm => ?_) fun e he => ?_
      · have hposition : (s.forward (1 + n)).position = s.position + 1 + n := by
          rw [DescentState.position_forward, Nat.add_assoc]
        have hrest := ih (s.forward (1 + n)) (by omega)
        rw [DescentState.unread_forward_add h, hposition] at hrest
        rw [hm]
        dsimp only
        refine (hrest.onRefused fun e he => ?_).bind fun ms t ht _ => .pure ?_
        · rw [he]
        · rcases ht with ⟨hend, hread⟩ | ⟨k, rest', rfl, hclose, hread⟩
          · exact .inl ⟨hend, by rw [hread]; rfl⟩
          · refine .inr ⟨1 + n + k, rest', ?_, hclose, ?_⟩
            · rw [DescentState.forward_forward]
            · rw [hread]
              simp only [Nat.add_assoc]
      · rw [he]
    · cases h : s.unread source with
      | nil => exact .inl ⟨rfl, by rw [LineRegex.lexMembers]⟩
      | cons u rest =>
        obtain rfl : u = unit ']' := by simpa [h] using hnot
        exact .inr ⟨0, rest, rfl, rfl, by rw [LineRegex.lexMembers, if_pos rfl]⟩

theorem agrees_lexBracket (hrounds : source.size < rounds) (w : Width)
    (h : s.unread source = u :: rest) :
    Agrees source (lexBracket source rounds w) s 1 (LineRegex.lexBracket w s.position rest) := by
  refine .look position_apply (.advance h (.bind (.skip '^') ?_))
  rintro negated t ⟨hnegated, rfl⟩ -
  rw [DescentState.unread_forward_one h] at hnegated
  unfold LineRegex.lexBracket
  rw [← hnegated]
  dsimp only
  generalize (if negated = true then 1 else 0) = skipped
  have hmembers :
      Goes source (lexMembers source rounds rounds) (s.forward (1 + skipped)) _ _ :=
    goes_lexMembers s.position _ (DescentState.size_lt_add hrounds _)
  rw [DescentState.unread_forward_add h, DescentState.position_forward, ← Nat.add_assoc] at hmembers
  rw [DescentState.forward_forward]
  refine (hmembers.onRefused fun e he => ?_).bind ?_
  · rw [he]
  rintro members t (⟨hend, hread⟩ | ⟨n, rest', rfl, hclose, hread⟩) -
  · rw [hread]
    refine .ifAtEnd (fun _ => .fail rfl) fun u rest hcons => ?_
    rw [hend] at hcons
    cases hcons
  · rw [hread]
    refine .ifAtEnd (fun hend => ?_) fun v rest hcons => .advance hcons ?_
    · rw [hend] at hclose
      cases hclose
    · cases members with
      | nil => exact .ite (fun _ => .fail rfl) fun hne => absurd rfl hne
      | cons m ms =>
        refine .ite (fun hempty => by cases hempty) fun _ => .pure ⟨skipped + (n + 1), rfl, ?_⟩
        simp only [DescentState.forward_forward, Nat.add_assoc]

end Brackets

/-! ## §6 Openers -/

/-- Reads the name of the group at `opening`, behind its `<`. -/
def lexNamedOpener (opening : Nat) : Descent GroupOpener := do
  if ← nextSatisfies source (fun u => u == unit '=' || u == unit '!') then
    fail .unsupportedFeature opening
  else
    let place ← position
    return .named (← lexGroupName source rounds) place

/-- Reads the opener of the group at `opening`, behind its parenthesis. -/
def lexGroupOpener (opening : Nat) : Descent GroupOpener := do
  if ← skip source '?' then
    if ← atEnd source then fail .missingParen opening
    else
      let u ← peek source
      if u = unit ':' then
        advance source
        return .plain
      else if u = unit '<' then
        advance source
        lexNamedOpener source rounds opening
      else if u = unit 'P' then
        advance source
        if ← skip source '<' then lexNamedOpener source rounds opening
        else fail .badGroupName (← position)
      else fail .unsupportedFeature opening
  else return .numbered

section Openers

variable {source rounds} {s : DescentState}

theorem agrees_lexNamedOpener (hrounds : source.size < rounds) (s : DescentState) (opening : Nat) :
    Agrees source (lexNamedOpener source rounds opening) s 0
      (LineRegex.lexNamedOpener opening s.position (s.unread source)) := by
  have hunsupported : (s.unread source).head?.any (fun u => u == unit '=' || u == unit '!') =
      (startsWith '=' (s.unread source) || startsWith '!' (s.unread source)) := by
    cases s.unread source <;> simp [startsWith]
  refine .look (nextSatisfies_apply _) ?_
  rw [hunsupported]
  refine Agrees.ite (fun _ => .fail rfl) fun _ => .look position_apply ?_
  refine (agrees_lexGroupName hrounds s).bind (fun name n hn => .pure ⟨n, ?_, rfl⟩) fun e he => ?_
  · rw [hn]
    rfl
  · rw [he]
    rfl

/-- The name, counted from behind the parenthesis. -/
theorem goes_lexNamedOpener (hrounds : source.size < rounds) {opening k : Nat}
    {units : List CodeUnit} (hopening : s.position = opening + 1)
    (hunits : (s.forward k).unread source = units) :
    Goes source (lexNamedOpener source rounds opening) (s.forward k)
      (fun o t => ∃ n, (do
        let (o, n) ← LineRegex.lexNamedOpener opening (opening + 1 + k) units
        return (o, k + n)) = .ok (o, n) ∧ t = s.forward (0 + n))
      (fun e => (do
        let (o, n) ← LineRegex.lexNamedOpener opening (opening + 1 + k) units
        return (o, k + n)) = .error e) := by
  have hposition : (s.forward k).position = opening + 1 + k := by
    rw [DescentState.position_forward, hopening]
  rw [← hposition, ← hunits]
  refine (agrees_lexNamedOpener hrounds _ opening).goes (fun o n ho => ⟨k + n, ?_, ?_⟩)
    fun e he => ?_
  · rw [ho]
    rfl
  · rw [DescentState.forward_forward, Nat.zero_add, Nat.zero_add]
  · rw [he]
    rfl

/-- Behind the parenthesis. -/
theorem agrees_lexGroupOpener (hrounds : source.size < rounds) (s : DescentState) {opening : Nat}
    (hopening : s.position = opening + 1) :
    Agrees source (lexGroupOpener source rounds opening) s 0
      (LineRegex.lexGroupOpener opening (s.unread source)) := by
  unfold LineRegex.lexGroupOpener
  refine .ifSkip (fun rest hquestion => ?_) fun hnot => .pure ⟨0, by rw [hnot]; rfl, rfl⟩
  rw [hquestion, if_neg (by simp [startsWith])]
  have hrest : (unit '?' :: rest).drop 1 = rest := rfl
  rw [hrest, ← DescentState.unread_forward_one hquestion]
  refine .ifAtEnd (fun hend => .fail (by rw [hend]; rfl)) fun u rest' h =>
    .look (peek_apply h) ?_
  have hbehind : ((s.forward 1).forward 1).unread source = rest' :=
    DescentState.unread_forward_one h
  rw [h]
  dsimp only
  refine .ite (fun hcolon => ?_) fun hcolon => .ite (fun hless => ?_) fun hless =>
    .ite (fun hP => ?_) fun hP => .fail ?_
  · rw [if_pos hcolon]
    exact .advance h (.pure ⟨2, rfl, rfl⟩)
  · rw [if_neg hcolon, if_pos hless]
    refine .advance h ?_
    rw [DescentState.forward_forward] at hbehind ⊢
    exact goes_lexNamedOpener hrounds hopening hbehind
  · rw [if_neg hcolon, if_neg hless, if_pos hP, ← hbehind]
    refine .advance h (.ifSkip (fun rest'' hopen => ?_) fun hnot => .look position_apply (.fail ?_))
    · rw [hopen, if_pos (by simp [startsWith])]
      have hname := DescentState.unread_forward_one hopen
      simp only [DescentState.forward_forward] at hname ⊢
      exact goes_lexNamedOpener hrounds hopening hname
    · rw [hnot]
      simp only [DescentState.position_forward, hopening]
      rfl
  · rw [if_neg hcolon, if_neg hless, if_neg hP]
    rfl

end Openers

end LineRegex.Descent
