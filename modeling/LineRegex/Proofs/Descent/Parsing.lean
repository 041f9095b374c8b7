/-
LineRegex.Proofs.Descent.Parsing — a pattern read by functions that call one another.

There is a function for each rule of the grammar, and a group calls the function for an
alternation again. That one is handed down to it as `inner`, and the calls within calls are
counted like the rounds of a loop. So that both end is a theorem: it holds because every round
and every way back to the same function moves the position on.

What the descent has in its local variables, the reader of `LineRegex.Pattern.Parser` has in a
draft. So wherever the descent stands, what is left to be read means the same to both, as part of
any draft with as many open groups.

  §1 Functions — `parseAlternation` and those that it calls.
  §2 Drafts    — what remains of the pattern, as part of a draft.
  §3 Groups
  §4 Items
  §5 Branches
-/
import LineRegex.Pattern.Parser
import LineRegex.Proofs.Descent.Lexers

namespace LineRegex.Descent

variable (w : Width) (source : Text) (rounds : Nat)

/-! ## §1 Functions -/

/-- Counts a group that opens. -/
def enter : Descent Unit := modify fun s => { s with depth := s.depth + 1 }

/-- Counts a group that closes. -/
def leave : Descent Unit := modify fun s => { s with depth := s.depth - 1 }

/-- Gives a group its number, if it captures. -/
def numberGroup : GroupOpener → Descent (Option Nat)
  | .plain => return none
  | .numbered => do
    let s ← get
    set { s with groupCount := s.groupCount + 1 }
    return some (s.groupCount + 1)
  | .named name place => do
    let s ← get
    if (s.names.find? name).isSome then fail .badGroupName place
    else
      set { s with
        groupCount := s.groupCount + 1
        names := s.names.insert name (s.groupCount + 1) }
      return some (s.groupCount + 1)

/-- Reads what stands in front of the content of a group: where the group begins, and its
number. -/
def parseOpening : Descent (Nat × Option Nat) := do
  let opening ← position
  advance source
  enter
  if maxNestingDepth < (← get).depth then fail .nestingTooDeep opening
  else
    let opener ← lexGroupOpener source rounds opening
    return (opening, ← numberGroup opener)

/-- Reads the quantifier behind an atom, if one follows, and applies it. -/
def parseSuffix (atom : Expr Reference) : Descent (Expr Reference) := do
  if ← nextSatisfies source CodeUnit.isQuantifierStart then
    if atom.isAnchor then fail .emptyOperand (← position)
    else
      let bounds ← lexBounds source rounds
      if ← nextSatisfies source CodeUnit.isQuantifierStart then
        fail .multipleRepeat (← position)
      else return .quantified atom bounds
  else return atom

section Calls

variable (inner : Descent (Expr Reference))

/-- Reads the group that opens at the position. -/
def parseGroup : Descent (Expr Reference) := do
  let (opening, index) ← parseOpening source rounds
  let body ← inner
  if ← skip source ')' then
    leave
    return .group index body
  else fail .missingParen opening

/-- Reads a unit, an escape, a bracket expression or a group. -/
def parseAtom : Descent (Expr Reference) := do
  let u ← peek source
  if u = unit '(' then parseGroup source rounds inner
  else if u = unit '[' then return .charClass (← lexBracket source rounds w)
  else if u = unit '\\' then return (← lexEscape source rounds false).toExpr w
  else
    advance source
    return if u = unit '.' then .any
      else if u = unit '^' then .anchor .lineStart
      else if u = unit '$' then .anchor .lineEnd
      else .unit u

/-- Reads an atom and the quantifier that may follow it. -/
def parseQuantified : Descent (Expr Reference) := do
  if (← peek source).isQuantifierStart then fail .emptyOperand (← position)
  else parseSuffix source rounds (← parseAtom w source rounds inner)

/-- Reads an item, if one follows, and those behind it. -/
def parseItems : Nat → Descent (List (Expr Reference))
  | 0 => unended
  | left + 1 => do
    if ← nextSatisfies source (fun u => u != unit '|' && u != unit ')') then
      let item ← parseQuantified w source rounds inner
      return item :: (← parseItems left)
    else return []

/-- Reads items up to a bar, a closing parenthesis or the end of the pattern. -/
def parseConcat : Descent (Expr Reference) := do
  return .inSequence (← parseItems w source rounds inner rounds)

/-- Reads a branch, and those behind it. -/
def parseBranches : Nat → Descent (List (Expr Reference))
  | 0 => unended
  | left + 1 => do
    let branch ← parseConcat w source rounds inner
    if ← skip source '|' then return branch :: (← parseBranches left)
    else return [branch]

end Calls

/-- Reads branches with bars between them. Alternations may stand in one another, as deep as
there are levels. -/
def parseAlternation : Nat → Descent (Expr Reference)
  | 0 => unended
  | levels + 1 => do
    return .oneOf (← parseBranches w source rounds (parseAlternation levels) rounds)

/-- Reads a whole pattern. -/
def descend : Descent Pattern := do
  let root ← parseAlternation w source rounds rounds
  if ← atEnd source then
    let s ← get
    match root.resolve (Draft.groupOf s.groupCount s.names) with
    | .ok root => return { root, groupCount := s.groupCount, names := s.names }
    | .error e => fail e.fault e.position
  else fail .missingParen (← position)

/-! ## §2 Drafts -/

section

variable {w} {source} {rounds} {inner : Descent (Expr Reference)} {s t : DescentState}
  {level : Level} {frames : List Frame} {u : CodeUnit} {rest : List CodeUnit}

/-- What the unread units come to, as the rest of a pattern of which the draft has been read. -/
def remaining (w : Width) (source : Text) (s : DescentState) (level : Level)
    (frames : List Frame) : Checked Pattern := do
  let d ← Draft.read w s.position (s.unread source) ⟨level, frames, s.groupCount, s.names⟩
  d.finish

/-- What they come to behind an atom. -/
def suffixed (w : Width) (source : Text) (s : DescentState) (level : Level) (frames : List Frame)
    (atom : Expr Reference) : Checked Pattern := do
  let (item, n) ← lexSuffix s.position atom (s.unread source)
  remaining w source (s.forward n) (level.push item) frames

theorem remaining_end (h : s.unread source = []) :
    remaining w source s level frames =
      Draft.finish ⟨level, frames, s.groupCount, s.names⟩ := by
  rw [remaining, h, Draft.read]
  rfl

theorem remaining_bar (h : s.unread source = unit '|' :: rest) :
    remaining w source s level frames =
      remaining w source (s.forward 1) level.nextBranch frames := by
  rw [remaining, remaining, DescentState.unread_forward_one h, h, Draft.read]
  rfl

theorem remaining_open (w : Width) (level : Level) (frames : List Frame)
    (h : s.unread source = unit '(' :: rest) :
    remaining w source s level frames =
      if maxNestingDepth ≤ frames.length then refuse .nestingTooDeep s.position
      else (do
        let (opener, n) ← LineRegex.lexGroupOpener s.position rest
        let d ← Draft.openGroup ⟨level, frames, s.groupCount, s.names⟩ s.position opener
        (← Draft.read w (s.position + 1 + n) (rest.drop n) d).finish) := by
  rw [remaining, h, Draft.read, if_neg (by decide), if_pos rfl]
  split
  · rfl
  · simp only [bind_assoc]

theorem remaining_close {frame : Frame} (h : s.unread source = unit ')' :: rest) :
    remaining w source s level (frame :: frames) =
      suffixed w source (s.forward 1) frame.outer frames (.group frame.index level.tree) := by
  rw [remaining, h, Draft.read, if_neg (by decide), if_neg (by decide), if_pos rfl]
  simp only [Draft.closeGroup?, bind_assoc, suffixed, remaining, DescentState.unread_forward,
    DescentState.unread_forward_one h]
  rfl

theorem remaining_unopened (h : s.unread source = unit ')' :: rest) :
    remaining w source s level [] = refuse .missingParen s.position := by
  rw [remaining, h, Draft.read, if_neg (by decide), if_neg (by decide), if_pos rfl]
  rfl

theorem remaining_quantifier (h : s.unread source = u :: rest) (hu : u.isQuantifierStart = true) :
    remaining w source s level frames = refuse .emptyOperand s.position := by
  have hne (c : Char) (hc : (unit c).isQuantifierStart = false) : u ≠ unit c := by
    rintro rfl
    rw [hu] at hc
    cases hc
  rw [remaining, h, Draft.read, if_neg (hne '|' rfl), if_neg (hne '(' rfl), if_neg (hne ')' rfl),
    if_pos hu]
  rfl

theorem remaining_atom (w : Width) (level : Level) (frames : List Frame)
    (h : s.unread source = u :: rest) (hbar : u ≠ unit '|') (hopen : u ≠ unit '(')
    (hclose : u ≠ unit ')') (hquantifier : u.isQuantifierStart = false) :
    remaining w source s level frames = (do
      let (atom, n) ← lexAtom w s.position u rest
      suffixed w source (s.forward (1 + n)) level frames atom) := by
  rw [remaining, h, Draft.read, if_neg hbar, if_neg hopen, if_neg hclose,
    if_neg (by simp [hquantifier])]
  simp only [bind_assoc, suffixed, remaining, DescentState.unread_forward,
    DescentState.unread_forward_add h, List.drop_drop]
  simp only [DescentState.position_forward, Nat.add_assoc]
  rfl

/-! ## §3 Groups -/

theorem startsQuantifier_of_head? {units : List CodeUnit}
    (h : ∀ u ∈ units.head?, CodeUnit.isQuantifierStart u = false) :
    startsQuantifier units = false := by
  cases units with
  | nil => rfl
  | cons u rest => exact h u rfl

theorem agrees_parseSuffix (hrounds : source.size < rounds) (s : DescentState)
    (atom : Expr Reference) :
    Agrees source (parseSuffix source rounds atom) s 0
      (lexSuffix s.position atom (s.unread source)) := by
  unfold lexSuffix
  refine .ifNextSatisfies (fun u rest h hu => ?_) fun hnot => .pure ⟨0, ?_, rfl⟩
  · have hstarts : ¬(!u.isQuantifierStart) = true := by simp [hu]
    rw [h]
    dsimp only
    rw [if_neg hstarts]
    refine .ite (fun hanchor => .look position_apply (.fail (if_pos hanchor))) fun hanchor => ?_
    rw [if_neg hanchor]
    refine (agrees_lexBounds hrounds h).bind (fun bounds n hn => ?_) fun e he => by rw [he]; rfl
    rw [hn, ok_bind]
    dsimp only
    rw [← DescentState.unread_forward_add h]
    refine .ifNextSatisfies (fun v rest' hcons hv => .look position_apply (.fail ?_))
      fun hnot => .pure ⟨1 + n, ?_, ?_⟩
    · rw [hcons, startsQuantifier, if_pos hv, DescentState.position_forward, Nat.add_assoc]
      rfl
    · exact if_neg (by rw [startsQuantifier_of_head? hnot]; exact Bool.false_ne_true)
    · rw [Nat.zero_add]
  · cases h : s.unread source with
    | nil => rfl
    | cons u rest => exact if_pos (by simp [hnot u (by rw [h]; rfl)])

/-- The end of the pattern, or a parenthesis that closes. -/
def Stops (source : Text) (t : DescentState) : Prop :=
  t.unread source = [] ∨ ∃ rest, t.unread source = unit ')' :: rest

/-- The descent through an alternation comes back to the depth at which it began, in front of
something that ends the group. What remained, as the content of a group, is the same as what
remains behind the alternation. -/
def AlternationGoes (w : Width) (source : Text) (f : Descent (Expr Reference))
    (s : DescentState) : Prop :=
  ∀ frames : List Frame, frames.length = s.depth →
    Goes source f s
      (fun e t => t.depth = s.depth ∧ Stops source t ∧ ∃ level : Level, level.tree = e ∧
        remaining w source s .empty frames = remaining w source t level frames)
      (fun err => remaining w source s .empty frames = .error err)

/-- So it does wherever it may be called from a state. -/
def ContentGoes (w : Width) (source : Text) (inner : Descent (Expr Reference))
    (s : DescentState) : Prop :=
  ∀ t : DescentState, s.position < t.position → AlternationGoes w source inner t

theorem ContentGoes.behind (h : ContentGoes w source inner s) (hle : s.position ≤ t.position) :
    ContentGoes w source inner t :=
  fun t' ht => h t' (hle.trans_lt ht)

theorem goes_numberGroup (s : DescentState) {d : Draft} (hcount : d.groupCount = s.groupCount)
    (hnames : d.names = s.names) (opening : Nat) (opener : GroupOpener) :
    Goes source (numberGroup opener) s
      (fun index t => t.position = s.position ∧ t.depth = s.depth ∧
        d.openGroup opening opener =
          .ok ⟨.empty, ⟨opening, index, d.level⟩ :: d.frames, t.groupCount, t.names⟩)
      (fun err => d.openGroup opening opener = .error err) := by
  obtain ⟨level, frames, groupCount, names⟩ := d
  obtain rfl : groupCount = s.groupCount := hcount
  obtain rfl : names = s.names := hnames
  cases opener with
  | plain => exact .pure ⟨rfl, rfl, rfl⟩
  | numbered =>
    intro hs
    exact ⟨_, _, rfl, le_rfl, hs, .read ⟨rfl, rfl, rfl⟩⟩
  | named name place =>
    unfold Draft.openGroup
    dsimp only
    refine .look (b := s) rfl (.ite (fun htaken => .fail (if_pos htaken)) fun hfree => ?_)
    rw [if_neg hfree]
    intro hs
    exact ⟨_, _, rfl, le_rfl, hs, .read ⟨rfl, rfl, rfl⟩⟩

theorem goes_parseOpening (hrounds : source.size < rounds)
    (h : s.unread source = unit '(' :: rest) (level : Level) (hframes : frames.length = s.depth) :
    Goes source (parseOpening source rounds) s
      (fun found t => found.1 = s.position ∧ s.position < t.position ∧ t.depth = s.depth + 1 ∧
        remaining w source s level frames =
          remaining w source t .empty (⟨s.position, found.2, level⟩ :: frames))
      (fun err => remaining w source s level frames = .error err) := by
  have hunread : s.entered.unread source = rest := DescentState.unread_forward_one h
  have hcounted : enter (s.forward 1) = some (.ok (), s.entered) := rfl
  have hopen := remaining_open w level frames h
  refine .look position_apply (.advance h (.step hcounted le_rfl (DescentState.lt_size h) ?_))
  refine .look rfl (.ite (fun hdeep => .fail ?_) fun hshallow => ?_)
  · have hmany : maxNestingDepth < s.depth + 1 := hdeep
    exact hopen.trans (if_pos (by omega))
  have hfew : ¬maxNestingDepth < s.depth + 1 := hshallow
  rw [if_neg (by omega)] at hopen
  have hopener := agrees_lexGroupOpener hrounds s.entered rfl
  rw [hunread] at hopener
  refine hopener.bind (fun opener n ho => ?_) fun err he => by rw [hopen, he]; rfl
  rw [ho, ok_bind] at hopen
  dsimp only at hopen
  have hnumber := @goes_numberGroup source (s.entered.forward (0 + n))
    ⟨level, frames, s.groupCount, s.names⟩ rfl rfl s.position opener
  refine (hnumber.onRefused fun err he => by rw [hopen, he]; rfl).map ?_
  rintro index t - ⟨hposition, hdepth, hgroup⟩
  rw [Nat.zero_add] at hposition
  have hbody : t.unread source = rest.drop n := by
    rw [DescentState.unread_congr hposition, DescentState.unread_forward, hunread]
  have hbehind : t.position = s.position + 1 + n := hposition
  refine ⟨rfl, by omega, hdepth, ?_⟩
  rw [hopen, hgroup, ok_bind, remaining, hbehind, hbody]

theorem goes_parseGroup (hrounds : source.size < rounds)
    (h : s.unread source = unit '(' :: rest) (hinner : ContentGoes w source inner s) (level : Level)
    (hframes : frames.length = s.depth) :
    Goes source (parseGroup source rounds inner) s
      (fun e t => s.position < t.position ∧ t.depth = s.depth ∧
        remaining w source s level frames = suffixed w source t level frames e)
      (fun err => remaining w source s level frames = .error err) := by
  refine .bind (goes_parseOpening hrounds h level hframes) ?_
  rintro ⟨opening, index⟩ t ⟨rfl, hless, hdepth, hremaining⟩ -
  dsimp only at hremaining ⊢
  rw [hremaining]
  refine (hinner t hless _ (by rw [List.length_cons, hframes, hdepth])).bind ?_
  rintro e t' ⟨hsame, hstops, level', rfl, hrest⟩ hle
  rw [hrest]
  refine .ifSkip (fun rest' hclose => ?_) fun hnot => .fail ?_
  · have hcounted : leave (t'.forward 1) = some (.ok (), t'.left) := rfl
    refine .step hcounted le_rfl (DescentState.lt_size hclose) (.pure ⟨?_, ?_, ?_⟩)
    · exact hless.trans_le (hle.trans (Nat.le_succ _))
    · show t'.depth - 1 = s.depth
      omega
    · exact remaining_close hclose
  · rcases hstops with hend | ⟨rest', hclose⟩
    · rw [remaining_end hend]
      rfl
    · rw [hclose] at hnot
      simp [startsWith] at hnot

/-! ## §4 Items -/

theorem agrees_parseAtom (hrounds : source.size < rounds) (h : s.unread source = u :: rest)
    (hopen : u ≠ unit '(') :
    Agrees source (parseAtom w source rounds inner) s 1 (lexAtom w s.position u rest) := by
  refine .look (peek_apply h) ?_
  rw [if_neg hopen]
  refine Agrees.ite (fun _ => ?_) fun _ => .ite (fun _ => ?_) fun _ =>
    .advance h (.pure ⟨0, ?_, rfl⟩)
  · refine (agrees_lexBracket hrounds w h).bind (fun c n hc => .pure ⟨n, ?_, rfl⟩) fun err he => ?_
    · rw [hc]
      rfl
    · rw [he]
      rfl
  · refine (agrees_lexEscape hrounds h).bind (fun e n he => .pure ⟨n, ?_, rfl⟩) fun err he => ?_
    · rw [he]
      rfl
    · rw [he]
      rfl
  · split_ifs <;> rfl

/-- The units at which neither a branch nor a group ends. -/
def BeginsItem (u : CodeUnit) : Prop := u ≠ unit '|' ∧ u ≠ unit ')'

/-- Reading an atom moves on. -/
theorem goes_parseAtom (hrounds : source.size < rounds)
    (h : s.unread source = u :: rest) (hinner : ContentGoes w source inner s) (level : Level)
    (hframes : frames.length = s.depth) :
    Goes source (parseAtom w source rounds inner) s
      (fun e t => s.position < t.position ∧ t.depth = s.depth ∧
        (BeginsItem u → u.isQuantifierStart = false →
          remaining w source s level frames = suffixed w source t level frames e))
      (fun err => BeginsItem u → u.isQuantifierStart = false →
        remaining w source s level frames = .error err) := by
  by_cases hopen : u = unit '('
  · subst hopen
    refine .look (peek_apply h) ?_
    rw [if_pos rfl]
    refine (goes_parseGroup hrounds h hinner level hframes).imp (fun e t _ _ ht => ?_)
      fun err he _ _ => he
    exact ⟨ht.1, ht.2.1, fun _ _ => ht.2.2⟩
  · have hremaining (hu : BeginsItem u) (hquantifier : u.isQuantifierStart = false) :=
      remaining_atom w level frames h hu.1 hopen hu.2 hquantifier
    refine (agrees_parseAtom hrounds h hopen).goes (fun e n hn => ⟨?_, rfl, fun hu hq => ?_⟩)
      fun err he hu hq => ?_
    · rw [DescentState.position_forward]
      omega
    · rw [hremaining hu hq, hn]
      rfl
    · rw [hremaining hu hq, he]
      rfl

/-- Reading an item moves on, and what remained begins with the item. -/
theorem goes_parseQuantified (hrounds : source.size < rounds)
    (h : s.unread source = u :: rest) (hinner : ContentGoes w source inner s) (level : Level)
    (hframes : frames.length = s.depth) :
    Goes source (parseQuantified w source rounds inner) s
      (fun e t => s.position < t.position ∧ t.depth = s.depth ∧
        (BeginsItem u → remaining w source s level frames =
          remaining w source t (level.push e) frames))
      (fun err => BeginsItem u → remaining w source s level frames = .error err) := by
  refine .look (peek_apply h) (.ite (fun hquantifier => ?_) fun hquantifier => ?_)
  · exact .look position_apply (.fail fun _ => remaining_quantifier h hquantifier)
  have hq : u.isQuantifierStart = false := by simpa using hquantifier
  refine ((goes_parseAtom hrounds h hinner level hframes).onRefused
    fun err he hu => he hu hq).bind ?_
  rintro e t ⟨hless, hdepth, hremaining⟩ -
  refine (agrees_parseSuffix hrounds t e).goes (fun item n hn => ⟨?_, hdepth, fun hu => ?_⟩)
    fun err he hu => ?_
  · rw [DescentState.position_forward]
    omega
  · rw [hremaining hu hq, suffixed, hn, Nat.zero_add]
    rfl
  · rw [hremaining hu hq, suffixed, he]
    rfl

/-- By induction on the rounds: the loop over items stops where no item begins. -/
theorem goes_parseItems (hrounds : source.size < rounds) {left : Nat} (s : DescentState)
    (hleft : source.size < s.position + left) (hinner : ContentGoes w source inner s)
    (branches items : List (Expr Reference)) (hframes : frames.length = s.depth) :
    Goes source (parseItems w source rounds inner left) s
      (fun es t => t.depth = s.depth ∧ (∀ u ∈ (t.unread source).head?, ¬BeginsItem u) ∧
        remaining w source s ⟨branches, items⟩ frames =
          remaining w source t ⟨branches, es.reverse ++ items⟩ frames)
      (fun err => remaining w source s ⟨branches, items⟩ frames = .error err) := by
  induction left generalizing s items with
  | zero => exact .behindEnd hleft
  | succ left ih =>
    refine .ifNextSatisfies (fun u rest h hu => ?_) fun hnot => .pure ⟨rfl, fun u hu => ?_, rfl⟩
    · have hbegins : BeginsItem u := by simpa [BeginsItem] using hu
      refine ((goes_parseQuantified hrounds h hinner ⟨branches, items⟩ hframes).onRefused
        fun err he => he hbegins).bind ?_
      rintro e t ⟨hless, hdepth, hremaining⟩ -
      rw [hremaining hbegins]
      refine (ih t (by omega) (hinner.behind hless.le) (e :: items)
        (hframes.trans hdepth.symm)).map fun es t' _ ht' => ?_
      obtain ⟨hsame, hends, hrest⟩ := ht'
      refine ⟨hsame.trans hdepth, hends, ?_⟩
      rw [List.reverse_cons, List.append_assoc]
      exact hrest
    · have hends := hnot u hu
      simp only [BeginsItem]
      simpa using hends

/-! ## §5 Branches -/

theorem goes_parseConcat (hrounds : source.size < rounds) (s : DescentState)
    (hinner : ContentGoes w source inner s) (branches : List (Expr Reference))
    (hframes : frames.length = s.depth) :
    Goes source (parseConcat w source rounds inner) s
      (fun e t => t.depth = s.depth ∧ (∀ u ∈ (t.unread source).head?, ¬BeginsItem u) ∧
        ∃ items : List (Expr Reference), e = .inSequence items.reverse ∧
          remaining w source s ⟨branches, []⟩ frames =
            remaining w source t ⟨branches, items⟩ frames)
      (fun err => remaining w source s ⟨branches, []⟩ frames = .error err) := by
  refine (goes_parseItems hrounds s (s.size_lt_add hrounds) hinner branches [] hframes).map
    fun es t _ ht => ?_
  obtain ⟨hdepth, hends, hremaining⟩ := ht
  rw [List.append_nil] at hremaining
  exact ⟨hdepth, hends, es.reverse, by rw [List.reverse_reverse], hremaining⟩

/-- By induction on the rounds: the loop over branches stops where no bar follows. -/
theorem goes_parseBranches (hrounds : source.size < rounds) {left : Nat} (s : DescentState)
    (hleft : source.size < s.position + left) (hinner : ContentGoes w source inner s)
    (branches : List (Expr Reference)) (hframes : frames.length = s.depth) :
    Goes source (parseBranches w source rounds inner left) s
      (fun es t => t.depth = s.depth ∧ Stops source t ∧ ∃ level : Level,
        level.nextBranch.branches = es.reverse ++ branches ∧
        remaining w source s ⟨branches, []⟩ frames = remaining w source t level frames)
      (fun err => remaining w source s ⟨branches, []⟩ frames = .error err) := by
  induction left generalizing s branches with
  | zero => exact .behindEnd hleft
  | succ left ih =>
    refine .bind (goes_parseConcat hrounds s hinner branches hframes) ?_
    rintro branch t ⟨hdepth, hends, items, rfl, hremaining⟩ hle
    rw [hremaining]
    refine .ifSkip (fun rest h => ?_) fun hnot => .pure ⟨hdepth, ?_, ⟨branches, items⟩, rfl, rfl⟩
    · rw [remaining_bar h]
      have hless : s.position < (t.forward 1).position := Nat.lt_succ_of_le hle
      refine (ih (t.forward 1) (by omega) (hinner.behind hless.le) _
        (hframes.trans hdepth.symm)).map fun es t' _ ht' => ?_
      obtain ⟨hsame, hstops, level, hlevel, hrest⟩ := ht'
      refine ⟨hsame.trans hdepth, hstops, level, ?_, hrest⟩
      rw [hlevel, List.reverse_cons, List.append_assoc]
      rfl
    · cases h : t.unread source with
      | nil => exact .inl h
      | cons u rest =>
        have hbar : u ≠ unit '|' := by
          rintro rfl
          rw [h] at hnot
          simp [startsWith] at hnot
        have hclose : u = unit ')' := by
          by_contra hne
          exact hends u (by rw [h]; rfl) ⟨hbar, hne⟩
        exact .inr ⟨rest, by rw [h, hclose]⟩

/-- By induction on the levels: from everywhere, the descent comes to the end of the
alternation. -/
theorem alternationGoes (w : Width) (hrounds : source.size < rounds) {levels : Nat}
    (s : DescentState) (hlevels : source.size < s.position + levels) :
    AlternationGoes w source (parseAlternation w source rounds levels) s := by
  induction levels generalizing s with
  | zero => exact fun _ _ => .behindEnd hlevels
  | succ levels ih =>
    intro frames hframes
    have hinner : ContentGoes w source (parseAlternation w source rounds levels) s :=
      fun t ht => ih t (by omega)
    refine (goes_parseBranches hrounds s (s.size_lt_add hrounds) hinner [] hframes).map
      fun es t _ ht => ?_
    obtain ⟨hdepth, hstops, level, hlevel, hremaining⟩ := ht
    refine ⟨hdepth, hstops, level, ?_, hremaining⟩
    rw [Level.tree, hlevel, List.append_nil, List.reverse_reverse]

end

end LineRegex.Descent
