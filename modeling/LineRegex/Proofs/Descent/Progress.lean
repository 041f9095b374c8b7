/-
LineRegex.Proofs.Descent.Progress — the descent ends, inside the pattern.

From every position of every pattern, malformed or not, each function of the descent ends.
It looks at units only that are there, never moves back, and never moves behind the end. An
item, an atom, an escape and a member of brackets take one unit at least, which is why the
loops over them end. A whole descent comes to the pattern that the text spells, or to the first
fault in it.

  §1 Progress  — `Progresses`, and what the functions make of a state.
  §2 Functions — each of them progresses.
  §3 Patterns  — the whole way.
-/
import LineRegex.Proofs.Descent.Parsing

namespace LineRegex

namespace Descent

/-! ## §1 Progress -/

variable {w : Width} {source : Text} {rounds : Nat} {s : DescentState}

/-- The descent ends at a position of the pattern that is not in front of where it began, and
has not looked or moved outside; `Q` holds of what it has read. -/
def Progresses {α : Type} (source : Text) (f : Descent α) (s : DescentState)
    (Q : α → DescentState → Prop) : Prop :=
  ∃ r t, f s = some (r, t) ∧ s.position ≤ t.position ∧ t.position ≤ source.size ∧
    (∀ i, r ≠ .error (.outside i)) ∧ ∀ a, r = .ok a → Q a t

/-- At least one unit is read. -/
def Consumes {α : Type} (source : Text) (f : Descent α) (s : DescentState) : Prop :=
  Progresses source f s fun _ t => s.position < t.position

/-- What the functions of the descent make of a state. Those that begin with a look at the next
unit are called only where there is one, and those that a group stands in read its content with as
many levels as are left. -/
structure ProgressFrom (w : Width) (source : Text) (rounds levels : Nat) (s : DescentState) :
    Prop where
  /-- The groups that have been opened are closed again. -/
  alternation : Progresses source (parseAlternation w source rounds levels) s fun _ t =>
    t.depth = s.depth ∧ (t.position = source.size ∨ source[t.position]? = some (unit ')'))
  branches : Progresses source
    (parseBranches w source rounds (parseAlternation w source rounds levels) rounds) s
    fun _ _ => True
  concat : Progresses source
    (parseConcat w source rounds (parseAlternation w source rounds levels)) s fun _ _ => True
  items : Progresses source
    (parseItems w source rounds (parseAlternation w source rounds levels) rounds) s
    fun _ _ => True
  quantified : s.position < source.size →
    Consumes source (parseQuantified w source rounds (parseAlternation w source rounds levels)) s
  atom : s.position < source.size →
    Consumes source (parseAtom w source rounds (parseAlternation w source rounds levels)) s
  group : source[s.position]? = some (unit '(') →
    Consumes source (parseGroup source rounds (parseAlternation w source rounds levels)) s
  bounds : s.position < source.size → Consumes source (lexBounds source rounds) s
  escape : s.position < source.size →
    ∀ inBrackets, Consumes source (lexEscape source rounds inBrackets) s
  bracket : s.position < source.size → Consumes source (lexBracket source rounds w) s
  member : s.position < source.size → Consumes source (lexMember source rounds) s
  classAtom : s.position < source.size → Consumes source (lexClassAtom source rounds) s
  members : Progresses source (lexMembers source rounds rounds) s fun _ _ => True
  counts : s.position < source.size →
    ∀ n, Progresses source (countFrom source rounds n) s fun _ _ => True
  numbers : ∀ n, Progresses source (lexNumber source rounds n) s fun _ _ => True
  words : Progresses source (skipWord source rounds) s fun _ _ => True
  groupName : Progresses source (lexGroupName source rounds) s fun _ _ => True
  opener : ∀ opening, s.position = opening + 1 →
    Progresses source (lexGroupOpener source rounds opening) s fun _ _ => True

section Rules

variable {α : Type} {f : Descent α} {Q : α → DescentState → Prop} {E : SyntaxError → Prop}

theorem Goes.progresses (h : Goes source f s Q E) (hs : s.position ≤ source.size) :
    Progresses source f s Q := by
  obtain ⟨r, t, hrun, hle, ht, hends⟩ := h hs
  refine ⟨r, t, hrun, hle, ht, ?_⟩
  cases hends with
  | read hq =>
    refine ⟨nofun, ?_⟩
    rintro _ ⟨⟩
    exact hq
  | refused he => exact ⟨nofun, nofun⟩

theorem Goes.ends (h : Goes source f s Q E) (hs : s.position ≤ source.size) :
    Progresses source f s fun _ _ => True :=
  Goes.progresses (h.onRead fun _ _ _ _ _ => trivial) hs

theorem Goes.consumes (h : Goes source f s (fun a t => s.position < t.position ∧ Q a t) E)
    (hs : s.position ≤ source.size) : Consumes source f s :=
  Goes.progresses (h.onRead fun _ _ _ _ ht => ht.1) hs

theorem Agrees.consumes {r : Checked (α × Nat)} (h : Agrees source f s 1 r)
    (hs : s.position ≤ source.size) : Consumes source f s := by
  refine Goes.progresses (h.goes (fun a n _ => ?_) fun _ he => he) hs
  rw [DescentState.position_forward]
  omega

end Rules

/-! ## §2 Functions -/

theorem consumes_lexEscape (hrounds : source.size < rounds) (h : s.position < source.size)
    (inBrackets : Bool) : Consumes source (lexEscape source rounds inBrackets) s := by
  obtain ⟨u, rest, hunits⟩ := DescentState.exists_unread h
  cases inBrackets with
  | true => exact (agrees_lexEscape_class hunits).consumes h.le
  | false => exact (agrees_lexEscape hrounds hunits).consumes h.le

/-- However large the number is, the digits behind it come to an end. -/
theorem progresses_lexNumber (hs : s.position ≤ source.size) {left : Nat}
    (hleft : source.size < s.position + left) (n : Nat) :
    Progresses source (lexNumber source left n) s fun _ _ => True := by
  refine Goes.progresses (E := fun _ => True) ?_ hs
  cases left with
  | zero => exact .behindEnd hleft
  | succ left =>
    refine .ifNextSatisfies (fun u rest h _ => ?_) fun _ => .pure trivial
    refine .look (peek_apply h) (.advance h ?_)
    exact (goes_lexNumber (DescentState.size_lt_forward_add hleft)).onRead
      fun _ _ _ _ _ => trivial

theorem progressFrom (w : Width) (hrounds : source.size < rounds) {levels : Nat}
    (hlevels : source.size < s.position + levels) (hs : s.position ≤ source.size) :
    ProgressFrom w source rounds levels s := by
  have hleft := s.size_lt_add hrounds
  have hinner : ContentGoes w source (parseAlternation w source rounds levels) s :=
    fun t ht => alternationGoes w hrounds t (by omega)
  -- any groups will do that the content might be in
  obtain ⟨frames, hframes⟩ : ∃ frames : List Frame, frames.length = s.depth :=
    ⟨List.replicate s.depth ⟨0, none, .empty⟩, List.length_replicate⟩
  exact {
    alternation := by
      refine ((alternationGoes w hrounds s hlevels frames hframes).onRead
        fun e t _ ht hend => ?_).progresses hs
      refine ⟨hend.1, ?_⟩
      rcases hend.2.1 with hnil | ⟨rest, hclose⟩
      · exact .inl (ht.antisymm (DescentState.unread_eq_nil_iff.mp hnil))
      · exact .inr (DescentState.getElem?_position hclose)
    branches := (goes_parseBranches hrounds s hleft hinner [] hframes).ends hs
    concat := (goes_parseConcat hrounds s hinner [] hframes).ends hs
    items := (goes_parseItems hrounds s hleft hinner [] [] hframes).ends hs
    quantified := fun hlt => by
      obtain ⟨u, rest, h⟩ := DescentState.exists_unread hlt
      exact (goes_parseQuantified hrounds h hinner .empty hframes).consumes hs
    atom := fun hlt => by
      obtain ⟨u, rest, h⟩ := DescentState.exists_unread hlt
      exact (goes_parseAtom hrounds h hinner .empty hframes).consumes hs
    group := fun hopen => by
      obtain ⟨u, rest, h⟩ :=
        DescentState.exists_unread (Array.getElem?_eq_some_iff.mp hopen).1
      obtain rfl := Option.some.inj ((DescentState.getElem?_position h).symm.trans hopen)
      exact (goes_parseGroup hrounds h hinner .empty hframes).consumes hs
    bounds := fun hlt => by
      obtain ⟨u, rest, h⟩ := DescentState.exists_unread hlt
      exact (agrees_lexBounds hrounds h).consumes hs
    escape := consumes_lexEscape hrounds
    bracket := fun hlt => by
      obtain ⟨u, rest, h⟩ := DescentState.exists_unread hlt
      exact (agrees_lexBracket hrounds w h).consumes hs
    member := fun hlt => by
      obtain ⟨u, rest, h⟩ := DescentState.exists_unread hlt
      exact (agrees_lexMember h).consumes hs
    classAtom := fun hlt => by
      obtain ⟨u, rest, h⟩ := DescentState.exists_unread hlt
      exact (agrees_lexClassAtom h).consumes hs
    members := (goes_lexMembers 0 s hleft).ends hs
    counts := fun hlt n => by
      obtain ⟨u, rest, h⟩ := DescentState.exists_unread hlt
      exact (goes_countFrom (E := fun _ => True) hleft h).ends hs
    numbers := progresses_lexNumber hs hleft
    words := (goes_skipWord (E := fun _ => True) hleft).ends hs
    groupName := (agrees_lexGroupName hrounds s).ends hs
    opener := fun opening h => (agrees_lexGroupOpener hrounds s h).ends hs }

/-! ## §3 Patterns -/

theorem goes_descend (w : Width) (hrounds : source.size < rounds) :
    Goes source (descend w source rounds) .initial (fun p _ => parse w source = .ok p)
      (fun e => parse w source = .error e) := by
  have hparse : parse w source = remaining w source .initial .empty [] := rfl
  have hlevels := DescentState.initial.size_lt_add hrounds
  rw [hparse]
  refine .bind (alternationGoes w hrounds .initial hlevels [] rfl) ?_
  rintro root t ⟨-, hstops, level, rfl, hremaining⟩ -
  rw [hremaining]
  refine .ifAtEnd (fun hend => .look (b := t) rfl ?_) fun u rest h => .look position_apply ?_
  · rw [remaining_end hend]
    unfold Draft.finish
    dsimp only
    cases level.tree.resolve (Draft.groupOf t.groupCount t.names) with
    | ok root => exact .pure rfl
    | error e => exact .fail rfl
  · rcases hstops with hend | ⟨rest', hclose⟩
    · rw [hend] at h
      cases h
    · exact .fail (remaining_unopened hclose)

/-- What the descent through a whole pattern comes to. -/
def outcome {α : Type} : Checked α → Except Halt α
  | .ok a => .ok a
  | .error e => .error (.refused e)

theorem descend_eq_parse (w : Width) (hrounds : source.size < rounds) :
    ∃ t, descend w source rounds .initial = some (outcome (parse w source), t) ∧
      t.position ≤ source.size := by
  obtain ⟨r, t, hrun, -, ht, hends⟩ := goes_descend w hrounds (Nat.zero_le _)
  refine ⟨t, ?_, ht⟩
  cases hends with
  | read hparse => rw [hrun, hparse]; rfl
  | refused hparse => rw [hrun, hparse]; rfl

end Descent

/-- The descent through a pattern ends, with the pattern or with the first fault, just as `parse`
does, and so it never looks at a unit that is not there and never moves back or behind the end. No
loop in it takes more rounds than the pattern has units and one, and groups stand no deeper in one
another: more rounds change nothing. And the same holds of each of its functions from every
position: the loops over branches, items, members, digits and word units end; an item, an atom, an
escape and a member of brackets take one unit at least; and an alternation closes all groups that it
opens, and ends at the end of the pattern or at a closing parenthesis. -/
theorem descent_progresses (w : Width) (source : Text) {rounds : Nat}
    (hrounds : source.size < rounds) :
    (∃ t, Descent.descend w source rounds .initial =
        some (Descent.outcome (parse w source), t) ∧ t.position ≤ source.size) ∧
    ∀ (s : DescentState) (levels : Nat), s.position ≤ source.size →
      source.size < s.position + levels → Descent.ProgressFrom w source rounds levels s := by
  exact ⟨Descent.descend_eq_parse w hrounds,
    fun s levels hs hlevels => Descent.progressFrom w hrounds hlevels hs⟩

/-- `(a[b-`, where everything that was opened is still open: the hyphen behind the last unit is
a member of its own, and so the brackets are not closed. -/
theorem descent_progresses_openBracket :
    parse .narrow "(a[b-" = .error ⟨.badBracketExpression, 2⟩ ∧
      (∃ t, Descent.descend .narrow "(a[b-" 6 .initial =
          some (.error (.refused ⟨.badBracketExpression, 2⟩), t) ∧
        t.position ≤ Array.size (Text.ofString "(a[b-")) ∧
      Descent.Consumes "(a[b-" (Descent.lexClassAtom "(a[b-" 6) ⟨4, 1, 1, []⟩ := by
  have hparse : parse .narrow "(a[b-" = .error ⟨.badBracketExpression, 2⟩ := by cbv
  obtain ⟨⟨t, hrun, ht⟩, hprogress⟩ := @descent_progresses .narrow "(a[b-" 6 (by decide)
  rw [hparse] at hrun
  exact ⟨hparse, ⟨t, hrun, ht⟩,
    (hprogress ⟨4, 1, 1, []⟩ 2 (by decide) (by decide)).classAtom (by decide)⟩

end LineRegex
