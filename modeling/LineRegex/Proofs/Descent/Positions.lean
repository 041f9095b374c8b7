/-
LineRegex.Proofs.Descent.Positions — reading a pattern by moving a position.

The functions of a recursive descent share one position in the pattern. Each looks at the
units there and moves the position on, and the next one begins where it stopped. No type
keeps them from looking behind the last unit or from moving back, so here the whole descent
halts where one of them does. And nothing says that their loops end: each is granted a number
of rounds, and where these are not enough, the descent has no result.

  §1 States — what the functions share, and why they halt.
  §2 Steps  — looking at units, moving on, refusing the pattern.
  §3 Going  — `Goes`: the descent ends at a position of the pattern, not in front of where
              it began.
  §4 Rules  — what the steps do.
-/
import Mathlib
import LineRegex.Proofs.Grammar.Lexemes

namespace LineRegex

/-! ## §1 States -/

/-- What the functions of a descent share. -/
structure DescentState where
  /-- How many units have been read. -/
  position : Nat
  /-- How many groups are open. -/
  depth : Nat
  groupCount : Nat
  names : NameTable

namespace DescentState

/-- The state before anything has been read. -/
def initial : DescentState := ⟨0, 0, 0, []⟩

/-- The state some units on. -/
def forward (s : DescentState) (n : Nat) : DescentState := { s with position := s.position + n }

/-- The state behind a parenthesis that opens a group. -/
def entered (s : DescentState) : DescentState := { s.forward 1 with depth := s.depth + 1 }

/-- The state behind a parenthesis that closes one. -/
def left (s : DescentState) : DescentState := { s.forward 1 with depth := s.depth - 1 }

/-- The units that have not been read. -/
def unread (source : Text) (s : DescentState) : List CodeUnit := source.toList.drop s.position

@[simp] theorem position_forward (s : DescentState) (n : Nat) :
    (s.forward n).position = s.position + n := rfl

@[simp] theorem forward_forward (s : DescentState) (m n : Nat) :
    (s.forward m).forward n = s.forward (m + n) := by
  simp [forward, Nat.add_assoc]

@[simp] theorem unread_forward (source : Text) (s : DescentState) (n : Nat) :
    (s.forward n).unread source = (s.unread source).drop n := by
  simp [unread]

theorem unread_congr {source : Text} {s t : DescentState} (h : t.position = s.position) :
    t.unread source = s.unread source := by
  rw [unread, h, unread]

theorem unread_forward_one {source : Text} {s : DescentState} {u : CodeUnit}
    {rest : List CodeUnit} (h : s.unread source = u :: rest) :
    (s.forward 1).unread source = rest := by
  rw [unread_forward, h]
  rfl

theorem unread_forward_add {source : Text} {s : DescentState} {u : CodeUnit}
    {rest : List CodeUnit} (h : s.unread source = u :: rest) (n : Nat) :
    (s.forward (1 + n)).unread source = rest.drop n := by
  rw [← forward_forward, unread_forward, unread_forward_one h]

theorem getElem?_unread (source : Text) (s : DescentState) (i : Nat) :
    (s.unread source)[i]? = source[s.position + i]? := by
  rw [unread, List.getElem?_drop, Array.getElem?_toList]

theorem getElem?_position {source : Text} {s : DescentState} {u : CodeUnit}
    {rest : List CodeUnit} (h : s.unread source = u :: rest) : source[s.position]? = some u := by
  rw [← Nat.add_zero s.position, ← getElem?_unread, h]
  rfl

theorem unread_eq_nil_iff {source : Text} {s : DescentState} :
    s.unread source = [] ↔ source.size ≤ s.position := by
  rw [unread, List.drop_eq_nil_iff, Array.length_toList]

theorem exists_unread {source : Text} {s : DescentState} (h : s.position < source.size) :
    ∃ u rest, s.unread source = u :: rest :=
  List.exists_cons_of_ne_nil fun hnil => Nat.not_le.mpr h (unread_eq_nil_iff.mp hnil)

theorem lt_size {source : Text} {s : DescentState} {u : CodeUnit} {rest : List CodeUnit}
    (h : s.unread source = u :: rest) : s.position < source.size := by
  rw [← Nat.not_le, ← unread_eq_nil_iff, h]
  exact List.cons_ne_nil u rest

theorem length_unread (source : Text) (s : DescentState) :
    (s.unread source).length = source.size - s.position := by
  rw [unread, List.length_drop, Array.length_toList]

/-- Rounds for the whole pattern are enough from everywhere. -/
theorem size_lt_add {source : Text} {rounds : Nat} (h : source.size < rounds)
    (s : DescentState) : source.size < s.position + rounds :=
  h.trans_le (Nat.le_add_left _ _)

/-- One unit on, one round less is enough. -/
theorem size_lt_forward_add {source : Text} {s : DescentState} {left : Nat}
    (h : source.size < s.position + (left + 1)) : source.size < (s.forward 1).position + left := by
  rw [position_forward]
  omega

/-- The units from the position on, up to one further on. -/
theorem extract_eq (source : Text) (s : DescentState) (n : Nat) :
    source.extract s.position (s.position + n) = ((s.unread source).take n).toArray := by
  apply Array.ext'
  simp [unread, List.extract_eq_take_drop]

end DescentState

/-- Why a descent halts before its end. -/
inductive Halt where
  /-- The pattern is malformed. -/
  | refused (e : SyntaxError)
  /-- The descent looked at a position where there is no unit, or moved to one that it must
  not move to. -/
  | outside (position : Nat)

/-- A descent through a pattern: from a state it comes to a result and to another state, or
its loops have not come to an end in the rounds they were granted. -/
abbrev Descent := ExceptT Halt (StateT DescentState Option)

namespace Descent

variable (source : Text)

/-! ## §2 Steps -/

/-- The unit at a position. -/
def unitAt (i : Nat) : Descent CodeUnit :=
  match source[i]? with
  | some u => pure u
  | none => throw (.outside i)

def position : Descent Nat := return (← get).position

/-- Moves to a position, not back and not behind the end of the pattern. -/
def moveTo (i : Nat) : Descent Unit := do
  let s ← get
  if s.position ≤ i ∧ i ≤ source.size then set { s with position := i } else throw (.outside i)

/-- Moves behind the next unit. -/
def advance : Descent Unit := do moveTo source ((← position) + 1)

def atEnd : Descent Bool := return source.size ≤ (← position)

/-- The next unit. -/
def peek : Descent CodeUnit := do unitAt source (← position)

/-- Whether there is a next unit and it is of a kind. -/
def nextSatisfies (kind : CodeUnit → Bool) : Descent Bool := do
  if ← atEnd source then return false else return kind (← peek source)

/-- Whether the given unit comes next. -/
def nextIs (c : Char) : Descent Bool := nextSatisfies source (· == unit c)

/-- Moves behind the given unit if it comes next. -/
def skip (c : Char) : Descent Bool := do
  if ← nextIs source c then
    advance source
    return true
  else return false

/-- The units from a position up to the shared one. -/
def unitsFrom (i : Nat) : Descent Text := do
  let behind ← position
  if i ≤ behind ∧ behind ≤ source.size then return source.extract i behind
  else throw (.outside i)

/-- There are no rounds left. -/
def unended {α : Type} : Descent α := fun _ => none

/-- Refuses the pattern for the fault at the position. -/
def fail {α : Type} (fault : SyntaxFault) (place : Nat) : Descent α :=
  throw (.refused ⟨fault, place⟩)

/-! ## §3 Going -/

/-- The end of a descent that stays in the pattern: `Q` holds of what it has read, or `E` of
the fault that it refuses the pattern for. -/
inductive Ends {α : Type} (Q : α → DescentState → Prop) (E : SyntaxError → Prop) :
    Except Halt α → DescentState → Prop where
  | read {a : α} {t : DescentState} (h : Q a t) : Ends Q E (.ok a) t
  | refused {e : SyntaxError} {t : DescentState} (h : E e) : Ends Q E (.error (.refused e)) t

/-- From a position of the pattern, the descent ends at a position of the pattern that is not
in front of it. -/
def Goes {α : Type} (f : Descent α) (s : DescentState) (Q : α → DescentState → Prop)
    (E : SyntaxError → Prop) : Prop :=
  s.position ≤ source.size →
    ∃ r t, f s = some (r, t) ∧ s.position ≤ t.position ∧ t.position ≤ source.size ∧ Ends Q E r t

variable {source} {α β : Type} {s t : DescentState} {Q : α → DescentState → Prop}
  {E : SyntaxError → Prop}

theorem bind_apply {f : Descent β} {k : β → Descent α} {b : β} (h : f s = some (.ok b, t)) :
    (f >>= k) s = k b t := by
  show (f s).bind _ = _
  rw [h]
  rfl

namespace Goes

theorem pure {a : α} (h : Q a s) : Goes source (pure a) s Q E :=
  fun hs => ⟨_, s, rfl, le_rfl, hs, .read h⟩

theorem fail {fault : SyntaxFault} {i : Nat} (h : E ⟨fault, i⟩) :
    Goes source (fail fault i) s Q E :=
  fun hs => ⟨_, s, rfl, le_rfl, hs, .refused h⟩

/-- There is nothing to be shown behind the end of the pattern. -/
theorem behindEnd {f : Descent α} (h : source.size < s.position) : Goes source f s Q E :=
  fun hs => absurd hs (Nat.not_le.mpr h)

theorem imp {f : Descent α} {Q' : α → DescentState → Prop} {E' : SyntaxError → Prop}
    (h : Goes source f s Q E)
    (hQ : ∀ a t, s.position ≤ t.position → t.position ≤ source.size → Q a t → Q' a t)
    (hE : ∀ e, E e → E' e) : Goes source f s Q' E' := by
  intro hs
  obtain ⟨r, t, hrun, hle, ht, hends⟩ := h hs
  refine ⟨r, t, hrun, hle, ht, ?_⟩
  cases hends with
  | read hq => exact .read (hQ _ _ hle ht hq)
  | refused he => exact .refused (hE _ he)

theorem onRead {f : Descent α} {Q' : α → DescentState → Prop} (h : Goes source f s Q E)
    (hQ : ∀ a t, s.position ≤ t.position → t.position ≤ source.size → Q a t → Q' a t) :
    Goes source f s Q' E :=
  h.imp hQ fun _ he => he

theorem onRefused {f : Descent α} {E' : SyntaxError → Prop} (h : Goes source f s Q E)
    (hE : ∀ e, E e → E' e) : Goes source f s Q E' :=
  h.imp (fun _ _ _ _ hq => hq) hE

/-- One descent after another. -/
theorem bind {f : Descent β} {k : β → Descent α} {P : β → DescentState → Prop}
    (hf : Goes source f s P E)
    (hk : ∀ b t, P b t → s.position ≤ t.position → Goes source (k b) t Q E) :
    Goes source (f >>= k) s Q E := by
  intro hs
  obtain ⟨r, t, hrun, hle, ht, hends⟩ := hf hs
  cases hends with
  | read hp =>
    obtain ⟨r', t', hrun', hle', ht', hends'⟩ := hk _ _ hp hle ht
    exact ⟨r', t', (bind_apply hrun).trans hrun', hle.trans hle', ht', hends'⟩
  | @refused e _ he =>
    refine ⟨.error (.refused e), t, ?_, hle, ht, .refused he⟩
    show (f s).bind _ = _
    rw [hrun]
    rfl

/-- A descent that only computes its result. -/
theorem map {f : Descent β} {g : β → α} {P : β → DescentState → Prop}
    (hf : Goes source f s P E) (hg : ∀ b t, s.position ≤ t.position → P b t → Q (g b) t) :
    Goes source (do return g (← f)) s Q E :=
  hf.bind fun b t hp hle => .pure (hg b t hle hp)

/-- After a step that does not halt, the descent goes on behind it. -/
theorem step {f : Descent β} {k : β → Descent α} {b : β} (h : f s = some (.ok b, t))
    (hle : s.position ≤ t.position) (ht : t.position ≤ source.size)
    (hk : Goes source (k b) t Q E) : Goes source (f >>= k) s Q E := by
  intro _
  obtain ⟨r, t', hrun, hle', ht', hends⟩ := hk ht
  exact ⟨r, t', (bind_apply h).trans hrun, hle.trans hle', ht', hends⟩

/-- A look at the state and the pattern. -/
theorem look {f : Descent β} {k : β → Descent α} {b : β} (h : f s = some (.ok b, s))
    (hk : Goes source (k b) s Q E) : Goes source (f >>= k) s Q E :=
  fun hs => step h le_rfl hs hk hs

theorem ite {c : Prop} [Decidable c] {f g : Descent α} (hf : c → Goes source f s Q E)
    (hg : ¬c → Goes source g s Q E) : Goes source (if c then f else g) s Q E := by
  split
  · exact hf ‹_›
  · exact hg ‹_›

end Goes

/-! ## §4 Rules -/

theorem unitAt_apply {i : Nat} {u : CodeUnit} (h : source[i]? = some u) :
    unitAt source i s = some (.ok u, s) := by
  rw [unitAt, h]
  rfl

theorem unitsFrom_apply {i : Nat} (h : i ≤ s.position) (h' : s.position ≤ source.size) :
    unitsFrom source i s = some (.ok (source.extract i s.position), s) := by
  show (if _ then _ else _ : Descent Text) s = _
  rw [if_pos ⟨h, h'⟩]
  rfl

theorem moveTo_apply {i : Nat} (h : s.position ≤ i) (h' : i ≤ source.size) :
    moveTo source i s = some (.ok (), { s with position := i }) := by
  show (if _ then _ else _ : Descent Unit) s = _
  rw [if_pos ⟨h, h'⟩]
  rfl

theorem position_apply : position s = some (.ok s.position, s) := rfl

theorem atEnd_apply : atEnd source s = some (.ok (s.unread source).isEmpty, s) := by
  have hend : decide (source.size ≤ s.position) = (s.unread source).isEmpty := by
    rw [Bool.eq_iff_iff, decide_eq_true_iff, List.isEmpty_iff, DescentState.unread_eq_nil_iff]
  rw [← hend]
  rfl

theorem advance_apply {u : CodeUnit} {rest : List CodeUnit} (h : s.unread source = u :: rest) :
    advance source s = some (.ok (), s.forward 1) :=
  moveTo_apply (Nat.le_succ _) (DescentState.lt_size h)

theorem peek_apply {u : CodeUnit} {rest : List CodeUnit} (h : s.unread source = u :: rest) :
    peek source s = some (.ok u, s) :=
  unitAt_apply (DescentState.getElem?_position h)

theorem nextSatisfies_apply (kind : CodeUnit → Bool) :
    nextSatisfies source kind s = some (.ok ((s.unread source).head?.any kind), s) := by
  refine (bind_apply atEnd_apply).trans ?_
  cases h : s.unread source with
  | nil => rfl
  | cons u rest => exact (bind_apply (peek_apply h)).trans rfl

theorem any_head?_eq_startsWith (c : Char) (units : List CodeUnit) :
    units.head?.any (· == unit c) = startsWith c units := by
  cases units <;> simp [startsWith]

theorem nextIs_apply (c : Char) :
    nextIs source c s = some (.ok (startsWith c (s.unread source)), s) := by
  rw [nextIs, nextSatisfies_apply, any_head?_eq_startsWith]

theorem skip_apply {c : Char} {rest : List CodeUnit} (h : s.unread source = unit c :: rest) :
    skip source c s = some (.ok true, s.forward 1) := by
  have hnext : nextIs source c s = some (.ok true, s) := by
    rw [nextIs_apply, h]
    simp [startsWith]
  exact (bind_apply hnext).trans ((bind_apply (advance_apply h)).trans rfl)

theorem skip_apply_of_not {c : Char} (h : startsWith c (s.unread source) = false) :
    skip source c s = some (.ok false, s) := by
  have hnext : nextIs source c s = some (.ok false, s) := by rw [nextIs_apply, h]
  exact (bind_apply hnext).trans rfl

namespace Goes

theorem advance {k : Unit → Descent α} {u : CodeUnit} {rest : List CodeUnit}
    (h : s.unread source = u :: rest) (hk : Goes source (k ()) (s.forward 1) Q E) :
    Goes source (Descent.advance source >>= k) s Q E :=
  .step (advance_apply h) (Nat.le_succ _) (DescentState.lt_size h) hk

theorem skip (c : Char) :
    Goes source (Descent.skip source c) s
      (fun b t => b = startsWith c (s.unread source) ∧ t = s.forward (if b then 1 else 0)) E := by
  intro hs
  cases hstarts : startsWith c (s.unread source) with
  | false => exact ⟨_, s, skip_apply_of_not hstarts, le_rfl, hs, .read ⟨rfl, rfl⟩⟩
  | true =>
    obtain ⟨rest, hrest⟩ := Grammar.eq_cons_of_startsWith hstarts
    exact ⟨_, s.forward 1, skip_apply hrest, Nat.le_succ _, DescentState.lt_size hrest,
      .read ⟨rfl, rfl⟩⟩

section Branches

variable {f g : Descent α}

theorem ifSkip {c : Char}
    (hthere : ∀ rest, s.unread source = unit c :: rest → Goes source f (s.forward 1) Q E)
    (hnot : startsWith c (s.unread source) = false → Goes source g s Q E) :
    Goes source (do if ← Descent.skip source c then f else g) s Q E := by
  cases hstarts : startsWith c (s.unread source) with
  | false => exact .look (skip_apply_of_not hstarts) (hnot hstarts)
  | true =>
    obtain ⟨rest, hrest⟩ := Grammar.eq_cons_of_startsWith hstarts
    exact .step (skip_apply hrest) (Nat.le_succ _) (DescentState.lt_size hrest)
      (hthere rest hrest)

theorem ifNextIs {c : Char}
    (hthere : ∀ rest, s.unread source = unit c :: rest → Goes source f s Q E)
    (hnot : startsWith c (s.unread source) = false → Goes source g s Q E) :
    Goes source (do if ← nextIs source c then f else g) s Q E := by
  refine .look (nextIs_apply c) ?_
  cases hstarts : startsWith c (s.unread source) with
  | false => exact hnot hstarts
  | true =>
    obtain ⟨rest, hrest⟩ := Grammar.eq_cons_of_startsWith hstarts
    exact hthere rest hrest

theorem ifAtEnd (hend : s.unread source = [] → Goes source f s Q E)
    (hmore : ∀ u rest, s.unread source = u :: rest → Goes source g s Q E) :
    Goes source (do if ← atEnd source then f else g) s Q E := by
  refine .look atEnd_apply ?_
  cases h : s.unread source with
  | nil => exact hend h
  | cons u rest => exact hmore u rest h

theorem ifNextSatisfies {kind : CodeUnit → Bool}
    (hthere : ∀ u rest, s.unread source = u :: rest → kind u = true → Goes source f s Q E)
    (hnot : (∀ u ∈ (s.unread source).head?, kind u = false) → Goes source g s Q E) :
    Goes source (do if ← nextSatisfies source kind then f else g) s Q E := by
  refine .look (nextSatisfies_apply kind) ?_
  cases h : s.unread source with
  | nil => exact hnot (by rw [h]; nofun)
  | cons u rest =>
    cases hu : kind u with
    | true =>
      rw [List.head?_cons, Option.any_some, if_pos hu]
      exact hthere u rest h hu
    | false =>
      rw [List.head?_cons, Option.any_some, if_neg (by rw [hu]; exact Bool.false_ne_true)]
      refine hnot fun v hv => ?_
      rw [h, List.head?_cons, Option.mem_some] at hv
      rw [← hv, hu]

end Branches

end Goes

end Descent

end LineRegex
