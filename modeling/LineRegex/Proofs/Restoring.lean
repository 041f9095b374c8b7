/-
LineRegex.Proofs.Restoring — going back restores what an alternative was left with.

The alternatives share their work with the running one, in an arena that is cut off and
grows again, and all of them write to the same log of captures. All the same, when an
attempt goes back to an alternative, the cursor, the captures and the work are what they
were when it was left behind, whatever else has been left behind and gone back to in
between. Turn by turn the attempt does what it would do with a copy of all work and all
captures for every alternative.

  §1 Courses      — the states of a machine, one turn after another.
  §2 Stacks       — what is on a stack was put there once, and has stayed since.
  §3 Chains       — a link stands for one list of work.
  §4 Alternatives — what a turn does to those of a compact state, and of a stack of threads.
  §5 Restoring
-/
import LineRegex.Proofs.Backtracking

namespace LineRegex

/-! ## §1 Courses -/

section Courses

variable {σ τ : Type} {turn : σ → Turn σ} {turn' : τ → Turn τ} {R : σ → τ → Prop}

/-- The state after a number of turns, if there are so many when nothing is accepted. -/
def afterTurns (turn : σ → Turn σ) (s : σ) : Nat → Option σ
  | 0 => some s
  | n + 1 => (afterTurns turn s n).bind fun t => (turn t).next?

theorem afterTurns_succ_eq_some {s u : σ} {n : Nat} :
    afterTurns turn s (n + 1) = some u ↔ ∃ t, afterTurns turn s n = some t ∧ Follows turn u t :=
  Option.bind_eq_some_iff

theorem Turn.Similar.next? {a : Turn σ} {b : Turn τ} (h : a.Similar R b) :
    Option.Rel R a.next? b.next? := by
  cases h with
  | restNone e => exact .none
  | restSome e h => exact .some h
  | workNone => exact .none
  | workSome h => exact .some h

/-- Machines of which one follows the other stay related, turn after turn. -/
theorem Simulates.afterTurns (hR : Simulates turn turn' R) {s : σ} {t : τ} (h : R s t) (n : Nat) :
    Option.Rel R (afterTurns turn s n) (afterTurns turn' t n) := by
  induction n with
  | zero => exact .some h
  | succ n ih =>
    unfold LineRegex.afterTurns
    generalize LineRegex.afterTurns turn s n = u at ih
    generalize LineRegex.afterTurns turn' t n = v at ih
    cases ih with
    | none => exact .none
    | some huv => exact (hR _ _ huv).next?

/-- So every state that the one comes to has its counterpart, either way. -/
theorem Simulates.exists_of_afterTurns (hR : Simulates turn turn' R) {s : σ} {t : τ} (h : R s t)
    (n : Nat) :
    (∀ u, LineRegex.afterTurns turn s n = some u →
      ∃ v, LineRegex.afterTurns turn' t n = some v ∧ R u v) ∧
    ∀ v, LineRegex.afterTurns turn' t n = some v →
      ∃ u, LineRegex.afterTurns turn s n = some u ∧ R u v := by
  have hrel := hR.afterTurns h n
  generalize LineRegex.afterTurns turn s n = o at *
  generalize LineRegex.afterTurns turn' t n = o' at *
  cases hrel with
  | none => exact ⟨nofun, nofun⟩
  | some huv =>
    constructor
    · rintro _ ⟨⟩
      exact ⟨_, rfl, huv⟩
    · rintro _ ⟨⟩
      exact ⟨_, rfl, huv⟩

end Courses

/-! ## §2 Stacks -/

section Stacks

variable {σ α : Type} {turn : σ → Turn σ} {stack : σ → List α}

/-- A turn leaves the stack as it is, puts one thing on top of it, or takes one off. -/
def KeepsStack (turn : σ → Turn σ) (stack : σ → List α) : Prop :=
  ∀ s t, Follows turn t s →
    stack t = stack s ∨ (∃ a, stack t = a :: stack s) ∨ ∃ a, stack s = a :: stack t

/-- What a turn does not reach down to stays where it is. -/
theorem KeepsStack.suffix_of_follows (h : KeepsStack turn stack) {s t : σ} {l : List α}
    (ht : Follows turn t s) (hl : l <:+ stack s) (hlength : l.length ≤ (stack t).length) :
    l <:+ stack t := by
  rcases h s t ht with hsame | ⟨a, hpushed⟩ | ⟨a, hpopped⟩
  · rwa [hsame]
  · rw [hpushed]
    exact hl.trans (List.suffix_cons a _)
  · rw [hpopped] at hl
    exact List.suffix_of_suffix_length_le hl (List.suffix_cons a _) hlength

variable {s₀ : σ}

/-- By induction on the turns: what is never reached down to stays where it is. -/
theorem KeepsStack.suffix_of_afterTurns (h : KeepsStack turn stack) {m n : Nat} (hmn : m ≤ n)
    {s t : σ} {l : List α} (hs : afterTurns turn s₀ m = some s) (hl : l <:+ stack s)
    (hlength : ∀ k, m ≤ k → k ≤ n → ∀ u, afterTurns turn s₀ k = some u →
      l.length ≤ (stack u).length)
    (ht : afterTurns turn s₀ n = some t) : l <:+ stack t := by
  induction n, hmn using Nat.le_induction generalizing t with
  | base => rwa [← Option.some.inj (hs.symm.trans ht)]
  | succ n hmn ih =>
    obtain ⟨u, hu, hfollows⟩ := afterTurns_succ_eq_some.mp ht
    have hkept : l <:+ stack u :=
      ih (fun k hmk hkn => hlength k hmk (Nat.le_succ_of_le hkn)) hu
    exact h.suffix_of_follows hfollows hkept (hlength (n + 1) (Nat.le_succ_of_le hmn) le_rfl t ht)

/-- By induction on the turns: what is on a stack that was empty at first was put on top
of what is below it, in some turn, and has stayed there since. -/
theorem KeepsStack.exists_pushed (h : KeepsStack turn stack) (hempty : stack s₀ = []) {n : Nat}
    {t : σ} {newer older : List α} {a : α} (ht : afterTurns turn s₀ n = some t)
    (hstack : stack t = newer ++ a :: older) :
    ∃ m < n, ∃ s s', afterTurns turn s₀ m = some s ∧ afterTurns turn s₀ (m + 1) = some s' ∧
      stack s = older ∧ stack s' = a :: older ∧
      ∀ k, m < k → k ≤ n → ∀ u, afterTurns turn s₀ k = some u → a :: older <:+ stack u := by
  induction n generalizing t newer with
  | zero =>
    cases ht
    simp [hempty] at hstack
  | succ n ih =>
    obtain ⟨u, hu, hfollows⟩ := afterTurns_succ_eq_some.mp ht
    have hlast : a :: older <:+ stack t := ⟨newer, hstack.symm⟩
    -- if it was there before the last turn, it was put there earlier
    have hearlier (newer' : List α) (hstack' : stack u = newer' ++ a :: older) :
        ∃ m < n + 1, ∃ s s', afterTurns turn s₀ m = some s ∧
          afterTurns turn s₀ (m + 1) = some s' ∧ stack s = older ∧ stack s' = a :: older ∧
          ∀ k, m < k → k ≤ n + 1 → ∀ u, afterTurns turn s₀ k = some u →
            a :: older <:+ stack u := by
      obtain ⟨m, hm, s, s', hs, hs', hbefore, hafter, hkept⟩ := ih hu hstack'
      refine ⟨m, Nat.lt_succ_of_lt hm, s, s', hs, hs', hbefore, hafter, fun k hmk hk v hv => ?_⟩
      rcases Nat.le_succ_iff.mp hk with hk | rfl
      · exact hkept k hmk hk v hv
      · rwa [← Option.some.inj (ht.symm.trans hv)]
    rcases h u t hfollows with hsame | ⟨b, hpushed⟩ | ⟨b, hpopped⟩
    · exact hearlier newer (hsame.symm.trans hstack)
    · cases newer with
      | nil =>
        obtain ⟨rfl, rfl⟩ := List.cons.inj (hpushed.symm.trans hstack)
        refine ⟨n, Nat.lt_succ_self n, u, t, hu, ht, rfl, hpushed, fun k hnk hk v hv => ?_⟩
        obtain rfl : k = n + 1 := by omega
        rwa [← Option.some.inj (ht.symm.trans hv)]
      | cons b' newer' => exact hearlier newer' (List.cons.inj (hpushed.symm.trans hstack)).2
    · exact hearlier (b :: newer) (by rw [hpopped, hstack, List.cons_append])

end Stacks

/-! ## §3 Chains -/

/-- A link stands for one list of work only. -/
theorem Chain.unique {cells : Array Cell} {n m : Nat} {next : Option Nat} {work work' : List Work}
    (h : Chain cells n next work) (h' : Chain cells m next work') : work = work' := by
  induction h generalizing m work' with
  | nil =>
    cases h'
    rfl
  | cons hi hcell h ih =>
    cases h' with
    | cons _ hcell' h' =>
      cases hcell.symm.trans hcell'
      rw [ih h']

/-- Following the links from `next`, in cells below `n`, visits the items of `work` and
then ends. -/
def StandsFor (cells : Array Cell) (n : Nat) (next : Option Nat) (work : List Work) : Prop :=
  ∀ work', Chain cells n next work' ↔ work' = work

theorem Chain.standsFor {cells : Array Cell} {n : Nat} {next : Option Nat} {work : List Work}
    (h : Chain cells n next work) : StandsFor cells n next work := by
  intro work'
  constructor
  · exact fun h' => h'.unique h
  · rintro rfl
    exact h

/-! ## §4 Alternatives -/

namespace ThreadStack

theorem resume?_eq_some {pending : List Thread} {s : ThreadStack} :
    resume? pending = some s ↔ pending = s.running :: s.pending := by
  cases pending with
  | nil => exact iff_of_false nofun nofun
  | cons t pending =>
    constructor
    · rintro ⟨⟩
      rfl
    · rintro ⟨⟩
      rfl

/-- What a turn does to the threads that are pending: a new one begins where the running
one stands, and one that is taken up becomes the running one. -/
theorem pending_of_follows {text : Text} {s t : ThreadStack} (h : Follows (turn text) t s) :
    t.pending = s.pending ∨
      (∃ work, t.pending = ⟨work, s.running.cursor, s.running.captures⟩ :: s.pending) ∨
      s.pending = t.running :: t.pending := by
  unfold Follows turn at h
  split at h
  · exact .inr (.inr (resume?_eq_some.mp h))
  · rename_i w rest _
    cases he : w.effect text s.running.cursor s.running.captures with
    | none =>
      rw [he] at h
      exact .inr (.inr (resume?_eq_some.mp h))
    | some e =>
      rw [he] at h
      obtain rfl : s.after rest e = t := Option.some.inj h
      cases hfork : e.fork with
      | none => exact .inl (by simp [after, Thread.alternative?, hfork])
      | some work => exact .inr (.inl ⟨work ++ rest, by simp [after, Thread.alternative?, hfork]⟩)

theorem keepsStack (text : Text) : KeepsStack (turn text) pending := by
  intro s t h
  rcases pending_of_follows h with hsame | ⟨work, hpushed⟩ | hpopped
  · exact .inl hsame
  · exact .inr (.inl ⟨_, hpushed⟩)
  · exact .inr (.inr ⟨_, hpopped⟩)

end ThreadStack

namespace Compact

theorem choices_of_backtrack? {c d : Compact} (h : c.backtrack? = some d) :
    ∃ choice, c.choices = choice :: d.choices := by
  unfold backtrack? at h
  split at h
  · cases h
  · cases h
    exact ⟨_, by assumption⟩

/-- An effect leaves one alternative behind at most. -/
theorem choices_after (c : Compact) (e : Effect) :
    (c.after e).choices = c.choices ∨ ∃ choice, (c.after e).choices = choice :: c.choices := by
  have hforked : (c.after e).choices = (c.forked e).choices := by
    unfold after push recorded
    cases e.record <;> rfl
  rw [hforked, forked]
  cases e.fork with
  | none => exact .inl rfl
  | some work => exact .inr ⟨_, rfl⟩

theorem keepsStack (text : Text) : KeepsStack (turn text) choices := by
  intro c d h
  unfold Follows turn at h
  split at h
  · exact .inr (.inr (choices_of_backtrack? h))
  · rename_i cell _
    cases he : cell.work.effect text c.cursor c.captures with
    | none =>
      rw [he] at h
      exact .inr (.inr (choices_of_backtrack? h))
    | some e =>
      rw [he] at h
      obtain rfl := Option.some.inj h
      rcases choices_after { c with next := cell.next } e with hsame | hpushed
      · exact .inl hsame
      · exact .inr (.inl hpushed)

end Compact

namespace Represents

variable {c : Compact} {s : ThreadStack}

/-- There are as many alternatives as threads that are pending. -/
theorem length_choices (h : Represents c s) : c.choices.length = s.pending.length := by
  induction h with
  | last _ hnone => rw [hnone]; rfl
  | @more c c' choice choices t t' pending _ hsome _ hback _ ih =>
    obtain ⟨choice', hchoices⟩ := Compact.choices_of_backtrack? hback
    rw [hchoices, List.length_cons, ih, List.length_cons]

/-- The newest alternative has the work of the first thread that is pending, in cells that
were there when it was left behind. -/
theorem chain_newest {choice : Choice} {choices : List Choice} {t : Thread} {pending : List Thread}
    (h : Represents c s) (hchoices : c.choices = choice :: choices)
    (hpending : s.pending = t :: pending) : Chain c.cells choice.cellCount choice.next t.work := by
  cases h with
  | last _ hnone => rw [hnone] at hchoices; cases hchoices
  | more _ hsome hcovers hback h =>
    cases hpending
    obtain ⟨rfl, rfl⟩ := List.cons.inj (hsome.symm.trans hchoices)
    have hchain := h.runs.chain
    simp only [Compact.backtrack?, hsome, Option.some.injEq] at hback
    subst hback
    refine (hchain.congr fun i hi => ?_).mono (Array.size_shrink.trans_le (Nat.min_le_left _ _))
    have hcells : i < c.cells.size :=
      lt_of_lt_of_le hi (Array.size_shrink.trans_le (Nat.min_le_right _ _))
    rw [Array.getElem?_eq_getElem hi, Array.getElem?_eq_getElem hcells, Array.getElem_shrink]

end Represents

/-! ## §5 Restoring -/

namespace Pattern

variable {p : Pattern} {text : Text} {start : Nat}

/-- The state of an attempt after a number of turns. -/
def stateAfter (p : Pattern) (text : Text) (start n : Nat) : Option Compact :=
  afterTurns (Compact.turn text) (.initial p.root start (.unset p.groupCount)) n

/-- The one thread that an attempt begins with. -/
def threads (p : Pattern) (start : Nat) : ThreadStack :=
  ⟨⟨[.visit p.root], start, .unset p.groupCount⟩, []⟩

/-- The threads of an attempt after a number of turns, with copies of all that they need. -/
def threadsAfter (p : Pattern) (text : Text) (start n : Nat) : Option ThreadStack :=
  afterTurns (ThreadStack.turn text) (p.threads start) n

/-- An attempt with copies of all that its alternatives need. -/
def copyingAttempt (p : Pattern) (accepts : Endpoint → Bool) (budget : Nat) (line : Text)
    (start : Nat) : Outcome Match :=
  if line.size < start then ⟨.failed, 0⟩
  else
    (run (ThreadStack.turn line) accepts budget ⟨p.threads start, ThreadStack.ending line _⟩ 0).map
      (p.matchTo line start)

/-- The turn behind the first `m` ones leads from `c` to `c'` and leaves `choice` behind. -/
structure LeavesBehind (p : Pattern) (text : Text) (start m : Nat) (c c' : Compact)
    (choice : Choice) : Prop where
  before : p.stateAfter text start m = some c
  after : p.stateAfter text start (m + 1) = some c'
  choices : c'.choices = choice :: c.choices

/-- Behind the first `m` turns and up to the first `n` ones there are always more than
`depth` alternatives. -/
def Keeps (p : Pattern) (text : Text) (start m n depth : Nat) : Prop :=
  ∀ k, m < k → k ≤ n → ∀ c, p.stateAfter text start k = some c → depth < c.choices.length

theorem represents_initial (p : Pattern) (start : Nat) :
    Represents (.initial p.root start (.unset p.groupCount)) (p.threads start) :=
  Compact.represents_initial p.root start (.unset p.groupCount)

theorem exists_threads {n : Nat} {c : Compact} (h : p.stateAfter text start n = some c) :
    ∃ s, p.threadsAfter text start n = some s ∧ Represents c s :=
  ((Compact.simulates text).exists_of_afterTurns (p.represents_initial start) n).1 c h

theorem exists_state {n : Nat} {s : ThreadStack} (h : p.threadsAfter text start n = some s) :
    ∃ c, p.stateAfter text start n = some c ∧ Represents c s :=
  ((Compact.simulates text).exists_of_afterTurns (p.represents_initial start) n).2 s h

/-- What is left behind is a thread that stands where the turn began. -/
theorem LeavesBehind.threads {m : Nat} {c c' : Compact} {choice : Choice}
    (h : p.LeavesBehind text start m c c' choice) :
    ∃ s s' work, p.threadsAfter text start (m + 1) = some s' ∧ Represents c s ∧
      Represents c' s' ∧ s'.pending = ⟨work, c.cursor, c.captures⟩ :: s.pending := by
  obtain ⟨s, hs, hrep⟩ := exists_threads h.before
  obtain ⟨s', hs', hrep'⟩ := exists_threads h.after
  obtain ⟨t, ht, hfollows⟩ := afterTurns_succ_eq_some.mp hs'
  obtain rfl : s = t := Option.some.inj (hs.symm.trans ht)
  have hlength : s'.pending.length = s.pending.length + 1 := by
    rw [← hrep'.length_choices, h.choices, List.length_cons, hrep.length_choices]
  rcases ThreadStack.pending_of_follows hfollows with hsame | ⟨work, hpushed⟩ | hpopped
  · rw [hsame] at hlength
    omega
  · rw [hrep.runs.cursor, hrep.runs.captures]
    exact ⟨s, s', work, hs', hrep, hrep', hpushed⟩
  · rw [hpopped, List.length_cons] at hlength
    omega

/-- Going back to an alternative that has been kept since it was left behind restores the
cursor, the captures and the work. -/
theorem LeavesBehind.restored {m : Nat} {c c' : Compact} {choice : Choice}
    (h : p.LeavesBehind text start m c c' choice) :
    ∃ work, StandsFor c'.cells choice.cellCount choice.next work ∧
      ∀ n d d', m < n → p.Keeps text start m n c.choices.length →
        p.stateAfter text start n = some d → d.choices.length = c.choices.length + 1 →
        d.backtrack? = some d' →
          d.choices = choice :: c.choices ∧ d'.choices = c.choices ∧ d'.cursor = c.cursor ∧
            d'.captures = c.captures ∧ StandsFor d'.cells d'.cells.size d'.next work := by
  obtain ⟨s, s', work, hs', hrep, hrep', hpending⟩ := h.threads
  refine ⟨work, (hrep'.chain_newest h.choices hpending).standsFor, ?_⟩
  intro n d d' hmn hkeeps hd hlength hback
  obtain ⟨u, hu, hrepd⟩ := exists_threads hd
  have hchoices : d.choices = choice :: c.choices := by
    have hsuffix : choice :: c.choices <:+ d.choices :=
      (Compact.keepsStack text).suffix_of_afterTurns (Nat.succ_le_of_lt hmn) h.after
        (h.choices ▸ List.suffix_rfl) (fun k hmk hkn e he => hkeeps k hmk hkn e he) hd
    exact (hsuffix.eq_of_length (by rw [hlength, List.length_cons])).symm
  have hthreads : u.pending = ⟨work, c.cursor, c.captures⟩ :: s.pending := by
    have hsuffix : ⟨work, c.cursor, c.captures⟩ :: s.pending <:+ u.pending := by
      refine (ThreadStack.keepsStack text).suffix_of_afterTurns (Nat.succ_le_of_lt hmn) hs'
        (hpending ▸ List.suffix_rfl) (fun k hmk hkn v hv => ?_) hu
      obtain ⟨e, he, hrepe⟩ := exists_state hv
      rw [List.length_cons, ← hrep.length_choices, ← hrepe.length_choices]
      exact hkeeps k hmk hkn e he
    refine (hsuffix.eq_of_length ?_).symm
    rw [List.length_cons, ← hrep.length_choices, ← hrepd.length_choices, hlength]
  obtain ⟨choice', hchoices'⟩ := Compact.choices_of_backtrack? hback
  obtain ⟨-, hrest⟩ := List.cons.inj (hchoices'.symm.trans hchoices)
  rcases hrepd.backtrack with ⟨hnone, -⟩ | ⟨e, v, he, hv, hrepe⟩
  · rw [hback] at hnone
    cases hnone
  · obtain rfl : d' = e := Option.some.inj (hback.symm.trans he)
    obtain ⟨hrunning, -⟩ :=
      List.cons.inj ((ThreadStack.resume?_eq_some.mp hv).symm.trans hthreads)
    have hruns : d'.Runs ⟨work, c.cursor, c.captures⟩ := hrunning ▸ hrepe.runs
    exact ⟨hchoices, hrest, hruns.cursor, hruns.captures, hruns.chain.standsFor⟩

/-- Backtracking restores exactly what was remembered. Every alternative on the stack of a
state was left behind in some turn, on top of the ones below it, and kept since; if it is
kept until the attempt goes back to it, then the cursor, the captures and the alternatives
below are what they were before that turn, and the link to go on from stands for the work
that it stood for then, when it was put on the stack. So the machine goes turn by turn like
the one whose alternatives are copies of all work and captures: the same number of turns, of
the same kind, to the same endpoints. And an attempt has the same outcome as one with these
copies, in the same number of steps. -/
theorem backtracking_restores (p : Pattern) (text : Text) (start : Nat) :
    (∀ n d newer choice older, p.stateAfter text start n = some d →
      d.choices = newer ++ choice :: older →
      ∃ m < n, ∃ c c' work, p.LeavesBehind text start m c c' choice ∧ c.choices = older ∧
        p.Keeps text start m n older.length ∧
        StandsFor c'.cells choice.cellCount choice.next work ∧
        ∀ n' e e', m < n' → p.Keeps text start m n' older.length →
          p.stateAfter text start n' = some e → e.choices.length = older.length + 1 →
          e.backtrack? = some e' →
            e.choices = choice :: older ∧ e'.choices = older ∧ e'.cursor = c.cursor ∧
              e'.captures = c.captures ∧ StandsFor e'.cells e'.cells.size e'.next work) ∧
    (∀ n, Option.Rel Represents (p.stateAfter text start n) (p.threadsAfter text start n)) ∧
    (∀ n c s, p.stateAfter text start n = some c → p.threadsAfter text start n = some s →
      (c.turn text).Similar Represents (s.turn text)) ∧
    ∀ accepts budget,
      p.attempt accepts budget text start = p.copyingAttempt accepts budget text start := by
  refine ⟨fun n d newer choice older hd hsplit => ?_, fun n => ?_, fun n c s hc hs => ?_,
    fun accepts budget => ?_⟩
  · obtain ⟨m, hmn, c, c', hc, hc', hbefore, hafter, hkept⟩ :=
      (Compact.keepsStack text).exists_pushed rfl hd hsplit
    have hleft : p.LeavesBehind text start m c c' choice := ⟨hc, hc', by rw [hafter, hbefore]⟩
    obtain ⟨work, hwork, hrestored⟩ := hleft.restored
    rw [hbefore] at hrestored
    exact ⟨m, hmn, c, c', work, hleft, hbefore,
      fun k hmk hkn e he => (hkept k hmk hkn e he).length_le, hwork, hrestored⟩
  · exact (Compact.simulates text).afterTurns (p.represents_initial start) n
  · obtain ⟨s', hs', hrep⟩ := exists_threads hc
    obtain rfl : s = s' := Option.some.inj (hs.symm.trans hs')
    exact Compact.simulates text c s hrep
  · rw [attempt, copyingAttempt, endpoints_eq_run]
    rfl

/-- The shorter branch captures one unit, and once it is given up nothing is captured. -/
theorem shortOrLong_restored :
    ∃ e e', shortOrLong.stateAfter "abc" 0 5 = some e ∧ e.backtrack? = some e' ∧
      e.cursor = 1 ∧ e.captures = #[some ⟨0, 1⟩] ∧ e'.cursor = 0 ∧ e'.captures = #[none] ∧
      ∃ work, StandsFor e'.cells e'.cells.size e'.next work := by
  obtain ⟨hrestores, -⟩ := backtracking_restores shortOrLong "abc" 0
  obtain ⟨d, choice, hd, hchoice⟩ : ∃ d choice,
      shortOrLong.stateAfter "abc" 0 3 = some d ∧ d.choices = [choice] := ⟨_, _, rfl, rfl⟩
  obtain ⟨m, hm, c, c', work, hleft, hbefore, -, -, hrestored⟩ :=
    hrestores 3 d [] choice [] hd hchoice
  have hdepth : (shortOrLong.stateAfter "abc" 0 (m + 1)).map (·.choices.length) = some 1 := by
    rw [hleft.after, Option.map_some, hleft.choices, hbefore]
    rfl
  obtain rfl : m = 2 := by
    interval_cases m
    · cases hdepth
    · cases hdepth
    · rfl
  have hkeeps : shortOrLong.Keeps "abc" 0 2 5 0 := by
    intro k hk hk' u hu
    interval_cases k <;> cases hu <;> decide
  obtain ⟨e, e', he, hlength, hback, hcursor, hcaptures⟩ : ∃ e e',
      shortOrLong.stateAfter "abc" 0 5 = some e ∧ e.choices.length = 1 ∧
        e.backtrack? = some e' ∧ e.cursor = 1 ∧ e.captures = #[some ⟨0, 1⟩] :=
    ⟨_, _, rfl, rfl, rfl, rfl, rfl⟩
  obtain ⟨-, -, hcursor', hcaptures', hwork⟩ := hrestored 5 e e' (by decide) hkeeps he hlength hback
  have hstart : c.cursor = 0 ∧ c.captures = #[none] := by
    have hc : some c = shortOrLong.stateAfter "abc" 0 2 := hleft.before.symm
    cases hc
    exact ⟨rfl, rfl⟩
  exact ⟨e, e', he, hback, hcursor, hcaptures, hcursor'.trans hstart.1,
    hcaptures'.trans hstart.2, work, hwork⟩

end Pattern

end LineRegex
