/-
LineRegex.Proofs.Interpreter.Validity — every look-up of an attempt finds what it looks for.

The links of the cells lead down, and each point to go back to counts the cells that it
needs, so going back keeps all of them; that is the invariant of the arena. Each item names a
node of the kind that it is about, and the numbers of groups and of branches that it uses are
in range, because the nodes refer to nodes in front of them and to groups that there are;
that is the invariant of the work. The spans that were captured run forwards within the
positions from the start to the end of the text.

  §1 Look-ups — what finds something, and the nodes that items rely on.
  §2 States   — `Interpreter.Valid`.
  §3 Changes  — what keeps a state valid.
  §4 Items    — an item finds all that it looks up, and what it leads to is valid.
  §5 Turns
-/
import LineRegex.Proofs.Bounds
import LineRegex.Proofs.Interpreter.Machine
import LineRegex.Proofs.Listing

namespace LineRegex

/-! ## §1 Look-ups -/

/-- All that the result takes is found, and the result has the property. -/
def Finds {α : Type} (r : Accessing α) (P : α → Prop) : Prop := ∃ a, r = .ok a ∧ P a

theorem Finds.pure {α : Type} {P : α → Prop} {a : α} (h : P a) : Finds (.ok a) P := ⟨a, rfl, h⟩

theorem Finds.bind {α β : Type} {x : Accessing α} {f : α → Accessing β} {P : α → Prop}
    {Q : β → Prop} (hx : Finds x P) (hf : ∀ a, P a → Finds (f a) Q) : Finds (x >>= f) Q := by
  obtain ⟨a, rfl, ha⟩ := hx
  exact hf a ha

theorem lookUp_eq_ok_iff {α : Type} {missing : Misaccess} {o : Option α} {a : α} :
    lookUp missing o = .ok a ↔ o = some a := by
  cases o <;> simp [lookUp]

section

variable {nodes : List Node} {place : Nat}

theorem nodeAt_eq {node : Node} (h : nodes[place]? = some node) :
    nodeAt nodes place = .ok node := by
  rw [nodeAt, h]
  rfl

theorem groupAt_eq {index : Option Nat} {body : Nat}
    (h : nodes[place]? = some (.group index body)) : groupAt nodes place = .ok (index, body) := by
  rw [groupAt, nodeAt_eq h]
  rfl

theorem quantifierAt_eq {body : Nat} {bounds : Bounds}
    (h : nodes[place]? = some (.quantified body bounds)) :
    quantifierAt nodes place = .ok (body, bounds) := by
  rw [quantifierAt, nodeAt_eq h]
  rfl

theorem branchesAt_eq {branches : List Nat} (h : nodes[place]? = some (.alternation branches)) :
    branchesAt nodes place = .ok branches := by
  rw [branchesAt, nodeAt_eq h]
  rfl

end

/-- Nodes that refer to nodes in front of them, and to the first groups. -/
structure NodesFit (nodes : List Node) (groupCount : Nat) : Prop where
  children : ∀ (place : Nat) (node : Node), nodes[place]? = some node →
    ∀ c ∈ node.children, c < place
  group : ∀ g body, Node.group (some g) body ∈ nodes → 1 ≤ g ∧ g ≤ groupCount
  backreference : ∀ g, Node.backreference g ∈ nodes → g ≤ groupCount
  alternation : ∀ branches, Node.alternation branches ∈ nodes → branches ≠ []

/-! ## §2 States -/

theorem getElem?_push_cases {α : Type} {xs : Array α} {a b : α} {i : Nat}
    (h : (xs.push a)[i]? = some b) : xs[i]? = some b ∨ i = xs.size ∧ b = a := by
  rw [Array.getElem?_push] at h
  split at h
  · exact .inr ⟨by assumption, (Option.some.inj h).symm⟩
  · exact .inl h

theorem mem_of_mem_pop {α : Type} {xs : Array α} {a : α} (h : a ∈ xs.pop) : a ∈ xs := by
  rw [← Array.mem_toList_iff, Array.toList_pop] at h
  exact Array.mem_toList_iff.mp (List.mem_of_mem_dropLast h)

theorem getElem?_shrink_eq_some_iff {α : Type} {xs : Array α} {n i : Nat} {a : α} :
    (xs.shrink n)[i]? = some a ↔ i < n ∧ xs[i]? = some a := by
  rw [← Array.getElem?_toList, Array.toList_shrink, List.getElem?_take, Array.getElem?_toList]
  split <;> simp [*]

/-- The item is about a node of the kind that it expects, the group of a capture or of a
backreference is one that there is, the branch is one of the alternation, and no more
repetitions were counted than the quantifier allows. -/
def PlacedWork.Fits (nodes : List Node) (groupCount : Nat) : PlacedWork → Prop
  | visit place =>
    ∃ node, nodes[place]? = some node ∧ ∀ g, node = .backreference g → g ≤ groupCount
  | close place _ =>
    ∃ g body, nodes[place]? = some (.group (some g) body) ∧ 1 ≤ g ∧ g ≤ groupCount
  | iterate place count | iterated place count _ =>
    ∃ body bounds, nodes[place]? = some (.quantified body bounds) ∧
      ∀ max, bounds.max = some max → count ≤ max
  | branch place number =>
    ∃ branches, nodes[place]? = some (.alternation branches) ∧ number < branches.length

/-- Children of nodes can be visited. -/
theorem NodesFit.fits_visit {nodes : List Node} {groupCount place c : Nat} {node : Node}
    (h : NodesFit nodes groupCount) (hnode : nodes[place]? = some node) (hc : c ∈ node.children) :
    (PlacedWork.visit c).Fits nodes groupCount := by
  have hplace : place < nodes.length := (List.getElem?_eq_some_iff.mp hnode).1
  have hlt : c < nodes.length := (h.children place node hnode c hc).trans hplace
  refine ⟨nodes[c], List.getElem?_eq_getElem hlt, fun g hg => ?_⟩
  exact h.backreference g (hg ▸ List.getElem_mem hlt)

/-- Where the group or the repetition began that the item ends. -/
def PlacedWork.begin? : PlacedWork → Option Nat
  | close _ start | iterated _ _ start => some start
  | visit _ | iterate _ _ | branch _ _ => none

/-- A cell whose item fits and whose link leads down. -/
structure PlacedCell.Fits (nodes : List Node) (groupCount link : Nat) (cell : PlacedCell) :
    Prop where
  work : cell.work.Fits nodes groupCount
  next_lt : ∀ next, cell.next = some next → next < link

/-- A point to go on from: its link leads to one of the cells that it counts, its cursor is a
position from the start on, and whatever its cells end began in between. -/
structure Choice.Within (text : Text) (start : Nat) (cells : Array PlacedCell) (c : Choice) :
    Prop where
  next_lt : ∀ link, c.next = some link → link < c.cellCount
  start_le : start ≤ c.cursor
  cursor_le : c.cursor ≤ text.size
  begun : ∀ (link : Nat) (cell : PlacedCell), link < c.cellCount → cells[link]? = some cell →
    ∀ b, cell.work.begin? = some b → start ≤ b ∧ b ≤ c.cursor

/-- The newer point counts no fewer cells and no fewer entries of the log. -/
structure Choice.Extends (newer older : Choice) : Prop where
  cellCount_le : older.cellCount ≤ newer.cellCount
  undoSize_le : older.undoSize ≤ newer.undoSize

theorem Choice.Extends.trans {a b c : Choice} (h : a.Extends b) (h' : b.Extends c) : a.Extends c :=
  ⟨h'.cellCount_le.trans h.cellCount_le, h'.undoSize_le.trans h.undoSize_le⟩

namespace Interpreter

/-- A state in which every look-up finds something. -/
structure Valid (nodes : List Node) (groupCount : Nat) (text : Text) (start : Nat)
    (s : Interpreter) : Prop where
  cells : ∀ (link : Nat) (cell : PlacedCell), s.cells[link]? = some cell →
    cell.Fits nodes groupCount link
  points : ∀ c ∈ s.now :: s.choices, c.Within text start s.cells
  /-- From the state down the stack of alternatives, sizes do not grow. -/
  sizes : (s.now :: s.choices).Pairwise Choice.Extends
  slots : s.slots.size = groupCount + 1
  captured : ∀ (g : Nat) (span : Span), s.slots[g]? = some (some span) →
    span.Within ⟨start, text.size⟩
  undo : ∀ e ∈ s.undo, (1 ≤ e.1 ∧ e.1 ≤ groupCount) ∧
    ∀ span : Span, e.2 = some span → span.Within ⟨start, text.size⟩

section

variable {nodes : List Node} {groupCount : Nat} {text : Text} {start : Nat} {s : Interpreter}

/-! ## §3 Changes -/

namespace Valid

theorem now (h : s.Valid nodes groupCount text start) : s.now.Within text start s.cells :=
  h.points s.now List.mem_cons_self

/-- A state with another point to go on from, which has the sizes of the old one at least. -/
theorem of_now (h : s.Valid nodes groupCount text start) {t : Interpreter}
    (hcells : ∀ (link : Nat) (cell : PlacedCell), t.cells[link]? = some cell →
      cell.Fits nodes groupCount link)
    (hkept : ∀ link : Nat, link < s.cells.size → t.cells[link]? = s.cells[link]?)
    (hnow : t.now.Within text start t.cells) (hextends : t.now.Extends s.now)
    (hchoices : t.choices = s.choices) (hslots : t.slots = s.slots) (hundo : t.undo = s.undo) :
    t.Valid nodes groupCount text start where
  cells := hcells
  points := by
    intro c hc
    rcases List.mem_cons.mp hc with rfl | hc
    · exact hnow
    · rw [hchoices] at hc
      have hpoint : c.Within text start s.cells := h.points c (List.mem_cons_of_mem _ hc)
      have hcount : c.cellCount ≤ s.cells.size :=
        (List.rel_of_pairwise_cons h.sizes hc).cellCount_le
      refine ⟨hpoint.next_lt, hpoint.start_le, hpoint.cursor_le, fun link cell hlink hcell => ?_⟩
      rw [hkept link (hlink.trans_le hcount)] at hcell
      exact hpoint.begun link cell hlink hcell
  sizes := by
    obtain ⟨hfirst, hrest⟩ := List.pairwise_cons.mp h.sizes
    rw [hchoices]
    exact List.pairwise_cons.mpr ⟨fun c hc => hextends.trans (hfirst c hc), hrest⟩
  slots := hslots ▸ h.slots
  captured := hslots ▸ h.captured
  undo := hundo ▸ h.undo

/-- Going on from another cell. -/
theorem withNext (h : s.Valid nodes groupCount text start) {next : Option Nat}
    (hnext : ∀ link, next = some link → link < s.cells.size) :
    { s with next }.Valid nodes groupCount text start :=
  h.of_now h.cells (fun _ _ => rfl) ⟨hnext, h.now.start_le, h.now.cursor_le, h.now.begun⟩
    ⟨le_rfl, le_rfl⟩ rfl rfl rfl

/-- Moving the cursor on. -/
theorem moveTo (h : s.Valid nodes groupCount text start) {cursor : Nat}
    (hle : s.cursor ≤ cursor) (hsize : cursor ≤ text.size) :
    { s with cursor }.Valid nodes groupCount text start := by
  refine h.of_now h.cells (fun _ _ => rfl)
    ⟨h.now.next_lt, h.now.start_le.trans hle, hsize, fun link cell hlink hcell b hb => ?_⟩
    ⟨le_rfl, le_rfl⟩ rfl rfl rfl
  obtain ⟨hstart, hb⟩ := h.now.begun link cell hlink hcell b hb
  exact ⟨hstart, hb.trans hle⟩

theorem push (h : s.Valid nodes groupCount text start) {work : PlacedWork}
    (hfits : work.Fits nodes groupCount)
    (hbegun : ∀ b, work.begin? = some b → start ≤ b ∧ b ≤ s.cursor) :
    (s.push work).Valid nodes groupCount text start := by
  refine h.of_now (fun link cell hcell => ?_) (fun link hlink => ?_)
    ⟨fun link hlink => ?_, h.now.start_le, h.now.cursor_le, fun link cell _ hcell => ?_⟩
    ⟨Nat.le_of_lt ?_, le_rfl⟩ rfl rfl rfl
  · rcases getElem?_push_cases hcell with hold | ⟨rfl, rfl⟩
    · exact h.cells link cell hold
    · exact ⟨hfits, h.now.next_lt⟩
  · rw [Interpreter.push, Array.getElem?_push, if_neg (Nat.ne_of_lt hlink)]
  · cases hlink
    simp [Interpreter.push, Interpreter.now]
  · rcases getElem?_push_cases hcell with hold | ⟨rfl, rfl⟩
    · exact h.now.begun link cell (Array.getElem?_eq_some_iff.mp hold).1 hold
    · exact hbegun
  · simp [Interpreter.push, Interpreter.now]

/-- Matching a node begins nothing that was to be ended. -/
theorem pushVisit (h : s.Valid nodes groupCount text start) {place : Nat}
    (hfits : (PlacedWork.visit place).Fits nodes groupCount) :
    (s.push (.visit place)).Valid nodes groupCount text start :=
  h.push hfits nofun

theorem leave (h : s.Valid nodes groupCount text start) :
    s.leave.Valid nodes groupCount text start where
  cells := h.cells
  points := by
    intro c hc
    rcases List.mem_cons.mp hc with rfl | hc
    · exact h.now
    · exact h.points c hc
  sizes := by
    refine List.pairwise_cons.mpr ⟨fun c hc => ?_, h.sizes⟩
    rcases List.mem_cons.mp hc with rfl | hc
    · exact ⟨le_rfl, le_rfl⟩
    · exact List.rel_of_pairwise_cons h.sizes hc
  slots := h.slots
  captured := h.captured
  undo := h.undo

theorem fork (h : s.Valid nodes groupCount text start) {work : PlacedWork}
    (hfits : work.Fits nodes groupCount)
    (hbegun : ∀ b, work.begin? = some b → start ≤ b ∧ b ≤ s.cursor) :
    (s.fork work).Valid nodes groupCount text start := by
  refine (h.push hfits hbegun).leave.withNext fun link hlink => ?_
  refine (h.now.next_lt link hlink).trans ?_
  simp [Interpreter.leave, Interpreter.push, Interpreter.now]

theorem capture (h : s.Valid nodes groupCount text start) {group : Nat} {span : Span}
    (hgroup : 1 ≤ group ∧ group ≤ groupCount) (hspan : span.Within ⟨start, text.size⟩) :
    Finds (s.capture group span) (Valid nodes groupCount text start) := by
  have hslot : group < s.slots.size := by rw [h.slots]; omega
  refine ⟨_, by rw [Interpreter.capture, Array.getElem?_eq_getElem hslot]; rfl, ?_⟩
  have hnewer : Choice.Extends ⟨s.next, s.cursor, s.undo.size + 1, s.cells.size⟩ s.now :=
    ⟨le_rfl, Nat.le_succ _⟩
  refine ⟨h.cells, fun c hc => ?_, ?_, ?_, fun g span' hg => ?_, fun e he => ?_⟩
  · rcases List.mem_cons.mp hc with rfl | hc
    · exact ⟨h.now.next_lt, h.now.start_le, h.now.cursor_le, h.now.begun⟩
    · exact h.points c (List.mem_cons_of_mem _ hc)
  · obtain ⟨hfirst, hrest⟩ := List.pairwise_cons.mp h.sizes
    refine List.pairwise_cons.mpr ⟨fun c hc => ?_, hrest⟩
    simpa [Interpreter.now] using hnewer.trans (hfirst c hc)
  · rw [Array.size_setIfInBounds]
    exact h.slots
  · rw [Array.getElem?_setIfInBounds] at hg
    split at hg
    · obtain rfl : span = span' := Option.some.inj (Option.some.inj hg)
      exact hspan
    · exact h.captured g span' hg
  · rcases Array.mem_push.mp he with he | rfl
    · exact h.undo e he
    · exact ⟨hgroup, fun span' hold => h.captured group span'
        (by rw [Array.getElem?_eq_getElem hslot]; exact congrArg some hold)⟩

end Valid

/-- Undoing changes finds their slots, and leaves a log of the size asked for. -/
theorem exists_undoTo {size : Nat} {undo : Array (Nat × Option Span)}
    {slots : Array (Option Span)} (hsize : size ≤ undo.size)
    (hslots : slots.size = groupCount + 1)
    (hcaptured : ∀ (g : Nat) (span : Span), slots[g]? = some (some span) →
      span.Within ⟨start, text.size⟩)
    (hundo : ∀ e ∈ undo, (1 ≤ e.1 ∧ e.1 ≤ groupCount) ∧
      ∀ span : Span, e.2 = some span → span.Within ⟨start, text.size⟩) :
    ∃ undo' slots', undoTo size undo slots = .ok (undo', slots') ∧ undo'.size = size ∧
      slots'.size = groupCount + 1 ∧
      (∀ (g : Nat) (span : Span), slots'[g]? = some (some span) →
        span.Within ⟨start, text.size⟩) ∧
      ∀ e ∈ undo', e ∈ undo := by
  fun_induction undoTo size undo slots with
  | case1 undo slots hlt group span hback hslot ih =>
    have hmem : (group, span) ∈ undo := hback ▸ Array.back_mem _
    have hrestored (g : Nat) (span' : Span)
        (hg : (slots.setIfInBounds group span)[g]? = some (some span')) :
        span'.Within ⟨start, text.size⟩ := by
      rw [Array.getElem?_setIfInBounds] at hg
      split at hg
      · exact (hundo _ hmem).2 span' (Option.some.inj hg)
      · exact hcaptured g span' hg
    obtain ⟨undo', slots', hrun, hsize', hslots', hcaptured', hsub⟩ :=
      ih (by simp; omega) (by simpa using hslots) hrestored
        fun e he => hundo e (mem_of_mem_pop he)
    exact ⟨undo', slots', hrun, hsize', hslots', hcaptured',
      fun e he => mem_of_mem_pop (hsub e he)⟩
  | case2 undo slots hlt group span hback hslot =>
    have hmem : (group, span) ∈ undo := hback ▸ Array.back_mem _
    have := (hundo _ hmem).1
    omega
  | case3 undo slots hlt =>
    exact ⟨undo, slots, rfl, by omega, hslots, hcaptured, fun e he => he⟩

/-- The point to which the state goes back is the one that it goes on from. -/
theorem Valid.back (h : s.Valid nodes groupCount text start) {choice : Choice}
    {choices : List Choice} (hchoices : s.choices = choice :: choices)
    {undo : Array (Nat × Option Span)} {slots : Array (Option Span)}
    (hsize : undo.size = choice.undoSize) (hundo : ∀ e ∈ undo, e ∈ s.undo)
    (hslots : slots.size = groupCount + 1)
    (hcaptured : ∀ (g : Nat) (span : Span), slots[g]? = some (some span) →
      span.Within ⟨start, text.size⟩) :
    Valid nodes groupCount text start {
      cells := s.cells.shrink choice.cellCount
      next := choice.next
      cursor := choice.cursor
      slots, undo, choices } := by
  obtain ⟨hfirst, hrest⟩ := List.pairwise_cons.mp (hchoices ▸ h.sizes)
  have hcount : choice.cellCount ≤ s.cells.size := (hfirst choice List.mem_cons_self).cellCount_le
  have hnow : (⟨choice.next, choice.cursor, undo.size, (s.cells.shrink choice.cellCount).size⟩ :
      Choice) = choice := by
    rw [hsize, Array.size_shrink, Nat.min_eq_left hcount]
  refine ⟨fun link cell hcell => h.cells link cell (getElem?_shrink_eq_some_iff.mp hcell).2,
    fun c hc => ?_, ?_, hslots, hcaptured, fun e he => h.undo e (hundo e he)⟩
  · rw [Interpreter.now, hnow, ← hchoices] at hc
    have hpoint := h.points c (List.mem_cons_of_mem _ hc)
    exact ⟨hpoint.next_lt, hpoint.start_le, hpoint.cursor_le, fun link cell hlink hcell =>
      hpoint.begun link cell hlink (getElem?_shrink_eq_some_iff.mp hcell).2⟩
  · rw [Interpreter.now, hnow]
    exact hrest

/-- Going back finds the slots of all groups in the log. -/
theorem Valid.backtrack (h : s.Valid nodes groupCount text start) :
    Finds s.backtrack fun t? => ∀ t ∈ t?, t.Valid nodes groupCount text start := by
  unfold Interpreter.backtrack
  cases hchoices : s.choices with
  | nil => exact ⟨none, rfl, nofun⟩
  | cons choice choices =>
    have hsize : choice.undoSize ≤ s.undo.size :=
      (List.rel_of_pairwise_cons h.sizes (hchoices ▸ List.mem_cons_self)).undoSize_le
    obtain ⟨undo, slots, hrun, hundo, hslots, hcaptured, hsub⟩ :=
      exists_undoTo hsize h.slots h.captured h.undo
    refine ⟨_, by simp only [hrun]; rfl, ?_⟩
    rintro t ⟨⟩
    exact h.back hchoices hundo hsub hslots hcaptured

/-! ## §4 Items -/

namespace Valid

variable {place number count begin : Nat}

theorem consumeIf (h : s.Valid nodes groupCount text start) (accepts : CodeUnit → Bool) :
    Finds (s.consumeIf text accepts) fun t? => ∀ t ∈ t?, t.Valid nodes groupCount text start := by
  unfold Interpreter.consumeIf
  split
  · rename_i hlt
    rw [Array.getElem?_eq_getElem hlt]
    refine .pure fun t ht => ?_
    split at ht <;> cases ht
    exact h.moveTo (Nat.le_succ _) hlt
  · exact .pure nofun

theorem proceedIf (h : s.Valid nodes groupCount text start) (condition : Bool) :
    ∀ t ∈ s.proceedIf condition, t.Valid nodes groupCount text start := by
  intro t ht
  unfold Interpreter.proceedIf at ht
  split at ht <;> cases ht
  exact h

/-- What was captured lies in the text, and so does the cursor behind as many units. -/
theorem consumeCaptured (h : s.Valid nodes groupCount text start) {group : Nat}
    (hgroup : group ≤ groupCount) :
    Finds (s.consumeCaptured text group)
      fun t? => ∀ t ∈ t?, t.Valid nodes groupCount text start := by
  have hslot : group < s.slots.size := by rw [h.slots]; omega
  have hcursor : s.cursor ≤ text.size := h.now.cursor_le
  unfold Interpreter.consumeCaptured
  rw [Array.getElem?_eq_getElem hslot]
  cases hspan : s.slots[group] with
  | none => exact .pure nofun
  | some span =>
    have hwithin : span.Within ⟨start, text.size⟩ :=
      h.captured group span (by rw [Array.getElem?_eq_getElem hslot, hspan])
    have hcaptured : unitsAt text span = .ok (span.slice text) :=
      if_pos ⟨hwithin.forwards, hwithin.forwards.trans hwithin.stop_le⟩
    have hahead (n : Nat) : unitsAt text ⟨s.cursor, s.cursor + n⟩ =
        .ok ((⟨s.cursor, s.cursor + n⟩ : Span).slice text) :=
      if_pos ⟨Nat.le_add_right _ _, hcursor⟩
    show Finds (unitsAt text span >>= _) _
    rw [hcaptured]
    show Finds (unitsAt text ⟨s.cursor, s.cursor + (span.slice text).size⟩ >>= _) _
    rw [hahead]
    refine .pure fun t ht => ?_
    split at ht <;> cases ht
    rename_i hsame
    have hsize := congrArg Array.size hsame
    simp only [Span.slice, Array.size_extract] at hsize
    refine h.moveTo (Nat.le_add_right _ _) ?_
    simp only [Span.slice, Array.size_extract]
    omega

theorem tryBranch (hnodes : NodesFit nodes groupCount) (h : s.Valid nodes groupCount text start)
    {branches : List Nat} (hnode : nodes[place]? = some (.alternation branches))
    (hnumber : number < branches.length) :
    Finds (s.tryBranch nodes place number) (Valid nodes groupCount text start) := by
  unfold Interpreter.tryBranch
  rw [branchesAt_eq hnode]
  refine Finds.bind (.pure rfl) ?_
  rintro _ rfl
  rw [List.getElem?_eq_getElem hnumber]
  refine .pure ?_
  have hchosen : (PlacedWork.visit branches[number]).Fits nodes groupCount :=
    hnodes.fits_visit hnode (List.getElem_mem hnumber)
  split
  · rename_i hmore
    have hnext : (PlacedWork.branch place (number + 1)).Fits nodes groupCount :=
      ⟨branches, hnode, hmore⟩
    exact (h.fork hnext nofun).pushVisit hchosen
  · exact h.pushVisit hchosen

theorem iterate (hnodes : NodesFit nodes groupCount) (h : s.Valid nodes groupCount text start)
    (hfits : (PlacedWork.iterate place count).Fits nodes groupCount) :
    Finds (s.iterate nodes place count) (Valid nodes groupCount text start) := by
  obtain ⟨body, bounds, hnode, hcount⟩ := hfits
  unfold Interpreter.iterate
  rw [quantifierAt_eq hnode]
  refine Finds.bind (.pure rfl) ?_
  rintro _ rfl
  have hbody : (PlacedWork.visit body).Fits nodes groupCount :=
    hnodes.fits_visit hnode List.mem_cons_self
  show Finds (if bounds.isReached count then .ok s else _) _
  split
  · exact .pure h
  · rename_i hreached
    have hnext : (PlacedWork.iterated place (count + 1) s.cursor).Fits nodes groupCount := by
      refine ⟨body, bounds, hnode, fun max hmax => ?_⟩
      simpa [Bounds.isReached, hmax] using hreached
    have hbegun {c : Nat} (hc : c = s.cursor) : ∀ b,
        (PlacedWork.iterated place (count + 1) s.cursor).begin? = some b → start ≤ b ∧ b ≤ c := by
      rintro b ⟨⟩
      exact ⟨h.now.start_le, hc.ge⟩
    refine .pure ?_
    split
    · exact (h.leave.push hnext (hbegun rfl)).pushVisit hbody
    · exact (h.push hnext (hbegun rfl)).pushVisit hbody

theorem iterated (h : s.Valid nodes groupCount text start)
    (hfits : (PlacedWork.iterated place count begin).Fits nodes groupCount) :
    Finds (s.iterated nodes place count begin) (Valid nodes groupCount text start) := by
  obtain ⟨body, bounds, hnode, hcount⟩ := hfits
  unfold Interpreter.iterated
  rw [quantifierAt_eq hnode]
  refine .pure ?_
  split
  · exact h
  · exact h.push ⟨body, bounds, hnode, hcount⟩ nofun

theorem close (h : s.Valid nodes groupCount text start)
    (hfits : (PlacedWork.close place begin).Fits nodes groupCount) (hbegin : start ≤ begin)
    (hcursor : begin ≤ s.cursor) :
    Finds (s.close nodes place begin) (Valid nodes groupCount text start) := by
  obtain ⟨g, body, hnode, hg⟩ := hfits
  unfold Interpreter.close
  rw [groupAt_eq hnode]
  exact h.capture hg ⟨hbegin, hcursor, h.now.cursor_le⟩

theorem visitAll (h : s.Valid nodes groupCount text start) {places : List Nat}
    (hfits : ∀ c ∈ places, (PlacedWork.visit c).Fits nodes groupCount) :
    (places.foldr (fun c s => s.push (.visit c)) s).Valid nodes groupCount text start := by
  induction places with
  | nil => exact h
  | cons c places ih =>
    rw [List.foldr_cons]
    exact (ih fun c hc => hfits c (List.mem_cons_of_mem _ hc)).pushVisit
      (hfits c List.mem_cons_self)

theorem visit (hnodes : NodesFit nodes groupCount) (h : s.Valid nodes groupCount text start)
    (hfits : (PlacedWork.visit place).Fits nodes groupCount) :
    Finds (s.visit nodes text place) fun t? => ∀ t ∈ t?, t.Valid nodes groupCount text start := by
  obtain ⟨node, hnode, hgroup⟩ := hfits
  have hmem : node ∈ nodes := List.mem_of_getElem? hnode
  unfold Interpreter.visit
  rw [nodeAt_eq hnode]
  refine Finds.bind (.pure rfl) ?_
  rintro _ rfl
  cases node with
  | unit u => exact h.consumeIf _
  | charClass c => exact h.consumeIf _
  | any => exact h.consumeIf _
  | anchor a => cases a <;> exact .pure (h.proceedIf _)
  | group index body =>
    have hbody : (PlacedWork.visit body).Fits nodes groupCount :=
      hnodes.fits_visit hnode List.mem_cons_self
    refine .pure ?_
    rintro _ ⟨⟩
    cases index with
    | none => exact h.pushVisit hbody
    | some g =>
      have hclose : (PlacedWork.close place s.cursor).Fits nodes groupCount :=
        ⟨g, body, hnode, hnodes.group g body hmem⟩
      refine (h.push hclose ?_).pushVisit hbody
      rintro b ⟨⟩
      exact ⟨h.now.start_le, le_rfl⟩
  | backreference g => exact h.consumeCaptured (hgroup g rfl)
  | concat items =>
    refine .pure ?_
    rintro _ ⟨⟩
    exact h.visitAll fun c hc => hnodes.fits_visit hnode hc
  | alternation branches =>
    have hfirst : 0 < branches.length :=
      List.length_pos_iff.mpr (hnodes.alternation branches hmem)
    refine (h.tryBranch hnodes hnode hfirst).bind fun t ht => .pure ?_
    rintro _ ⟨⟩
    exact ht
  | quantified body bounds =>
    refine .pure ?_
    rintro _ ⟨⟩
    exact h.push ⟨body, bounds, hnode, fun max _ => Nat.zero_le max⟩ nofun

/-- An item that fits finds all that it looks up, and leads to a valid state if it does not
fail. -/
theorem execute (hnodes : NodesFit nodes groupCount) (h : s.Valid nodes groupCount text start)
    {work : PlacedWork} (hfits : work.Fits nodes groupCount)
    (hbegun : ∀ b, work.begin? = some b → start ≤ b ∧ b ≤ s.cursor) :
    Finds (s.execute nodes text work)
      fun t? => ∀ t ∈ t?, t.Valid nodes groupCount text start := by
  have hsome {x : Accessing Interpreter} (hx : Finds x (Valid nodes groupCount text start)) :
      Finds (do return some (← x)) fun t? => ∀ t ∈ t?, t.Valid nodes groupCount text start := by
    refine hx.bind fun t ht => .pure ?_
    rintro _ ⟨⟩
    exact ht
  cases work with
  | visit place => exact h.visit hnodes hfits
  | close place begin =>
    obtain ⟨hbegin, hcursor⟩ := hbegun begin rfl
    exact hsome (h.close hfits hbegin hcursor)
  | iterate place count => exact hsome (h.iterate hnodes hfits)
  | iterated place count begin => exact hsome (h.iterated hfits)
  | branch place number =>
    obtain ⟨branches, hnode, hnumber⟩ := hfits
    exact hsome (h.tryBranch hnodes hnode hnumber)

/-! ## §5 Turns -/

/-- A turn from a valid state finds all that it looks up, and leads to a valid state. -/
theorem turn (hnodes : NodesFit nodes groupCount) (h : s.Valid nodes groupCount text start) :
    Finds (s.turn nodes text)
      fun t => ∀ u ∈ t.next?, u.Valid nodes groupCount text start := by
  unfold Interpreter.turn
  split
  · exact h.backtrack.bind fun t? ht => .pure ht
  · rename_i link hlink
    have hlt : link < s.cells.size := h.now.next_lt link hlink
    have hcell : s.cells[link]? = some s.cells[link] := Array.getElem?_eq_getElem hlt
    rw [hcell]
    obtain ⟨hfits, hnext⟩ := h.cells link _ hcell
    have htaken : { s with next := s.cells[link].next }.Valid nodes groupCount text start :=
      h.withNext fun next hn => (hnext next hn).trans hlt
    refine (htaken.execute hnodes hfits (h.now.begun link _ hlt hcell)).bind fun t? ht => ?_
    cases t? with
    | none => exact htaken.backtrack.bind fun u? hu => .pure hu
    | some t => exact .pure ht

end Valid

end

end Interpreter

end LineRegex
