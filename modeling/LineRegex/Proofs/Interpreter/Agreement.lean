/-
LineRegex.Proofs.Interpreter.Agreement — looking things up changes nothing.

An item that names the place of a node means the work on the tree that ends there. So a state
of the interpreter shows a state of the machine whose work carries its trees, cell by cell,
and every turn of the one is a turn of the other. Parsed patterns refer to what there is, so
no look-up fails, and an attempt has the same outcome either way.

  §1 Places    — the tree that ends at a place, and the nodes of parsed patterns.
  §2 Work      — `PlacedWork.Means`.
  §3 States    — `Interpreter.Shows`, and the changes that keep it.
  §4 Items     — each item has the effect of the work that it means.
  §5 Turns
  §6 Accesses
-/
import LineRegex.Proofs.Interpreter.Validity
import LineRegex.Proofs.WellFormed

namespace LineRegex

/-! ## §1 Places -/

namespace Expr

variable {nodes : List Node} {place : Nat}

/-- The tree is listed up to the place, where its root stands. -/
def EndsAt (nodes : List Node) (place : Nat) (e : Regex) : Prop :=
  ∃ lo, Listed nodes lo e (place + 1)

theorem EndsAt.group {index : Option Nat} {body : Regex}
    (h : EndsAt nodes place (.group index body)) :
    ∃ bodyPlace, nodes[place]? = some (.group index bodyPlace) ∧ EndsAt nodes bodyPlace body := by
  obtain ⟨lo, h⟩ := h
  cases h with
  | group hbody hnode => exact ⟨_, hnode, lo, hbody⟩

theorem EndsAt.quantified {body : Regex} {bounds : Bounds}
    (h : EndsAt nodes place (.quantified body bounds)) :
    ∃ bodyPlace, nodes[place]? = some (.quantified bodyPlace bounds) ∧
      EndsAt nodes bodyPlace body := by
  obtain ⟨lo, h⟩ := h
  cases h with
  | quantified hbody hnode => exact ⟨_, hnode, lo, hbody⟩

theorem ListedAll.forall₂ {lo hi : Nat} {es : List Regex} {places : List Nat}
    (h : ListedAll nodes lo es places hi) : List.Forall₂ (EndsAt nodes) places es := by
  induction es generalizing lo places with
  | nil => cases h; exact .nil
  | cons e es ih =>
    cases h with
    | cons he hes => exact .cons ⟨_, he⟩ (ih hes)

theorem EndsAt.concat {items : List Regex} (h : EndsAt nodes place (.concat items)) :
    ∃ places, nodes[place]? = some (.concat places) ∧
      List.Forall₂ (EndsAt nodes) places items := by
  obtain ⟨lo, h⟩ := h
  cases h with
  | concat hitems hnode => exact ⟨_, hnode, hitems.forall₂⟩

theorem EndsAt.alternation {branches : List Regex}
    (h : EndsAt nodes place (.alternation branches)) :
    ∃ places, nodes[place]? = some (.alternation places) ∧
      List.Forall₂ (EndsAt nodes) places branches := by
  obtain ⟨lo, h⟩ := h
  cases h with
  | alternation hbranches hnode => exact ⟨_, hnode, hbranches.forall₂⟩

/-- Where the node of a group stands, a group ends. -/
theorem EndsAt.exists_group {e : Regex} {index : Option Nat} {bodyPlace : Nat}
    (h : EndsAt nodes place e) (hnode : nodes[place]? = some (.group index bodyPlace)) :
    ∃ body, e = .group index body := by
  obtain ⟨lo, h⟩ := h
  cases h with
  | group hbody hgroup => cases hnode.symm.trans hgroup; exact ⟨_, rfl⟩
  | unit h | charClass h | any h | anchor h | backreference h | quantified _ h | concat _ h
  | alternation _ h => cases hnode.symm.trans h

theorem EndsAt.eq_backreference {e : Regex} {g : Nat} (h : EndsAt nodes place e)
    (hnode : nodes[place]? = some (.backreference g)) : e = .backreference g := by
  obtain ⟨lo, h⟩ := h
  cases h with
  | backreference hreference => cases hnode.symm.trans hreference; rfl
  | unit h | charClass h | any h | anchor h | group _ h | quantified _ h | concat _ h
  | alternation _ h => cases hnode.symm.trans h

theorem EndsAt.exists_alternation {e : Regex} {places : List Nat} (h : EndsAt nodes place e)
    (hnode : nodes[place]? = some (.alternation places)) :
    ∃ branches, e = .alternation branches ∧ places.length = branches.length := by
  obtain ⟨lo, h⟩ := h
  cases h with
  | alternation hbranches halternation =>
    cases hnode.symm.trans halternation
    exact ⟨_, rfl, hbranches.forall₂.length_eq⟩
  | unit h | charClass h | any h | anchor h | backreference h | group _ h | quantified _ h
  | concat _ h => cases hnode.symm.trans h

mutual

/-- At every place that a tree takes up, a tree inside it ends. -/
theorem Listed.exists_endsAt {P : Regex → Prop} {lo hi : Nat} {e : Regex}
    (h : Listed nodes lo e hi) (he : e.Everywhere P) (hlo : lo ≤ place) (hhi : place < hi) :
    ∃ r, EndsAt nodes place r ∧ P r := by
  have hroot (heq : place + 1 = hi) : ∃ r, EndsAt nodes place r ∧ P r :=
    ⟨e, ⟨lo, heq ▸ h⟩, he.root⟩
  cases h with
  | unit | charClass | any | anchor | backreference => exact hroot (by omega)
  | @group _ last _ _ hbody _ | @quantified _ last _ _ hbody _ =>
    by_cases hlast : place = last + 1
    · exact hroot (by omega)
    · exact hbody.exists_endsAt he.2 hlo (by omega)
  | @concat _ last _ _ hes _ | @alternation _ last _ _ hes _ =>
    by_cases hlast : place = last
    · exact hroot (by omega)
    · exact hes.exists_endsAt he.2 hlo (by omega)

theorem ListedAll.exists_endsAt {P : Regex → Prop} {lo hi : Nat} {es : List Regex}
    {places : List Nat} (h : ListedAll nodes lo es places hi) (hes : EverywhereAll P es)
    (hlo : lo ≤ place) (hhi : place < hi) : ∃ r, EndsAt nodes place r ∧ P r := by
  cases h with
  | nil => omega
  | @cons _ mid _ _ _ _ hfirst hothers =>
    by_cases hmid : place ≤ mid
    · exact hfirst.exists_endsAt hes.1 hlo (by omega)
    · exact hothers.exists_endsAt hes.2 (by omega) hhi

end

/-- If the tree is a group that captures, its number is one of the first. -/
def NumberedWithin (groupCount : Nat) : Regex → Prop
  | .group (some g) _ => 1 ≤ g ∧ g ≤ groupCount
  | _ => True

mutual

theorem everywhere_numberedWithin {groupCount : Nat} (e : Regex)
    (h : ∀ g ∈ e.indices, 1 ≤ g ∧ g ≤ groupCount) : e.Everywhere (NumberedWithin groupCount) := by
  cases e with
  | unit | charClass | any | anchor | backreference => trivial
  | group index body =>
    rw [indices_group] at h
    obtain ⟨hindex, hbody⟩ := List.forall_mem_append.mp h
    refine ⟨?_, everywhere_numberedWithin body hbody⟩
    cases index with
    | none => trivial
    | some g => exact hindex g List.mem_cons_self
  | quantified body bounds => exact ⟨trivial, everywhere_numberedWithin body h⟩
  | concat items => exact ⟨trivial, everywhereAll_numberedWithin items h⟩
  | alternation branches => exact ⟨trivial, everywhereAll_numberedWithin branches h⟩

theorem everywhereAll_numberedWithin {groupCount : Nat} (es : List Regex)
    (h : ∀ g ∈ indicesAll es, 1 ≤ g ∧ g ≤ groupCount) :
    EverywhereAll (NumberedWithin groupCount) es := by
  cases es with
  | nil => trivial
  | cons e es =>
    obtain ⟨he, hes⟩ := List.forall_mem_append.mp h
    exact ⟨everywhere_numberedWithin e he, everywhereAll_numberedWithin es hes⟩

end

end Expr

namespace Pattern.WellFormed

variable {p : Pattern}

/-- What holds of all trees in a pattern holds of the one that ends where a node stands. -/
theorem exists_endsAt (h : p.WellFormed) {P : Regex → Prop} (hP : p.root.Everywhere P)
    {node : Node} (hnode : node ∈ p.nodes) :
    ∃ place r, p.nodes[place]? = some node ∧ Expr.EndsAt p.nodes place r ∧ P r := by
  obtain ⟨place, hplace⟩ := List.mem_iff_getElem?.mp hnode
  obtain ⟨r, hr, hPr⟩ :=
    h.listed.exists_endsAt hP (Nat.zero_le place) (List.getElem?_eq_some_iff.mp hplace).1
  exact ⟨place, r, hplace, hr, hPr⟩

theorem nodesFit (h : p.WellFormed) : NodesFit p.nodes p.groupCount where
  children := h.childrenFirst
  group g body hnode := by
    have hnumbered : p.root.Everywhere (Expr.NumberedWithin p.groupCount) := by
      refine Expr.everywhere_numberedWithin p.root fun g hg => ?_
      rw [h.numbered, List.mem_range'_1] at hg
      omega
    obtain ⟨place, r, hplace, hends, hr⟩ := h.exists_endsAt hnumbered hnode
    obtain ⟨body, rfl⟩ := hends.exists_group hplace
    exact hr
  backreference g hnode := by
    obtain ⟨place, r, hplace, hends, hr⟩ := h.exists_endsAt h.references hnode
    obtain rfl := hends.eq_backreference hplace
    exact hr.2
  alternation places hnode := by
    obtain ⟨place, r, hplace, hends, hr⟩ := h.exists_endsAt h.shape hnode
    obtain ⟨branches, rfl, hlength⟩ := hends.exists_alternation hplace
    have hmany : 2 ≤ branches.length := hr.1
    rintro rfl
    rw [← hlength] at hmany
    cases hmany

end Pattern.WellFormed

/-! ## §2 Work -/

/-- What an item with a place means as work on the tree that ends there. -/
inductive PlacedWork.Means (nodes : List Node) : PlacedWork → Work → Prop where
  | visit {place : Nat} {r : Regex} (h : Expr.EndsAt nodes place r) :
      Means nodes (.visit place) (.visit r)
  | close {place g bodyPlace start : Nat}
      (hnode : nodes[place]? = some (.group (some g) bodyPlace)) :
      Means nodes (.close place start) (.close g start)
  | iterate {place bodyPlace count : Nat} {body : Regex} {bounds : Bounds}
      (hnode : nodes[place]? = some (.quantified bodyPlace bounds))
      (hbody : Expr.EndsAt nodes bodyPlace body) :
      Means nodes (.iterate place count) (.iterate body bounds count)
  | iterated {place bodyPlace count start : Nat} {body : Regex} {bounds : Bounds}
      (hnode : nodes[place]? = some (.quantified bodyPlace bounds))
      (hbody : Expr.EndsAt nodes bodyPlace body) :
      Means nodes (.iterated place count start) (.iterated body bounds count start)
  | branch {place number : Nat} {places : List Nat} {first : Regex} {others : List Regex}
      (hnode : nodes[place]? = some (.alternation places))
      (hbranches : List.Forall₂ (Expr.EndsAt nodes) (places.drop number) (first :: others)) :
      Means nodes (.branch place number) (.branch first others)

/-! ## §3 States -/

/-- The interpreter is in the state of the machine whose work carries its trees. -/
structure Interpreter.Shows (nodes : List Node) (s : Interpreter) (c : Compact) : Prop where
  size_eq : s.cells.size = c.cells.size
  cells : ∀ (link : Nat) (cell : PlacedCell), s.cells[link]? = some cell →
    ∃ work, c.cells[link]? = some ⟨work, cell.next⟩ ∧ cell.work.Means nodes work
  next_eq : s.next = c.next
  cursor_eq : s.cursor = c.cursor
  slots_eq : s.slots = #[none] ++ c.captures
  undo_eq : s.undo = c.undo
  choices_eq : s.choices = c.choices

namespace Interpreter.Shows

variable {nodes : List Node} {groupCount : Nat} {text : Text} {start : Nat} {s : Interpreter}
  {c : Compact}

theorem push (h : s.Shows nodes c) {work : PlacedWork} {w : Work} (hw : work.Means nodes w) :
    (s.push work).Shows nodes (c.push [w]) where
  size_eq := by simp [Interpreter.push, Compact.push, pushCells, h.size_eq]
  cells link cell hcell := by
    rcases getElem?_push_cases hcell with hold | ⟨rfl, rfl⟩
    · obtain ⟨w', hw', hmeans⟩ := h.cells link cell hold
      refine ⟨w', ?_, hmeans⟩
      have hlt : link < c.cells.size := (Array.getElem?_eq_some_iff.mp hw').1
      simpa [Compact.push, pushCells, Array.getElem?_push, Nat.ne_of_lt hlt] using hw'
    · refine ⟨w, ?_, hw⟩
      simp [Compact.push, pushCells, h.size_eq, h.next_eq]
  next_eq := by simp [Interpreter.push, Compact.push, pushCells, h.size_eq]
  cursor_eq := h.cursor_eq
  slots_eq := h.slots_eq
  undo_eq := h.undo_eq
  choices_eq := h.choices_eq

theorem leave (h : s.Shows nodes c) : s.leave.Shows nodes (c.fork []) where
  size_eq := h.size_eq
  cells := h.cells
  next_eq := h.next_eq
  cursor_eq := h.cursor_eq
  slots_eq := h.slots_eq
  undo_eq := h.undo_eq
  choices_eq := by
    simp [Interpreter.leave, Interpreter.now, Compact.fork, pushCells, h.size_eq, h.next_eq,
      h.cursor_eq, h.undo_eq, h.choices_eq]

theorem withNext (h : s.Shows nodes c) (next : Option Nat) :
    { s with next }.Shows nodes { c with next } :=
  ⟨h.size_eq, h.cells, rfl, h.cursor_eq, h.slots_eq, h.undo_eq, h.choices_eq⟩

theorem moveTo (h : s.Shows nodes c) (cursor : Nat) :
    { s with cursor }.Shows nodes { c with cursor } :=
  ⟨h.size_eq, h.cells, h.next_eq, rfl, h.slots_eq, h.undo_eq, h.choices_eq⟩

theorem fork (h : s.Shows nodes c) {work : PlacedWork} {w : Work} (hw : work.Means nodes w) :
    (s.fork work).Shows nodes (c.fork [w]) := by
  have hfork : c.fork [w] = { (c.push [w]).fork [] with next := c.next } := rfl
  rw [hfork, ← h.next_eq]
  exact (h.push hw).leave.withNext s.next

/-- The slot of a group. -/
theorem getElem?_slots (h : s.Shows nodes c) (g : Nat) :
    s.slots[g + 1]? = c.captures[g]? := by
  rw [h.slots_eq, Array.getElem?_append_right (by simp)]
  rfl

theorem setIfInBounds_slots (slots : Captures) (g : Nat) (span : Option Span) :
    (#[none] ++ slots).setIfInBounds (g + 1) span = #[none] ++ slots.setIfInBounds g span := by
  apply Array.ext'
  simp

theorem captures_eq (h : s.Shows nodes c) : s.captures = c.captures := by
  rw [Interpreter.captures, h.slots_eq]
  apply Array.ext'
  simp

theorem capture (h : s.Shows nodes c) {group : Nat} (hgroup : 1 ≤ group) {span : Span}
    {t : Interpreter} (hrun : s.capture group span = .ok t) :
    t.Shows nodes (c.record group span) := by
  obtain ⟨g, rfl⟩ := Nat.exists_eq_add_of_le' hgroup
  obtain ⟨old, hold, hrun⟩ := bind_eq_ok_iff.mp hrun
  rw [lookUp_eq_ok_iff, h.getElem?_slots] at hold
  cases hrun
  refine ⟨h.size_eq, h.cells, h.next_eq, h.cursor_eq, ?_, ?_, h.choices_eq⟩
  · rw [h.slots_eq]
    exact setIfInBounds_slots _ _ _
  · simp [Compact.record, Captures.span, hold, h.undo_eq]

theorem undoTo_eq {size : Nat} {undo undo' : Array (Nat × Option Span)} {captures : Captures}
    {slots' : Array (Option Span)} (hundo : ∀ e ∈ undo, 1 ≤ e.1)
    (hrun : undoTo size undo (#[none] ++ captures) = .ok (undo', slots')) :
    ∃ captures', slots' = #[none] ++ captures' ∧
      rollback size undo captures = (undo', captures') := by
  fun_induction rollback size undo captures with
  | case1 undo captures hlt group span hback ih =>
    unfold undoTo at hrun
    rw [dif_pos hlt, hback] at hrun
    have hgroup : 1 ≤ group := by
      have hmem : (group, span) ∈ undo := hback ▸ Array.back_mem _
      exact hundo _ hmem
    obtain ⟨g, rfl⟩ := Nat.exists_eq_add_of_le' hgroup
    simp only [setIfInBounds_slots] at hrun
    split at hrun
    · exact ih (fun e he => hundo e (mem_of_mem_pop he)) hrun
    · cases hrun
  | case2 undo captures hlt =>
    unfold undoTo at hrun
    rw [dif_neg hlt] at hrun
    cases hrun
    exact ⟨captures, rfl, rfl⟩

theorem backtrack (h : s.Shows nodes c) (hundo : ∀ e ∈ s.undo, 1 ≤ e.1) {t? : Option Interpreter}
    (hrun : s.backtrack = .ok t?) :
    Option.Rel (Shows nodes) t? c.backtrack? := by
  unfold Interpreter.backtrack at hrun
  unfold Compact.backtrack?
  rw [← h.choices_eq]
  cases hchoices : s.choices with
  | nil =>
    rw [hchoices] at hrun
    cases hrun
    exact .none
  | cons choice choices =>
    simp only [hchoices, h.slots_eq] at hrun
    obtain ⟨⟨undo, slots⟩, hundone, hrun⟩ := bind_eq_ok_iff.mp hrun
    cases hrun
    obtain ⟨captures, rfl, hrollback⟩ := undoTo_eq hundo hundone
    simp only [← h.undo_eq, hrollback]
    refine .some ⟨?_, fun link cell hcell => ?_, rfl, rfl, rfl, rfl, rfl⟩
    · simp only [Array.size_shrink, h.size_eq]
    · obtain ⟨hlink, hcell⟩ := getElem?_shrink_eq_some_iff.mp hcell
      obtain ⟨work, hwork, hmeans⟩ := h.cells link cell hcell
      exact ⟨work, getElem?_shrink_eq_some_iff.mpr ⟨hlink, hwork⟩, hmeans⟩

/-! ## §4 Items -/

theorem consumeIf (h : s.Shows nodes c) {accepts : CodeUnit → Bool} {t? : Option Interpreter}
    (hrun : s.consumeIf text accepts = .ok t?) :
    Option.Rel (Shows nodes) t? ((LineRegex.consumeIf accepts text c.cursor).map c.after) := by
  unfold Interpreter.consumeIf at hrun
  unfold LineRegex.consumeIf
  rw [← h.cursor_eq]
  by_cases hlt : s.cursor < text.size
  · rw [if_pos hlt, Array.getElem?_eq_getElem hlt] at hrun
    rw [Array.getElem?_eq_getElem hlt]
    cases hrun
    dsimp only
    cases accepts text[s.cursor] with
    | true => exact .some (h.moveTo _)
    | false => exact .none
  · rw [if_neg hlt] at hrun
    rw [Array.getElem?_eq_none (Nat.le_of_not_lt hlt)]
    cases hrun
    exact .none

theorem proceedIf (h : s.Shows nodes c) (condition : Bool) :
    Option.Rel (Shows nodes) (s.proceedIf condition)
      ((LineRegex.proceedIf condition c.cursor).map c.after) := by
  unfold Interpreter.proceedIf LineRegex.proceedIf
  cases condition with
  | true => exact .some h
  | false => exact .none

theorem unitsAt_eq_ok {span : Span} {units : Text} (hrun : unitsAt text span = .ok units) :
    units = span.slice text := by
  unfold unitsAt at hrun
  split at hrun
  · cases hrun; rfl
  · cases hrun

theorem consumeCaptured (h : s.Shows nodes c) {group : Nat} {t? : Option Interpreter}
    (hrun : s.consumeCaptured text group = .ok t?) :
    Option.Rel (Shows nodes) t?
      ((Work.visitEffect text c.cursor c.captures (.backreference group)).map c.after) := by
  obtain ⟨slot, hslot, hrun⟩ := bind_eq_ok_iff.mp hrun
  have hspan : c.captures.span group = slot := by
    have hslot := lookUp_eq_ok_iff.mp hslot
    cases group with
    | zero => simpa [h.slots_eq, Captures.span] using hslot
    | succ g =>
      rw [h.getElem?_slots] at hslot
      simp [Captures.span, hslot]
  simp only [Work.visitEffect, hspan]
  cases slot with
  | none => cases hrun; exact .none
  | some span =>
    obtain ⟨captured, hcaptured, hrun⟩ := bind_eq_ok_iff.mp hrun
    obtain ⟨ahead, hahead, hrun⟩ := bind_eq_ok_iff.mp hrun
    obtain rfl := unitsAt_eq_ok hcaptured
    obtain rfl := unitsAt_eq_ok hahead
    cases hrun
    dsimp only
    rw [consumeText, ← h.cursor_eq]
    by_cases hsame : text.extract s.cursor (s.cursor + (span.slice text).size) = span.slice text
    · rw [if_pos hsame, if_pos (by exact hsame)]
      exact .some (h.moveTo _)
    · rw [if_neg hsame, if_neg (by exact hsame)]
      exact .none

theorem tryBranch (h : s.Shows nodes c) {place number : Nat} {places : List Nat} {first : Regex}
    {others : List Regex} (hnode : nodes[place]? = some (.alternation places))
    (hbranches : List.Forall₂ (Expr.EndsAt nodes) (places.drop number) (first :: others))
    {t : Interpreter} (hrun : s.tryBranch nodes place number = .ok t) :
    t.Shows nodes (c.after (LineRegex.tryBranch first others c.cursor)) := by
  generalize hdrop : places.drop number = left at hbranches
  cases hbranches with
  | @cons chosen _ rest _ hchosen hrest =>
    have hnumber : places[number]? = some chosen := by rw [← List.head?_drop, hdrop]; rfl
    have hbehind : places.drop (number + 1) = rest := by rw [← List.tail_drop, hdrop]; rfl
    unfold Interpreter.tryBranch at hrun
    rw [branchesAt_eq hnode] at hrun
    simp only [bind, Except.bind, lookUp, hnumber, pure, Except.pure, Except.ok.injEq] at hrun
    subst hrun
    cases hrest with
    | nil =>
      rw [if_neg (Nat.not_lt.mpr (List.drop_eq_nil_iff.mp hbehind))]
      exact h.push (.visit hchosen)
    | cons hnext hmore =>
      have hlt : number + 1 < places.length := by
        by_contra hge
        rw [List.drop_eq_nil_of_le (Nat.le_of_not_lt hge)] at hbehind
        cases hbehind
      rw [if_pos hlt]
      exact (h.fork (.branch hnode (hbehind ▸ .cons hnext hmore))).push (.visit hchosen)

theorem iterate (h : s.Shows nodes c) {place bodyPlace count : Nat} {body : Regex}
    {bounds : Bounds} (hnode : nodes[place]? = some (.quantified bodyPlace bounds))
    (hbody : Expr.EndsAt nodes bodyPlace body) {t : Interpreter}
    (hrun : s.iterate nodes place count = .ok t) :
    t.Shows nodes (c.after (Work.iterateEffect c.cursor body bounds count)) := by
  unfold Interpreter.iterate at hrun
  rw [quantifierAt_eq hnode] at hrun
  unfold Work.iterateEffect
  simp only [bind, Except.bind, pure, Except.pure] at hrun
  split at hrun
  · rename_i hreached
    cases hrun
    rw [if_pos hreached]
    exact h
  · rename_i hreached
    cases hrun
    rw [if_neg hreached]
    have hnext : (PlacedWork.iterated place (count + 1) s.cursor).Means nodes
        (.iterated body bounds (count + 1) c.cursor) := h.cursor_eq ▸ .iterated hnode hbody
    split
    · exact (h.leave.push hnext).push (.visit hbody)
    · exact (h.push hnext).push (.visit hbody)

theorem iterated (h : s.Shows nodes c) {place bodyPlace count begin : Nat} {body : Regex}
    {bounds : Bounds} (hnode : nodes[place]? = some (.quantified bodyPlace bounds))
    (hbody : Expr.EndsAt nodes bodyPlace body) {t : Interpreter}
    (hrun : s.iterated nodes place count begin = .ok t) :
    t.Shows nodes (c.after (Work.iteratedEffect c.cursor body bounds count begin)) := by
  unfold Interpreter.iterated at hrun
  rw [quantifierAt_eq hnode] at hrun
  cases hrun
  unfold Work.iteratedEffect
  rw [h.cursor_eq]
  split
  · exact h
  · exact h.push (.iterate hnode hbody)

theorem visitAll (h : s.Shows nodes c) {places : List Nat} {items : List Regex}
    (hitems : List.Forall₂ (Expr.EndsAt nodes) places items) :
    (places.foldr (fun item s => s.push (.visit item)) s).Shows nodes
      (c.push (items.map .visit)) := by
  induction hitems with
  | nil => exact h
  | cons hitem _ ih => exact ih.push (.visit hitem)

/-- Matching the node at a place has the effect of matching the tree that ends there. -/
theorem visit (h : s.Shows nodes c) {place : Nat} {r : Regex} (hr : Expr.EndsAt nodes place r)
    {t? : Option Interpreter} (hrun : s.visit nodes text place = .ok t?) :
    Option.Rel (Shows nodes) t? ((Work.visitEffect text c.cursor c.captures r).map c.after) := by
  obtain ⟨node, hnode, hrun⟩ := bind_eq_ok_iff.mp hrun
  rw [nodeAt, lookUp_eq_ok_iff] at hnode
  cases r with
  | unit u =>
    obtain ⟨lo, hlisted⟩ := hr
    cases hlisted with
    | unit hunit =>
      cases hnode.symm.trans hunit
      exact h.consumeIf hrun
  | charClass cls =>
    obtain ⟨lo, hlisted⟩ := hr
    cases hlisted with
    | charClass hclass =>
      cases hnode.symm.trans hclass
      exact h.consumeIf hrun
  | any =>
    obtain ⟨lo, hlisted⟩ := hr
    cases hlisted with
    | any hany =>
      cases hnode.symm.trans hany
      exact h.consumeIf hrun
  | anchor a =>
    obtain ⟨lo, hlisted⟩ := hr
    cases hlisted with
    | anchor hanchor =>
      cases hnode.symm.trans hanchor
      cases a with
      | lineStart => cases hrun; rw [h.cursor_eq]; exact h.proceedIf _
      | lineEnd => cases hrun; rw [h.cursor_eq]; exact h.proceedIf _
  | group index body =>
    obtain ⟨bodyPlace, hgroup, hbody⟩ := hr.group
    cases hnode.symm.trans hgroup
    cases hrun
    cases index with
    | none => exact .some (h.push (.visit hbody))
    | some g =>
      have hclose : (PlacedWork.close place s.cursor).Means nodes (.close g c.cursor) :=
        h.cursor_eq ▸ .close hgroup
      exact .some ((h.push hclose).push (.visit hbody))
  | backreference g =>
    obtain ⟨lo, hlisted⟩ := hr
    cases hlisted with
    | backreference hreference =>
      cases hnode.symm.trans hreference
      exact h.consumeCaptured hrun
  | concat items =>
    obtain ⟨places, hconcat, hitems⟩ := hr.concat
    cases hnode.symm.trans hconcat
    cases hrun
    exact .some (h.visitAll hitems)
  | alternation branches =>
    obtain ⟨places, halternation, hbranches⟩ := hr.alternation
    cases hnode.symm.trans halternation
    obtain ⟨t, ht, hrun⟩ := bind_eq_ok_iff.mp hrun
    cases hrun
    cases branches with
    | nil =>
      -- there is no branch to look up
      cases hbranches
      unfold Interpreter.tryBranch at ht
      rw [branchesAt_eq halternation] at ht
      cases ht
    | cons first others =>
      rw [← List.drop_zero (l := places)] at hbranches
      exact .some (h.tryBranch halternation hbranches ht)
  | quantified body bounds =>
    obtain ⟨bodyPlace, hquantified, hbody⟩ := hr.quantified
    cases hnode.symm.trans hquantified
    cases hrun
    exact .some (h.push (.iterate hquantified hbody))

theorem close (h : s.Shows nodes c) (hnodes : NodesFit nodes groupCount)
    {place g bodyPlace begin : Nat} (hnode : nodes[place]? = some (.group (some g) bodyPlace))
    {t : Interpreter} (hrun : s.close nodes place begin = .ok t) :
    t.Shows nodes (c.record g ⟨begin, c.cursor⟩) := by
  unfold Interpreter.close at hrun
  rw [groupAt_eq hnode] at hrun
  have hgroup : 1 ≤ g := (hnodes.group g bodyPlace (List.mem_of_getElem? hnode)).1
  rw [← h.cursor_eq]
  exact h.capture hgroup hrun

/-- An item has the effect of the work that it means. -/
theorem execute (h : s.Shows nodes c) (hnodes : NodesFit nodes groupCount) {work : PlacedWork}
    {w : Work} (hw : work.Means nodes w) {t? : Option Interpreter}
    (hrun : s.execute nodes text work = .ok t?) :
    Option.Rel (Shows nodes) t? ((w.effect text c.cursor c.captures).map c.after) := by
  cases hw with
  | visit hr => exact h.visit hr hrun
  | close hnode =>
    obtain ⟨t, ht, hrun⟩ := bind_eq_ok_iff.mp hrun
    cases hrun
    exact .some (h.close hnodes hnode ht)
  | iterate hnode hbody =>
    obtain ⟨t, ht, hrun⟩ := bind_eq_ok_iff.mp hrun
    cases hrun
    exact .some (h.iterate hnode hbody ht)
  | iterated hnode hbody =>
    obtain ⟨t, ht, hrun⟩ := bind_eq_ok_iff.mp hrun
    cases hrun
    exact .some (h.iterated hnode hbody ht)
  | branch hnode hbranches =>
    obtain ⟨t, ht, hrun⟩ := bind_eq_ok_iff.mp hrun
    cases hrun
    exact .some (h.tryBranch hnode hbranches ht)

end Interpreter.Shows

/-! ## §5 Turns -/

theorem Turn.Similar.of_rest {σ τ : Type} {R : σ → τ → Prop} (e : Endpoint) {s? : Option σ}
    {t? : Option τ} (h : Option.Rel R s? t?) : (Turn.rest e s?).Similar R (.rest e t?) := by
  cases h with
  | some h => exact .restSome e h
  | none => exact .restNone e

theorem Turn.Similar.of_work {σ τ : Type} {R : σ → τ → Prop} {s? : Option σ} {t? : Option τ}
    (h : Option.Rel R s? t?) : (Turn.work s?).Similar R (.work t?) := by
  cases h with
  | some h => exact .workSome h
  | none => exact .workNone

namespace Interpreter

variable {nodes : List Node} {groupCount : Nat} {text : Text} {start : Nat}

/-- A turn that finds all that it looks up is a turn of the machine. -/
theorem Shows.turn {s : Interpreter} {c : Compact} (h : s.Shows nodes c)
    (hnodes : NodesFit nodes groupCount) (hundo : ∀ e ∈ s.undo, 1 ≤ e.1) {t : Turn Interpreter}
    (hrun : s.turn nodes text = .ok t) : t.Similar (Shows nodes) (c.turn text) := by
  unfold Interpreter.turn at hrun
  unfold Compact.turn
  cases hnext : s.next with
  | none =>
    have hcell : c.cell? = none := by rw [Compact.cell?, ← h.next_eq, hnext]; rfl
    simp only [hnext] at hrun
    obtain ⟨t?, ht, hrun⟩ := bind_eq_ok_iff.mp hrun
    cases hrun
    rw [hcell, h.captures_eq, h.cursor_eq]
    exact .of_rest _ (h.backtrack hundo ht)
  | some link =>
    simp only [hnext] at hrun
    obtain ⟨cell, hcell, hrun⟩ := bind_eq_ok_iff.mp hrun
    obtain ⟨t?, ht, hrun⟩ := bind_eq_ok_iff.mp hrun
    obtain ⟨w, hwork, hmeans⟩ := h.cells link cell (lookUp_eq_ok_iff.mp hcell)
    have hcell' : c.cell? = some ⟨w, cell.next⟩ := by
      rw [Compact.cell?, ← h.next_eq, hnext]
      exact hwork
    have htaken : { s with next := cell.next }.Shows nodes { c with next := cell.next } :=
      h.withNext cell.next
    have heffect := htaken.execute hnodes hmeans ht
    rw [hcell']
    dsimp only at heffect ⊢
    generalize w.effect text c.cursor c.captures = e? at heffect
    cases e? with
    | none =>
      cases heffect
      obtain ⟨u?, hu, hrun⟩ := bind_eq_ok_iff.mp hrun
      cases hrun
      exact .of_work (htaken.backtrack hundo hu)
    | some e =>
      cases heffect with
      | some hshows =>
        cases hrun
        exact .workSome hshows

/-- Turns from valid states are those of the machine, and lead to valid states. -/
theorem simulates (hnodes : NodesFit nodes groupCount) (text : Text) (start : Nat) :
    Simulates (turnOrGiveUp nodes text) (Compact.turn text)
      fun s c => s.Valid nodes groupCount text start ∧ s.Shows nodes c := by
  rintro s c ⟨hvalid, hshows⟩
  obtain ⟨t, hrun, hnext⟩ := hvalid.turn hnodes
  have hsimilar : t.Similar (Shows nodes) (c.turn text) :=
    hshows.turn hnodes (fun e he => (hvalid.undo e he).1.1) hrun
  unfold turnOrGiveUp
  rw [hrun]
  generalize c.turn text = u at hsimilar
  cases hsimilar with
  | restNone e => exact .restNone e
  | restSome e h => exact .restSome e ⟨hnext _ rfl, h⟩
  | workNone => exact .workNone
  | workSome h => exact .workSome ⟨hnext _ rfl, h⟩

end Interpreter

/-! ## §6 Accesses -/

namespace Pattern

variable {p : Pattern} {text : Text} {start : Nat}

theorem endsAt_rootPlace (p : Pattern) : Expr.EndsAt p.nodes p.rootPlace p.root :=
  ⟨0, p.rootPlace_succ ▸ p.listed_nodes⟩

/-- The first state has the one cell that matches the root. -/
theorem eq_of_cells_initial {link : Nat} {cell : PlacedCell}
    (h : (Interpreter.initial p start).cells[link]? = some cell) :
    link = 0 ∧ cell = ⟨.visit p.rootPlace, none⟩ := by
  obtain ⟨hlink, hcell⟩ := Array.getElem?_eq_some_iff.mp h
  obtain rfl : link = 0 := Nat.lt_one_iff.mp hlink
  exact ⟨rfl, hcell.symm⟩

theorem WellFormed.fits_root (h : p.WellFormed) :
    (PlacedWork.visit p.rootPlace).Fits p.nodes p.groupCount := by
  have hroot : p.rootPlace < p.nodes.length := by
    rw [← p.rootPlace_succ]
    exact Nat.lt_succ_self _
  refine ⟨p.nodes[p.rootPlace], List.getElem?_eq_getElem hroot, fun g hg => ?_⟩
  exact h.nodesFit.backreference g (hg ▸ List.getElem_mem hroot)

theorem WellFormed.valid_initial (h : p.WellFormed) (hstart : start ≤ text.size) :
    (Interpreter.initial p start).Valid p.nodes p.groupCount text start where
  cells link cell hcell := by
    obtain ⟨rfl, rfl⟩ := eq_of_cells_initial hcell
    exact ⟨h.fits_root, nofun⟩
  points c hc := by
    obtain rfl := List.mem_singleton.mp hc
    refine ⟨?_, le_rfl, hstart, fun link cell _ hcell => ?_⟩
    · rintro _ ⟨⟩
      exact Nat.zero_lt_one
    · obtain ⟨rfl, rfl⟩ := eq_of_cells_initial hcell
      exact nofun
  sizes := List.pairwise_singleton _ _
  slots := Array.size_replicate
  captured g span hspan := by
    obtain ⟨_, hnone⟩ := Array.getElem?_eq_some_iff.mp hspan
    cases (Array.getElem_replicate _).symm.trans hnone
  undo e he := absurd he (Array.not_mem_empty e)

theorem shows_initial (p : Pattern) (start : Nat) :
    (Interpreter.initial p start).Shows p.nodes
      (.initial p.root start (.unset p.groupCount)) where
  size_eq := rfl
  cells link cell hcell := by
    obtain ⟨rfl, rfl⟩ := eq_of_cells_initial hcell
    exact ⟨.visit p.root, rfl, .visit p.endsAt_rootPlace⟩
  next_eq := rfl
  cursor_eq := rfl
  slots_eq := by
    rw [Interpreter.initial, Captures.unset, Nat.add_comm, ← Array.replicate_append_replicate]
    rfl
  undo_eq := rfl
  choices_eq := rfl

/-- By induction on the turns: all look-ups of an attempt succeed, and its states are valid
and show those of the machine. -/
theorem WellFormed.exists_interpreterAfter (h : p.WellFormed) (hstart : start ≤ text.size)
    (n : Nat) :
    ∃ s?, p.interpreterAfter text start n = .ok s? ∧
      Option.Rel (fun s c => s.Valid p.nodes p.groupCount text start ∧ s.Shows p.nodes c) s?
        (p.stateAfter text start n) := by
  induction n with
  | zero =>
    refine ⟨some (.initial p start), ?_, .some ⟨h.valid_initial hstart, p.shows_initial start⟩⟩
    rw [interpreterAfter, if_neg (Nat.not_lt.mpr hstart)]
  | succ n ih =>
    obtain ⟨s?, hrun, hrel⟩ := ih
    have hstate : p.stateAfter text start (n + 1) =
        (p.stateAfter text start n).bind fun c => (c.turn text).next? := rfl
    rw [interpreterAfter, hrun, hstate]
    generalize p.stateAfter text start n = c? at hrel
    cases hrel with
    | none => exact ⟨none, rfl, .none⟩
    | @some s c hsc =>
      obtain ⟨t, ht, hnext⟩ := hsc.1.turn h.nodesFit
      have hsimilar := Interpreter.simulates h.nodesFit text start s c hsc
      refine ⟨t.next?, ?_, ?_⟩
      · show (do return (← s.turn p.nodes text).next?) = _
        rw [ht]
        rfl
      · rw [Interpreter.turnOrGiveUp, ht] at hsimilar
        exact hsimilar.next?

/-- Behind the end of the text an attempt has no states. -/
theorem interpreterAfter_of_size_lt (p : Pattern) (hstart : text.size < start) (n : Nat) :
    p.interpreterAfter text start n = .ok none := by
  induction n with
  | zero => rw [interpreterAfter, if_pos hstart]
  | succ n ih => rw [interpreterAfter, ih]; rfl

end Pattern

/-- An attempt with a parsed pattern never looks up anything in vain. Every state that it
comes to is valid: links lead to smaller cells, the points to go back to count the cells and
the entries of the log that they need, never more than those below them on the stack need
less and never more than there are, the cursor stays between the start and the end of the
text, each item names a node of the kind that it is about and a branch that it has, groups
are numbered within their count, and repetitions are counted within their maximum. And every
turn from such a state finds its cell, node, branch, slot and units. The states are those of
the machine whose work carries its trees, turn by turn, so an attempt comes to the same end,
in the same number of steps. -/
theorem interpreter_finds_all {w : Width} {source : Text} {p : Pattern}
    (h : parse w source = .ok p) (text : Text) (start : Nat) :
    (∀ n, ∃ s?, p.interpreterAfter text start n = .ok s? ∧
      ∀ s ∈ s?, s.Valid p.nodes p.groupCount text start ∧ ∃ t, s.turn p.nodes text = .ok t) ∧
    (start ≤ text.size →
      (∀ n, ∃ s?, p.interpreterAfter text start n = .ok s? ∧
        Option.Rel (Interpreter.Shows p.nodes) s? (p.stateAfter text start n)) ∧
      ∃ hends : Acc (Follows (Interpreter.turnOrGiveUp p.nodes text)) (.initial p start),
        ∀ accepts budget,
          run (Interpreter.turnOrGiveUp p.nodes text) accepts budget ⟨_, hends⟩ 0 =
            p.endpoints accepts budget text start) := by
  have hformed := Pattern.WellFormed.of_parse h
  refine ⟨fun n => ?_, fun hstart => ⟨fun n => ?_, ?_⟩⟩
  · by_cases hstart : start ≤ text.size
    · obtain ⟨s?, hrun, hrel⟩ := hformed.exists_interpreterAfter hstart n
      refine ⟨s?, hrun, ?_⟩
      rintro s ⟨⟩
      generalize p.stateAfter text start n = c? at hrel
      cases hrel with
      | some hsc =>
        obtain ⟨t, ht, -⟩ := hsc.1.turn hformed.nodesFit
        exact ⟨hsc.1, t, ht⟩
    · exact ⟨none, p.interpreterAfter_of_size_lt (Nat.lt_of_not_le hstart) n, nofun⟩
  · obtain ⟨s?, hrun, hrel⟩ := hformed.exists_interpreterAfter hstart n
    refine ⟨s?, hrun, ?_⟩
    generalize p.stateAfter text start n = c? at hrel ⊢
    cases hrel with
    | none => exact .none
    | some hsc => exact .some hsc.2
  · have hsimulates := Interpreter.simulates hformed.nodesFit text start
    have hinitial := And.intro (hformed.valid_initial hstart) (p.shows_initial start)
    refine ⟨hsimulates.acc (Compact.ending text _ _ _) hinitial, fun accepts budget => ?_⟩
    exact hsimulates.run_eq accepts budget hinitial 0

/-- `(a|b){1,2}\1` -/
def letterAgain : Pattern where
  root := .concat
    [.quantified (.group (some 1) (.alternation [.unit 97, .unit 98])) ⟨1, some 2⟩,
      .backreference 1]
  groupCount := 1
  names := []

/-- Before the second repetition there are two alternatives: the other branch of the first
one, and stopping, which keeps the span of the group. -/
theorem interpreter_finds_all_letterAgain :
    parse .narrow "(a|b)\x7b1,2\x7d\\1" = .ok letterAgain ∧
      ∃ s, letterAgain.interpreterAfter "aba" 0 9 = .ok (some s) ∧
        s.cursor = 1 ∧ s.slots = #[none, some ⟨0, 1⟩] ∧ s.undo = #[(1, none)] ∧
        s.choices.map (fun c => (c.cursor, c.undoSize, c.cellCount)) = [(1, 1, 11), (0, 0, 9)] ∧
        s.Valid letterAgain.nodes 1 "aba" 0 ∧ ∃ t, s.turn letterAgain.nodes "aba" = .ok t := by
  have hparse : parse .narrow "(a|b)\x7b1,2\x7d\\1" = .ok letterAgain := by cbv
  obtain ⟨s, hs, hcursor, hslots, hundo, hchoices⟩ : ∃ s,
      letterAgain.interpreterAfter "aba" 0 9 = .ok (some s) ∧ s.cursor = 1 ∧
        s.slots = #[none, some ⟨0, 1⟩] ∧ s.undo = #[(1, none)] ∧
        s.choices.map (fun c => (c.cursor, c.undoSize, c.cellCount)) = [(1, 1, 11), (0, 0, 9)] :=
    ⟨_, rfl, rfl, rfl, rfl, rfl⟩
  obtain ⟨s?, hrun, hvalid⟩ := (interpreter_finds_all hparse "aba" 0).1 9
  obtain rfl : s? = some s := Except.ok.inj (hrun.symm.trans hs)
  exact ⟨hparse, s, hs, hcursor, hslots, hundo, hchoices, hvalid s rfl⟩

end LineRegex
