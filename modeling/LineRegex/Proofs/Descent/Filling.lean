/-
LineRegex.Proofs.Descent.Filling — the descent fills an arena.

A descent that keeps no trees adds each node to an arena as soon as the construct is read
to its end, and hands on only the place of the node. A sequence of one item and a choice of one
branch add none. The node of a reference is added before it is known which group is meant:
one by number holds the number as it is written, and one by name holds none. When the whole
pattern has been read, the references are looked up in the order in which they were added,
and their nodes are put right.

What comes of it is the list of nodes in postorder of the tree that is read otherwise.

  §1 Arenas     — nodes, and references that are to be resolved.
  §2 Functions  — those of the descent, with places for trees.
  §3 Trees      — what an arena holds when a tree has been added.
  §4 Mirrors    — the one descent does what the other does.
  §5 Reading
  §6 Resolving
  §7 Patterns
-/
import LineRegex.Proofs.Descent.Progress
import LineRegex.Proofs.Grammar.Parsing
import LineRegex.Proofs.Listing

namespace LineRegex

/-! ## §1 Arenas -/

/-- A reference that has not been resolved. -/
structure OpenReference where
  /-- The position of its backslash. -/
  position : Nat
  /-- The place of its node. -/
  place : Nat
  /-- The name of the group; without one, the node holds the number. -/
  name? : Option Text

/-- The nodes that have been added, and the references among them. -/
structure Arena where
  nodes : List Node
  unresolved : List OpenReference

namespace Arena

def empty : Arena := ⟨[], []⟩

/-- Adds a node at the end. -/
def push (A : Arena) (node : Node) : Arena := { A with nodes := A.nodes ++ [node] }

end Arena

/-- A pattern with an arena for a tree. -/
structure PlacedPattern where
  nodes : List Node
  root : Nat
  groupCount : Nat
  names : NameTable

/-- The pattern with its nodes for its tree. -/
def Pattern.placed (p : Pattern) : PlacedPattern :=
  ⟨p.nodes, p.rootPlace, p.groupCount, p.names⟩

/-- Whether the node is an anchor, which leaves nothing to repeat. -/
def Node.isAnchor : Node → Bool
  | anchor _ => true
  | _ => false

/-- The number in the node of a reference that has not been resolved. -/
def Target.provisional : Target → Nat
  | number n => n
  | name _ => 0

/-- The name that a reference is by. -/
def Target.name? : Target → Option Text
  | number _ => none
  | name text => some text

namespace Descent

variable (w : Width) (source : Text) (rounds : Nat)

/-! ## §2 Functions -/

/-- A descent that fills an arena. -/
abbrev Filling := StateT Arena Descent

/-- Adds a node; the place where it stands. -/
def add (node : Node) : Filling Nat := do
  let A ← get
  set (A.push node)
  return A.nodes.length

/-- Adds a reference, to be resolved when the whole pattern has been read. -/
def addReference (r : Reference) : Filling Nat := do
  let place ← add (.backreference r.target.provisional)
  modify fun A =>
    { A with unresolved := A.unresolved ++ [⟨r.position, place, r.target.name?⟩] }
  return place

/-- Adds what an escape outside brackets stands for. -/
def addEscape : Escape → Filling Nat
  | .ofClass (.single u) => add (.unit u)
  | .ofClass (.shorthand s) => add (.charClass ⟨s.ranges w, false⟩)
  | .reference r => addReference r

/-- The node at a place. -/
def nodeAt (place : Nat) : Filling Node := do
  match (← get).nodes[place]? with
  | some node => return node
  | none => throw (.outside place)

/-- Reads the quantifier behind an atom, if one follows, and applies it. -/
def fillSuffix (atom : Nat) : Filling Nat := do
  if ← nextSatisfies source CodeUnit.isQuantifierStart then
    if (← nodeAt atom).isAnchor then fail .emptyOperand (← position)
    else
      let bounds ← lexBounds source rounds
      if ← nextSatisfies source CodeUnit.isQuantifierStart then
        fail .multipleRepeat (← position)
      else add (.quantified atom bounds)
  else return atom

section Calls

variable (inner : Filling Nat)

/-- Reads the group that opens at the position. -/
def fillGroup : Filling Nat := do
  let (opening, index) ← parseOpening source rounds
  let body ← inner
  if ← skip source ')' then
    leave
    add (.group index body)
  else fail .missingParen opening

/-- Reads a unit, an escape, a bracket expression or a group. -/
def fillAtom : Filling Nat := do
  let u ← peek source
  if u = unit '(' then fillGroup source rounds inner
  else if u = unit '[' then add (.charClass (← lexBracket source rounds w))
  else if u = unit '\\' then addEscape w (← lexEscape source rounds false)
  else
    advance source
    add <| if u = unit '.' then .any
      else if u = unit '^' then .anchor .lineStart
      else if u = unit '$' then .anchor .lineEnd
      else .unit u

/-- Reads an atom and the quantifier that may follow it. -/
def fillQuantified : Filling Nat := do
  if (← peek source).isQuantifierStart then fail .emptyOperand (← position)
  else fillSuffix source rounds (← fillAtom w source rounds inner)

/-- Reads an item, if one follows, and those behind it. -/
def fillItems : Nat → Filling (List Nat)
  | 0 => StateT.lift unended
  | left + 1 => do
    if ← nextSatisfies source (fun u => u != unit '|' && u != unit ')') then
      let item ← fillQuantified w source rounds inner
      return item :: (← fillItems left)
    else return []

/-- Reads items up to a bar, a closing parenthesis or the end of the pattern. -/
def fillConcat : Filling Nat := do
  match ← fillItems w source rounds inner rounds with
  | [item] => return item
  | items => add (.concat items)

/-- Reads a branch, and those behind it. -/
def fillBranches : Nat → Filling (List Nat)
  | 0 => StateT.lift unended
  | left + 1 => do
    let branch ← fillConcat w source rounds inner
    if ← skip source '|' then return branch :: (← fillBranches left)
    else return [branch]

end Calls

/-- Reads branches with bars between them. -/
def fillAlternation : Nat → Filling Nat
  | 0 => StateT.lift unended
  | levels + 1 => do
    match ← fillBranches w source rounds (fillAlternation levels) rounds with
    | [branch] => return branch
    | branches => add (.alternation branches)

/-- Looks up the group that a reference means, and puts its node right. -/
def patch (groupCount : Nat) (names : NameTable) (nodes : List Node) (r : OpenReference) :
    Descent (List Node) :=
  match nodes[r.place]?, r.name? with
  | some (.backreference n), none =>
    if n = 0 ∨ groupCount < n then fail .badBackreference r.position else return nodes
  | some (.backreference _), some name =>
    match names.find? name with
    | none => fail .badBackreference r.position
    | some n => return nodes.set r.place (.backreference n)
  | _, _ => throw (.outside r.place)

/-- Reads a whole pattern into an arena. -/
def fill : Descent PlacedPattern := do
  let (root, A) ← (fillAlternation w source rounds rounds).run .empty
  if ← atEnd source then
    let s ← get
    let nodes ← A.unresolved.foldlM (patch s.groupCount s.names) A.nodes
    return { nodes, root, groupCount := s.groupCount, names := s.names }
  else fail .missingParen (← position)

end Descent

/-! ## §3 Trees -/

namespace Expr

mutual

/-- The tree with provisional numbers in its references. -/
def provisional : Expr Reference → Regex
  | unit u => unit u
  | charClass c => charClass c
  | any => any
  | anchor a => anchor a
  | group index body => group index (provisional body)
  | backreference r => backreference r.target.provisional
  | concat items => concat (provisionalAll items)
  | alternation branches => alternation (provisionalAll branches)
  | quantified body bounds => quantified (provisional body) bounds

def provisionalAll : List (Expr Reference) → List Regex
  | [] => []
  | e :: es => provisional e :: provisionalAll es

end

mutual

/-- The references of a tree that is listed from `base` on. -/
def unresolvedFrom (base : Nat) : Expr Reference → List OpenReference
  | backreference r => [⟨r.position, base, r.target.name?⟩]
  | group _ body | quantified body _ => unresolvedFrom base body
  | concat es | alternation es => unresolvedFromAll base es
  | unit _ | charClass _ | any | anchor _ => []

/-- `unresolvedFrom` for several trees, one after another. -/
def unresolvedFromAll (base : Nat) : List (Expr Reference) → List OpenReference
  | [] => []
  | e :: es => unresolvedFrom base e ++ unresolvedFromAll (base + e.nodeCount) es

end

mutual

theorem nodeCount_provisional (e : Expr Reference) : e.provisional.nodeCount = e.nodeCount := by
  cases e with
  | unit | charClass | any | anchor | backreference => rfl
  | group _ body | quantified body _ =>
    exact congrArg (· + 1) (nodeCount_provisional body)
  | concat es | alternation es => exact congrArg (· + 1) (nodeCountAll_provisional es)

theorem nodeCountAll_provisional (es : List (Expr Reference)) :
    nodeCountAll (provisionalAll es) = nodeCountAll es := by
  cases es with
  | nil => rfl
  | cons e es => exact congrArg₂ _ (nodeCount_provisional e) (nodeCountAll_provisional es)

end

theorem rootsFrom_provisional (base : Nat) (es : List (Expr Reference)) :
    rootsFrom base (provisionalAll es) = rootsFrom base es := by
  induction es generalizing base with
  | nil => rfl
  | cons e es ih => rw [provisionalAll, rootsFrom, rootsFrom, nodeCount_provisional, ih]

end Expr

namespace Arena

/-- The place of the root when a tree is added. -/
def placeOf (A : Arena) (e : Expr Reference) : Nat := A.nodes.length + e.nodeCount - 1

/-- Adds a tree. -/
def extend (A : Arena) (e : Expr Reference) : Arena where
  nodes := A.nodes ++ e.provisional.nodesFrom A.nodes.length
  unresolved := A.unresolved ++ e.unresolvedFrom A.nodes.length

/-- Adds trees one after another. -/
def extendAll (A : Arena) (es : List (Expr Reference)) : Arena where
  nodes := A.nodes ++ Expr.nodesFromAll A.nodes.length (Expr.provisionalAll es)
  unresolved := A.unresolved ++ Expr.unresolvedFromAll A.nodes.length es

variable {A : Arena}

theorem length_extend (A : Arena) (e : Expr Reference) :
    (A.extend e).nodes.length = A.nodes.length + e.nodeCount := by
  rw [extend, List.length_append, Expr.length_nodesFrom, Expr.nodeCount_provisional]

theorem extendAll_nil (A : Arena) : A.extendAll [] = A := by
  simp [extendAll, Expr.provisionalAll, Expr.nodesFromAll, Expr.unresolvedFromAll]

theorem extendAll_cons (A : Arena) (e : Expr Reference) (es : List (Expr Reference)) :
    A.extendAll (e :: es) = (A.extend e).extendAll es := by
  have hlength := A.length_extend e
  simp only [extendAll, hlength, Expr.provisionalAll, Expr.nodesFromAll, Expr.unresolvedFromAll,
    Expr.nodeCount_provisional, ← List.append_assoc]
  rfl

theorem extendAll_singleton (A : Arena) (e : Expr Reference) : A.extendAll [e] = A.extend e := by
  rw [extendAll_cons, extendAll_nil]

section Roots

/-! A tree is added by adding its root behind all the rest. -/

theorem extend_leaf {e : Expr Reference} {node : Node}
    (hnode : e.provisional.nodesFrom A.nodes.length = [node])
    (hrefs : e.unresolvedFrom A.nodes.length = []) : A.extend e = A.push node := by
  rw [extend, push, hnode, hrefs, List.append_nil]

theorem extend_group (A : Arena) (index : Option Nat) (body : Expr Reference) :
    A.extend (.group index body) = (A.extend body).push (.group index (A.placeOf body)) := by
  simp only [extend, push, placeOf, Expr.provisional, Expr.nodesFrom, Expr.unresolvedFrom,
    Expr.nodeCount_provisional, List.append_assoc]

theorem extend_quantified (A : Arena) (body : Expr Reference) (bounds : Bounds) :
    A.extend (.quantified body bounds) =
      (A.extend body).push (.quantified (A.placeOf body) bounds) := by
  simp only [extend, push, placeOf, Expr.provisional, Expr.nodesFrom, Expr.unresolvedFrom,
    Expr.nodeCount_provisional, List.append_assoc]

theorem extend_concat (A : Arena) (items : List (Expr Reference)) :
    A.extend (.concat items) =
      (A.extendAll items).push (.concat (Expr.rootsFrom A.nodes.length items)) := by
  simp only [extend, extendAll, push, Expr.provisional, Expr.nodesFrom, Expr.unresolvedFrom,
    Expr.rootsFrom_provisional, List.append_assoc]

theorem extend_alternation (A : Arena) (branches : List (Expr Reference)) :
    A.extend (.alternation branches) =
      (A.extendAll branches).push (.alternation (Expr.rootsFrom A.nodes.length branches)) := by
  simp only [extend, extendAll, push, Expr.provisional, Expr.nodesFrom, Expr.unresolvedFrom,
    Expr.rootsFrom_provisional, List.append_assoc]

end Roots

end Arena

namespace Descent

/-! ## §4 Mirrors -/

/-- On the arena, filling does what the other descent does, and comes to the image of what
that one comes to. -/
def Mirrors {α β : Type} (A : Arena) (f : Filling α) (g : Descent β) (φ : β → α × Arena) : Prop :=
  f.run A = φ <$> g

/-- A tree that has been read is added. -/
def placed (A : Arena) (e : Expr Reference) : Nat × Arena := (A.placeOf e, A.extend e)

/-- Trees that have been read are added one after another. -/
def placedAll (A : Arena) (es : List (Expr Reference)) : List Nat × Arena :=
  (Expr.rootsFrom A.nodes.length es, A.extendAll es)

theorem placedAll_nil (A : Arena) : placedAll A [] = ([], A) := by
  rw [placedAll, Arena.extendAll_nil]
  rfl

theorem placedAll_cons (A : Arena) (e : Expr Reference) (es : List (Expr Reference)) :
    placedAll A (e :: es) =
      ((placed A e).1 :: (placedAll (A.extend e) es).1, (placedAll (A.extend e) es).2) := by
  rw [placedAll, Arena.extendAll_cons, placedAll, Arena.length_extend]
  rfl

theorem placed_singleton (A : Arena) (e : Expr Reference) :
    placed A e = (A.placeOf e, A.extendAll [e]) := by
  rw [placed, Arena.extendAll_singleton]

namespace Mirrors

variable {α β γ α' β' : Type} {A : Arena} {φ : β → α × Arena} {ψ : β' → α' × Arena}

theorem pure {a : α} {b : β} (h : φ b = (a, A)) : Mirrors A (Pure.pure a) (Pure.pure b) φ := by
  rw [Mirrors, StateT.run_pure, map_pure, h]

theorem bind {f : Filling α} {g : Descent β} {k : α → Filling α'} {k' : β → Descent β'}
    (hf : Mirrors A f g φ) (hk : ∀ b, Mirrors (φ b).2 (k (φ b).1) (k' b) ψ) :
    Mirrors A (f >>= k) (g >>= k') ψ := by
  unfold Mirrors at *
  rw [StateT.run_bind, hf, bind_map_left, map_bind]
  exact bind_congr hk

/-- A step that adds nothing. -/
theorem step (h : Descent γ) {k : γ → Filling α} {k' : γ → Descent β}
    (hk : ∀ c, Mirrors A (k c) (k' c) φ) : Mirrors A (liftM h >>= k) (h >>= k') φ := by
  have hlift : Mirrors A (liftM h) h fun c => (c, A) := by
    simp only [Mirrors, StateT.run_monadLift, monadLift_self, bind_pure_comp]
  exact hlift.bind hk

theorem fail (fault : SyntaxFault) (i : Nat) :
    Mirrors A (liftM (Descent.fail fault i : Descent α)) (Descent.fail fault i) φ := rfl

theorem unended : Mirrors A (StateT.lift Descent.unended : Filling α) Descent.unended φ := rfl

theorem ite {c : Prop} [Decidable c] {f f' : Filling α} {g g' : Descent β}
    (h : Mirrors A f g φ) (h' : Mirrors A f' g' φ) :
    Mirrors A (if c then f else f') (if c then g else g') φ := by
  split
  · exact h
  · exact h'

/-- A look at the arena. -/
theorem look {f : Filling γ} {k : γ → Filling α} {g : Descent β} {c : γ}
    (hf : f.run A = Pure.pure (c, A)) (hk : Mirrors A (k c) g φ) : Mirrors A (f >>= k) g φ := by
  rw [Mirrors, StateT.run_bind, hf, pure_bind]
  exact hk

/-- Adding the root of a tree whose other nodes have been added. -/
theorem add {A' : Arena} {node : Node} {e : Expr Reference} (h : A.extend e = A'.push node) :
    Mirrors A' (Descent.add node) (Pure.pure e) fun e => placed A e := by
  have hlength : A.placeOf e = A'.nodes.length := by
    have hlengths := congrArg (·.nodes.length) h
    simp only [Arena.length_extend, Arena.push, List.length_append, List.length_singleton]
      at hlengths
    rw [Arena.placeOf, hlengths, Nat.add_sub_cancel]
  rw [Mirrors, map_pure, placed, h, hlength]
  rfl

end Mirrors

/-! ## §5 Reading -/

section

variable {w : Width} {source : Text} {rounds : Nat} {A : Arena}

theorem mirrors_addEscape (w : Width) (A : Arena) (e : Escape) :
    Mirrors A (addEscape w e) (pure (e.toExpr w)) (placed A) := by
  cases e with
  | ofClass c =>
    cases c with
    | single u => exact .add (Arena.extend_leaf rfl rfl)
    | shorthand s => exact .add (Arena.extend_leaf rfl rfl)
  | reference r => rfl

/-- At the place of a tree stands its root. -/
theorem exists_root (A : Arena) (e : Expr Reference) :
    ∃ node, (A.extend e).nodes[A.placeOf e]? = some node ∧ node.isAnchor = e.isAnchor := by
  have hplace : (A.extend e).nodes[A.placeOf e]? = (A.extend e).nodes.getLast? := by
    rw [List.getLast?_eq_getElem?, Arena.length_extend, Arena.placeOf]
  rw [hplace]
  cases e <;>
    simp [Arena.extend, Expr.provisional, Expr.nodesFrom, Node.isAnchor, Expr.isAnchor]

theorem run_nodeAt {place : Nat} {node : Node} (h : A.nodes[place]? = some node) :
    (nodeAt place).run A = pure (node, A) := by
  simp [nodeAt, h]

theorem mirrors_fillSuffix (source : Text) (rounds : Nat) (A : Arena) (atom : Expr Reference) :
    Mirrors (A.extend atom) (fillSuffix source rounds (A.placeOf atom))
      (parseSuffix source rounds atom) (placed A) := by
  obtain ⟨root, hroot, hanchor⟩ := exists_root A atom
  refine .step _ fun quantified => .ite (.look (run_nodeAt hroot) ?_) (.pure rfl)
  rw [hanchor]
  refine .ite (.step _ fun i => .fail _ i) (.step _ fun bounds => .step _ fun more => ?_)
  exact .ite (.step _ fun i => .fail _ i) (.add (A.extend_quantified atom bounds))

section Calls

variable {inner : Filling Nat} {inner' : Descent (Expr Reference)}

theorem mirrors_fillGroup (hinner : ∀ A, Mirrors A inner inner' (placed A)) (A : Arena) :
    Mirrors A (fillGroup source rounds inner) (parseGroup source rounds inner') (placed A) := by
  refine .step _ ?_
  rintro ⟨opening, index⟩
  refine (hinner A).bind fun body => .step _ fun closed => .ite ?_ (.fail _ _)
  exact .step _ fun _ => .add (A.extend_group index body)

theorem mirrors_fillAtom (w : Width) (hinner : ∀ A, Mirrors A inner inner' (placed A))
    (A : Arena) :
    Mirrors A (fillAtom w source rounds inner) (parseAtom w source rounds inner') (placed A) := by
  refine .step _ fun u => .ite (mirrors_fillGroup hinner A) (.ite ?_ (.ite ?_ ?_))
  · exact .step _ fun c => .add (Arena.extend_leaf rfl rfl)
  · exact .step _ fun e => mirrors_addEscape w A e
  · refine .step _ fun _ => .add ?_
    split_ifs <;> exact Arena.extend_leaf rfl rfl

theorem mirrors_fillQuantified (w : Width) (hinner : ∀ A, Mirrors A inner inner' (placed A))
    (A : Arena) :
    Mirrors A (fillQuantified w source rounds inner) (parseQuantified w source rounds inner')
      (placed A) := by
  refine .step _ fun u => .ite (.step _ fun i => .fail _ i) ?_
  exact (mirrors_fillAtom w hinner A).bind fun atom => mirrors_fillSuffix source rounds A atom

/-- By induction on the rounds: each item is added behind those in front of it. -/
theorem mirrors_fillItems (w : Width) (hinner : ∀ A, Mirrors A inner inner' (placed A))
    (left : Nat) (A : Arena) :
    Mirrors A (fillItems w source rounds inner left) (parseItems w source rounds inner' left)
      (placedAll A) := by
  induction left generalizing A with
  | zero => exact .unended
  | succ left ih =>
    refine .step _ fun more => .ite ?_ (.pure (placedAll_nil A))
    refine (mirrors_fillQuantified w hinner A).bind fun item => (ih (A.extend item)).bind ?_
    exact fun items => .pure (placedAll_cons A item items)

theorem mirrors_fillConcat (w : Width) (hinner : ∀ A, Mirrors A inner inner' (placed A))
    (A : Arena) :
    Mirrors A (fillConcat w source rounds inner) (parseConcat w source rounds inner')
      (placed A) := by
  refine (mirrors_fillItems w hinner rounds A).bind fun items => ?_
  cases items with
  | nil => exact .add (A.extend_concat [])
  | cons item items =>
    cases items with
    | nil => exact .pure (placed_singleton A item)
    | cons item' items => exact .add (A.extend_concat _)

/-- By induction on the rounds: each branch is added behind those in front of it. -/
theorem mirrors_fillBranches (w : Width) (hinner : ∀ A, Mirrors A inner inner' (placed A))
    (left : Nat) (A : Arena) :
    Mirrors A (fillBranches w source rounds inner left)
      (parseBranches w source rounds inner' left) (placedAll A) := by
  induction left generalizing A with
  | zero => exact .unended
  | succ left ih =>
    refine (mirrors_fillConcat w hinner A).bind fun branch => .step _ fun more => .ite ?_ ?_
    · refine (ih (A.extend branch)).bind fun branches => .pure ?_
      exact placedAll_cons A branch branches
    · refine .pure ?_
      rw [placedAll_cons, placedAll_nil]
      rfl

end Calls

/-- By induction on the levels: the content of a group is added by the same function. -/
theorem mirrors_fillAlternation (w : Width) (levels : Nat) (A : Arena) :
    Mirrors A (fillAlternation w source rounds levels) (parseAlternation w source rounds levels)
      (placed A) := by
  induction levels generalizing A with
  | zero => exact .unended
  | succ levels ih =>
    refine (mirrors_fillBranches w ih rounds A).bind fun branches => ?_
    cases branches with
    | nil => exact .add (A.extend_alternation [])
    | cons branch branches =>
      cases branches with
      | nil => exact .pure (placed_singleton A branch)
      | cons branch' branches => exact .add (A.extend_alternation _)

end

end Descent

/-! ## §6 Resolving -/

namespace Expr

variable {ρ σ ε : Type} {f : ρ → Except ε σ}

mutual

/-- Resolving the references of a tree leaves the number of its nodes. -/
theorem nodeCount_of_resolve {e : Expr ρ} {e' : Expr σ} (h : e.resolve f = .ok e') :
    e'.nodeCount = e.nodeCount := by
  cases e with
  | unit | charClass | any | anchor =>
    cases h
    rfl
  | backreference r =>
    obtain ⟨s, -, rfl⟩ := bind_pure_eq_ok_iff.mp h
    rfl
  | group _ body | quantified body _ =>
    obtain ⟨body', hbody, rfl⟩ := bind_pure_eq_ok_iff.mp h
    exact congrArg (· + 1) (nodeCount_of_resolve hbody)
  | concat es | alternation es =>
    obtain ⟨es', hes, rfl⟩ := bind_pure_eq_ok_iff.mp h
    exact congrArg (· + 1) (nodeCountAll_of_resolveAll hes)

theorem nodeCountAll_of_resolveAll {es : List (Expr ρ)} {es' : List (Expr σ)}
    (h : resolveAll f es = .ok es') : nodeCountAll es' = nodeCountAll es := by
  cases es with
  | nil =>
    cases h
    rfl
  | cons e es =>
    obtain ⟨e₁, es₁, he, hes, rfl⟩ := resolveAll_cons_eq_ok.mp h
    exact congrArg₂ _ (nodeCount_of_resolve he) (nodeCountAll_of_resolveAll hes)

end

theorem rootsFrom_of_resolveAll {es : List (Expr ρ)} {es' : List (Expr σ)}
    (h : resolveAll f es = .ok es') (base : Nat) : rootsFrom base es' = rootsFrom base es := by
  induction es generalizing es' base with
  | nil =>
    cases h
    rfl
  | cons e es ih =>
    obtain ⟨e₁, es₁, he, hes, rfl⟩ := resolveAll_cons_eq_ok.mp h
    rw [rootsFrom, rootsFrom, nodeCount_of_resolve he, ih hes]

end Expr

namespace Descent

/-- A check as a step of the descent. -/
def ofChecked {α : Type} : Checked α → Descent α
  | .ok a => pure a
  | .error e => throw (.refused e)

variable {groupCount : Nat} {names : NameTable}

theorem groupOf_number (position n : Nat) :
    Draft.groupOf groupCount names ⟨position, .number n⟩ =
      if n = 0 ∨ groupCount < n then refuse .badBackreference position else .ok n := by
  unfold Draft.groupOf
  dsimp only
  by_cases h : n = 0 ∨ groupCount < n
  · rw [if_pos h, if_neg]
    simp only [Bool.and_eq_true, decide_eq_true_eq]
    omega
  · rw [if_neg h, if_pos]
    simp only [Bool.and_eq_true, decide_eq_true_eq]
    omega

/-- The node of a reference gets the number of the group that the reference means. -/
theorem patch_eq {nodes : List Node} {place : Nat} (r : Reference)
    (h : nodes[place]? = some (.backreference r.target.provisional)) :
    patch groupCount names nodes ⟨r.position, place, r.target.name?⟩ =
      ofChecked (do
        return nodes.set place (.backreference (← Draft.groupOf groupCount names r))) := by
  obtain ⟨position, target⟩ := r
  cases target with
  | number n =>
    have hset : nodes.set place (.backreference n) = nodes := by
      obtain ⟨hlt, hget⟩ := List.getElem?_eq_some_iff.mp h
      exact (congrArg (nodes.set place) hget.symm).trans (List.set_getElem_self hlt)
    rw [groupOf_number, patch, h]
    dsimp only [Target.name?, Target.provisional]
    split
    · rfl
    · exact congrArg pure hset.symm
  | name name =>
    rw [Draft.groupOf, patch, h]
    dsimp only [Target.name?, Target.provisional]
    cases names.find? name with
    | none => rfl
    | some n => rfl

/-- Only what can be checked matters behind a check. -/
theorem check_congr {α β : Type} {x : Checked α} {f g : α → β} (h : ∀ a, x = .ok a → f a = g a) :
    (do return f (← x)) = (do return g (← x)) := by
  cases x with
  | ok a => exact congrArg Except.ok (h a rfl)
  | error e => rfl

theorem append_append_assoc {α : Type} (a b c d : List α) :
    a ++ (b ++ c) ++ d = a ++ b ++ (c ++ d) := by
  simp only [List.append_assoc]

mutual

/-- Looking up the references of a tree, which stands among other nodes, makes its nodes those
of the resolved tree; or it refuses the pattern for what stops resolving. -/
theorem foldlM_patch (front back : List Node) (e : Expr Reference) :
    (e.unresolvedFrom front.length).foldlM (patch groupCount names)
        (front ++ e.provisional.nodesFrom front.length ++ back) =
      ofChecked (do
        return front ++ (← e.resolve (Draft.groupOf groupCount names)).nodesFrom front.length ++
          back) := by
  cases e with
  | unit | charClass | any | anchor => rfl
  | backreference r =>
    have hnode : (front ++ [.backreference r.target.provisional] ++ back)[front.length]? =
        some (.backreference r.target.provisional) := by simp
    simp only [Expr.unresolvedFrom, Expr.provisional, Expr.nodesFrom, List.foldlM_cons,
      List.foldlM_nil, bind_pure, patch_eq r hnode, Expr.resolve, bind_assoc, pure_bind]
    refine congrArg ofChecked (check_congr fun n _ => ?_)
    simp
  | group _ body | quantified body _ =>
    simp only [Expr.unresolvedFrom, Expr.provisional, Expr.nodesFrom, Expr.nodeCount_provisional,
      append_append_assoc, Expr.resolve, bind_assoc, pure_bind]
    refine (foldlM_patch front (_ ++ back) body).trans ?_
    refine congrArg ofChecked (check_congr fun body' hresolve => ?_)
    rw [Expr.nodeCount_of_resolve hresolve]
  | concat es | alternation es =>
    simp only [Expr.unresolvedFrom, Expr.provisional, Expr.nodesFrom, Expr.rootsFrom_provisional,
      append_append_assoc, Expr.resolve, bind_assoc, pure_bind]
    refine (foldlM_patchAll front (_ ++ back) es).trans ?_
    refine congrArg ofChecked (check_congr fun es' hresolve => ?_)
    rw [Expr.rootsFrom_of_resolveAll hresolve]

theorem foldlM_patchAll (front back : List Node) (es : List (Expr Reference)) :
    (Expr.unresolvedFromAll front.length es).foldlM (patch groupCount names)
        (front ++ Expr.nodesFromAll front.length (Expr.provisionalAll es) ++ back) =
      ofChecked (do
        return front ++ Expr.nodesFromAll front.length
          (← Expr.resolveAll (Draft.groupOf groupCount names) es) ++ back) := by
  cases es with
  | nil => rfl
  | cons e es =>
    simp only [Expr.unresolvedFromAll, Expr.provisionalAll, Expr.nodesFromAll,
      Expr.nodeCount_provisional, append_append_assoc, List.foldlM_append, Expr.resolveAll,
      bind_assoc, pure_bind]
    rw [foldlM_patch front (_ ++ back) e]
    cases hresolve : e.resolve (Draft.groupOf groupCount names) with
    | error err => rfl
    | ok e' =>
      have hlength : (front ++ e'.nodesFrom front.length).length = front.length + e.nodeCount := by
        rw [List.length_append, Expr.length_nodesFrom, Expr.nodeCount_of_resolve hresolve]
      have hothers := foldlM_patchAll (front ++ e'.nodesFrom front.length) back es
      rw [hlength, List.append_assoc] at hothers
      refine hothers.trans (congrArg ofChecked (check_congr fun es' _ => ?_))
      rw [Expr.nodeCount_of_resolve hresolve, List.append_assoc _ _ back]

end

/-! ## §7 Patterns -/

/-- The nodes of a tree that has been read are those of the resolved tree when its references
have been looked up. -/
theorem foldlM_patch_extend (root : Expr Reference) :
    (Arena.empty.extend root).unresolved.foldlM (patch groupCount names)
        (Arena.empty.extend root).nodes =
      ofChecked (do return (← root.resolve (Draft.groupOf groupCount names)).nodesFrom 0) := by
  have hpatch := @foldlM_patch groupCount names [] [] root
  simp only [List.append_nil, List.nil_append, List.length_nil] at hpatch
  exact hpatch

/-- The descent that fills an arena comes to the nodes of the tree that the other one reads. -/
theorem fill_eq (w : Width) (source : Text) (rounds : Nat) :
    fill w source rounds = Pattern.placed <$> descend w source rounds := by
  have hmirrors : (fillAlternation w source rounds rounds).run .empty = _ :=
    mirrors_fillAlternation w rounds .empty
  rw [fill, hmirrors, descend, bind_map_left, map_bind]
  refine bind_congr fun root => ?_
  rw [map_bind]
  refine bind_congr fun ended => ?_
  cases ended with
  | false => rfl
  | true =>
    simp only [if_true, map_bind, foldlM_patch_extend]
    refine bind_congr fun s => ?_
    cases hresolve : root.resolve (Draft.groupOf s.groupCount s.names) with
    | error err => rfl
    | ok root' =>
      have hplace : Arena.empty.placeOf root = root'.nodeCount - 1 := by
        rw [Expr.nodeCount_of_resolve hresolve, Arena.placeOf, Arena.empty, List.length_nil,
          Nat.zero_add]
      rw [hplace]
      rfl

theorem map_apply {α β : Type} {g : Descent α} {s t : DescentState} {r : Except Halt α}
    {f : α → β} (h : g s = some (r, t)) : (f <$> g) s = some (f <$> r, t) := by
  show (g s).bind _ = _
  rw [h]
  cases r <;> rfl

/-- The descent that fills an arena ends as the parser does, with the nodes of the pattern, the
place of the root, the number of groups and their names, or with the same fault. -/
theorem fill_eq_parse (w : Width) (source : Text) {rounds : Nat} (hrounds : source.size < rounds) :
    ∃ t, fill w source rounds .initial =
      some (outcome (Pattern.placed <$> parse w source), t) := by
  obtain ⟨t, hrun, -⟩ := descend_eq_parse w hrounds
  refine ⟨t, ?_⟩
  rw [fill_eq, map_apply hrun]
  cases parse w source with
  | ok p => rfl
  | error e => rfl

end Descent

end LineRegex
