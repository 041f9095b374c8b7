/-
LineRegex.Proofs.Listing — the list of nodes is a tree in postorder.

A list of nodes refers to nodes by their places. `Listed` says, without
numbering anything, what it is for such a list to hold a tree: the parts of
the tree one after another, each ending with its root, and then a node that
refers to those roots.

  §1 Listings  — when a list of nodes holds a tree.
  §2 Places    — the nodes of a tree are a listing of it.
  §3 Children  — children stand before their parent, and have no other.
-/
import Mathlib.Data.List.Nodup
import LineRegex.Pattern.Arena

namespace LineRegex

/-! ## §1 Listings -/

/-- The places of the children of a node, from left to right. -/
def Node.children : Node → List Nat
  | group _ body | quantified body _ => [body]
  | concat places | alternation places => places
  | unit _ | charClass _ | any | anchor _ | backreference _ => []

namespace Expr

variable {nodes : List Node}

mutual

/-- The places from `lo` up to `hi` hold the tree, its root at the last of them. -/
inductive Listed (nodes : List Node) : Nat → Regex → Nat → Prop where
  | unit {i : Nat} {u : CodeUnit} (h : nodes[i]? = some (.unit u)) :
      Listed nodes i (.unit u) (i + 1)
  | charClass {i : Nat} {c : CharClass} (h : nodes[i]? = some (.charClass c)) :
      Listed nodes i (.charClass c) (i + 1)
  | any {i : Nat} (h : nodes[i]? = some .any) : Listed nodes i .any (i + 1)
  | anchor {i : Nat} {a : Anchor} (h : nodes[i]? = some (.anchor a)) :
      Listed nodes i (.anchor a) (i + 1)
  | backreference {i g : Nat} (h : nodes[i]? = some (.backreference g)) :
      Listed nodes i (.backreference g) (i + 1)
  | group {lo hi : Nat} {index : Option Nat} {body : Regex} (hbody : Listed nodes lo body (hi + 1))
      (h : nodes[hi + 1]? = some (.group index hi)) :
      Listed nodes lo (.group index body) (hi + 2)
  | quantified {lo hi : Nat} {body : Regex} {bounds : Bounds}
      (hbody : Listed nodes lo body (hi + 1))
      (h : nodes[hi + 1]? = some (.quantified hi bounds)) :
      Listed nodes lo (.quantified body bounds) (hi + 2)
  | concat {lo hi : Nat} {items : List Regex} {places : List Nat}
      (hitems : ListedAll nodes lo items places hi) (h : nodes[hi]? = some (.concat places)) :
      Listed nodes lo (.concat items) (hi + 1)
  | alternation {lo hi : Nat} {branches : List Regex} {places : List Nat}
      (hbranches : ListedAll nodes lo branches places hi)
      (h : nodes[hi]? = some (.alternation places)) :
      Listed nodes lo (.alternation branches) (hi + 1)

/-- The places from `lo` up to `hi` hold the trees one after another, with
their roots at the given places. -/
inductive ListedAll (nodes : List Node) : Nat → List Regex → List Nat → Nat → Prop where
  | nil {i : Nat} : ListedAll nodes i [] [] i
  | cons {lo mid hi : Nat} {e : Regex} {es : List Regex} {places : List Nat}
      (he : Listed nodes lo e (mid + 1)) (hes : ListedAll nodes (mid + 1) es places hi) :
      ListedAll nodes lo (e :: es) (mid :: places) hi

end

/-! ## §2 Places -/

variable {ρ : Type}

theorem exists_nodeCount (e : Expr ρ) : ∃ k, e.nodeCount = k + 1 := by
  cases e with
  | unit | charClass | any | anchor | backreference => exact ⟨0, rfl⟩
  | group | concat | alternation | quantified => exact ⟨_, rfl⟩

mutual

theorem length_nodesFrom (base : Nat) (e : Regex) : (e.nodesFrom base).length = e.nodeCount := by
  cases e with
  | unit | charClass | any | anchor | backreference => rfl
  | group index body | quantified body bounds =>
    rw [nodesFrom, List.length_append, length_nodesFrom base body]
    rfl
  | concat es | alternation es =>
    rw [nodesFrom, List.length_append, length_nodesFromAll base es]
    rfl

theorem length_nodesFromAll (base : Nat) (es : List Regex) :
    (nodesFromAll base es).length = nodeCountAll es := by
  cases es with
  | nil => rfl
  | cons e es =>
    rw [nodesFromAll, List.length_append, length_nodesFrom, length_nodesFromAll _ es]
    rfl

end

theorem isPrefix_drop_append {α : Type} {l l₁ l₂ : List α} {i : Nat} (h : l₁ ++ l₂ <+: l.drop i) :
    l₁ <+: l.drop i ∧ l₂ <+: l.drop (i + l₁.length) := by
  obtain ⟨rest, hrest⟩ := h
  rw [List.append_assoc] at hrest
  refine ⟨⟨_, hrest⟩, rest, ?_⟩
  rw [← List.drop_drop, ← hrest, List.drop_left]

theorem getElem?_of_prefix_drop {α : Type} {l : List α} {a : α} {i : Nat} (h : [a] <+: l.drop i) :
    l[i]? = some a := by
  obtain ⟨rest, hrest⟩ := h
  rw [← Nat.add_zero i, ← List.getElem?_drop, ← hrest]
  rfl

mutual

/-- Wherever the nodes of a tree stand, they list it. -/
theorem listed_at (base : Nat) (e : Regex) (h : e.nodesFrom base <+: nodes.drop base) :
    Listed nodes base e (base + e.nodeCount) := by
  cases e with
  | unit u => exact .unit (getElem?_of_prefix_drop h)
  | charClass c => exact .charClass (getElem?_of_prefix_drop h)
  | any => exact .any (getElem?_of_prefix_drop h)
  | anchor a => exact .anchor (getElem?_of_prefix_drop h)
  | backreference g => exact .backreference (getElem?_of_prefix_drop h)
  | group index body =>
    obtain ⟨hbody, hnode⟩ := isPrefix_drop_append h
    obtain ⟨k, hk⟩ := body.exists_nodeCount
    have hlisted := listed_at base body hbody
    rw [length_nodesFrom, hk] at hnode
    rw [hk] at hlisted
    rw [nodeCount, hk]
    exact .group hlisted (getElem?_of_prefix_drop hnode)
  | quantified body bounds =>
    obtain ⟨hbody, hnode⟩ := isPrefix_drop_append h
    obtain ⟨k, hk⟩ := body.exists_nodeCount
    have hlisted := listed_at base body hbody
    rw [length_nodesFrom, hk] at hnode
    rw [hk] at hlisted
    rw [nodeCount, hk]
    exact .quantified hlisted (getElem?_of_prefix_drop hnode)
  | concat items =>
    obtain ⟨hitems, hnode⟩ := isPrefix_drop_append h
    rw [length_nodesFromAll] at hnode
    exact .concat (listedAll_at base items hitems) (getElem?_of_prefix_drop hnode)
  | alternation branches =>
    obtain ⟨hbranches, hnode⟩ := isPrefix_drop_append h
    rw [length_nodesFromAll] at hnode
    exact .alternation (listedAll_at base branches hbranches)
      (getElem?_of_prefix_drop hnode)

theorem listedAll_at (base : Nat) (es : List Regex)
    (h : nodesFromAll base es <+: nodes.drop base) :
    ListedAll nodes base es (rootsFrom base es) (base + nodeCountAll es) := by
  cases es with
  | nil => exact .nil
  | cons e es =>
    obtain ⟨hfirst, hothers⟩ := isPrefix_drop_append h
    rw [length_nodesFrom] at hothers
    have hlisted := listed_at base e hfirst
    have hlistedAll := listedAll_at (base + e.nodeCount) es hothers
    obtain ⟨k, hk⟩ := e.exists_nodeCount
    rw [rootsFrom, nodeCountAll, ← Nat.add_assoc]
    rw [hk] at hlisted hlistedAll ⊢
    exact .cons hlisted hlistedAll

end

/-! ## §3 Children -/

theorem mem_rootsFrom {base c : Nat} {es : List Regex} (h : c ∈ rootsFrom base es) :
    base ≤ c ∧ c < base + nodeCountAll es := by
  induction es generalizing base with
  | nil => cases h
  | cons e es ih =>
    obtain ⟨k, hk⟩ := e.exists_nodeCount
    rw [nodeCountAll]
    rcases List.mem_cons.mp h with rfl | h
    · omega
    · have := ih h
      omega

theorem getElem?_concat {α : Type} {l : List α} {a b : α} {i : Nat}
    (h : (l ++ [a])[i]? = some b) : l[i]? = some b ∨ i = l.length ∧ a = b := by
  rcases Nat.lt_trichotomy i l.length with hlt | rfl | hgt
  · rw [List.getElem?_append_left hlt] at h
    exact .inl h
  · rw [List.getElem?_concat_length] at h
    exact .inr ⟨rfl, Option.some.inj h⟩
  · have hlength : (l ++ [a]).length ≤ i := by rwa [List.length_append]
    rw [List.getElem?_eq_none hlength] at h
    cases h

mutual

/-- Children stand before their parent. -/
theorem children_nodesFrom (base : Nat) (e : Regex) {i : Nat} {node : Node}
    (h : (e.nodesFrom base)[i]? = some node) :
    ∀ c ∈ node.children, base ≤ c ∧ c < base + i := by
  cases e with
  | unit | charClass | any | anchor | backreference =>
    obtain rfl := List.mem_singleton.mp (List.mem_of_getElem? h)
    simp [Node.children]
  | group _ body | quantified body _ =>
    rcases getElem?_concat h with hbody | ⟨rfl, rfl⟩
    · exact children_nodesFrom base body hbody
    · intro c hc
      obtain ⟨k, hk⟩ := body.exists_nodeCount
      obtain rfl := List.mem_singleton.mp hc
      rw [length_nodesFrom]
      omega
  | concat es | alternation es =>
    rcases getElem?_concat h with hes | ⟨rfl, rfl⟩
    · exact children_nodesFromAll base es hes
    · intro c hc
      rw [length_nodesFromAll]
      exact mem_rootsFrom hc

theorem children_nodesFromAll (base : Nat) (es : List Regex) {i : Nat} {node : Node}
    (h : (nodesFromAll base es)[i]? = some node) :
    ∀ c ∈ node.children, base ≤ c ∧ c < base + i := by
  cases es with
  | nil => cases h
  | cons e es =>
    rw [nodesFromAll] at h
    by_cases hi : i < (e.nodesFrom base).length
    · rw [List.getElem?_append_left hi] at h
      exact children_nodesFrom base e h
    · rw [List.getElem?_append_right (Nat.le_of_not_lt hi)] at h
      rw [length_nodesFrom] at hi h
      intro c hc
      have := children_nodesFromAll _ es h c hc
      omega

end

theorem perm_root_forward {α : Type} (l l' roots : List α) (root : α) :
    (l ++ l' ++ root :: roots).Perm (l ++ [root] ++ (l' ++ roots)) := by
  rw [List.append_assoc, List.append_assoc]
  exact List.perm_middle.append_left l

mutual

/-- The children of all nodes are all places in front of the root, once each. -/
theorem perm_children_nodesFrom (base : Nat) (e : Regex) :
    ((e.nodesFrom base).flatMap Node.children).Perm (List.range' base (e.nodeCount - 1)) := by
  cases e with
  | unit | charClass | any | anchor | backreference => exact .refl _
  | group _ body | quantified body _ =>
    obtain ⟨k, hk⟩ := body.exists_nodeCount
    have hbody := perm_children_nodesFrom base body
    rw [nodesFrom, nodeCount, List.flatMap_append, Nat.add_sub_cancel]
    rw [hk] at hbody ⊢
    rw [List.range'_concat, Nat.one_mul]
    exact hbody.append_right _
  | concat es | alternation es =>
    rw [nodesFrom, nodeCount, List.flatMap_append, Nat.add_sub_cancel, List.flatMap_singleton]
    exact perm_children_nodesFromAll base es

theorem perm_children_nodesFromAll (base : Nat) (es : List Regex) :
    ((nodesFromAll base es).flatMap Node.children ++ rootsFrom base es).Perm
      (List.range' base (nodeCountAll es)) := by
  cases es with
  | nil => exact .refl _
  | cons e es =>
    obtain ⟨k, hk⟩ := e.exists_nodeCount
    have hfirst := perm_children_nodesFrom base e
    have hothers := perm_children_nodesFromAll (base + e.nodeCount) es
    rw [nodesFromAll, rootsFrom, nodeCountAll, List.flatMap_append, ← List.range'_append_1]
    rw [hk] at hfirst hothers ⊢
    have hroot : List.range' base (k + 1) = List.range' base k ++ [base + k] := by
      rw [List.range'_concat, Nat.one_mul]
    have hmove := perm_root_forward ((nodesFrom base e).flatMap Node.children)
      ((nodesFromAll (base + (k + 1)) es).flatMap Node.children)
      (rootsFrom (base + (k + 1)) es) (base + k)
    rw [hroot]
    exact hmove.trans ((hfirst.append_right _).append hothers)

end

end Expr

namespace Pattern

variable {p : Pattern}

theorem length_nodes (p : Pattern) : p.nodes.length = p.root.nodeCount := p.root.length_nodesFrom 0

theorem rootPlace_succ (p : Pattern) : p.rootPlace + 1 = p.nodes.length := by
  obtain ⟨k, hk⟩ := p.root.exists_nodeCount
  rw [length_nodes, rootPlace, hk]
  rfl

theorem nodes_ne_nil (p : Pattern) : p.nodes ≠ [] := by
  rw [← List.length_pos_iff_ne_nil, ← p.rootPlace_succ]
  exact Nat.succ_pos _

/-- The nodes of a pattern list its tree, from the first place to the last. -/
theorem listed_nodes (p : Pattern) : Expr.Listed p.nodes 0 p.root p.nodes.length := by
  have hlisted : Expr.Listed p.nodes 0 p.root (0 + p.root.nodeCount) :=
    Expr.listed_at 0 p.root (List.prefix_refl _)
  rwa [Nat.zero_add, ← p.length_nodes] at hlisted

theorem lt_of_mem_children {i c : Nat} {node : Node} (h : p.nodes[i]? = some node)
    (hc : c ∈ node.children) : c < i := by
  have := (p.root.children_nodesFrom 0 h c hc).2
  rwa [Nat.zero_add] at this

theorem nodup_children (p : Pattern) : ∀ node ∈ p.nodes, node.children.Nodup :=
  (List.nodup_flatMap.mp
    ((p.root.perm_children_nodesFrom 0).nodup_iff.mpr List.nodup_range')).1

/-- Every node but the root is the child of exactly one node. -/
theorem existsUnique_parent {c : Nat} (hc : c < p.rootPlace) :
    ∃! i : Nat, ∃ node : Node, p.nodes[i]? = some node ∧ c ∈ node.children := by
  have hperm := p.root.perm_children_nodesFrom 0
  have hmem : c ∈ p.nodes.flatMap Node.children := by
    refine hperm.mem_iff.mpr (List.mem_range'_1.mpr ?_)
    rw [Nat.zero_add]
    exact ⟨Nat.zero_le c, hc⟩
  have hapart : p.nodes.Pairwise fun node node' : Node =>
      node.children.Disjoint node'.children :=
    (List.nodup_flatMap.mp (hperm.nodup_iff.mpr List.nodup_range')).2
  obtain ⟨node, hnode, hchild⟩ := List.mem_flatMap.mp hmem
  obtain ⟨i, hi⟩ := List.mem_iff_getElem?.mp hnode
  refine ⟨i, ⟨node, hi, hchild⟩, ?_⟩
  rintro j ⟨node', hj, hchild'⟩
  obtain ⟨hlen, rfl⟩ := List.getElem?_eq_some_iff.mp hi
  obtain ⟨hlen', rfl⟩ := List.getElem?_eq_some_iff.mp hj
  rw [List.pairwise_iff_getElem] at hapart
  rcases Nat.lt_trichotomy i j with hlt | heq | hgt
  · exact absurd hchild' (hapart i j hlen hlen' hlt hchild)
  · exact heq.symm
  · exact absurd hchild (hapart j i hlen' hlen hgt hchild')

end Pattern

end LineRegex
