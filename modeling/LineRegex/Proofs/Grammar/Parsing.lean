/-
LineRegex.Proofs.Grammar.Parsing — derivations are parsed.

Reading leaves a tree whose backreferences hold what was written. Once the
whole pattern is known they are replaced by group numbers, which succeeds
exactly when each of them means a group. So a text with a derivation is parsed
to the pattern that the derivation denotes.

The reader does not tell numbers past `maxRepeatCount` apart, so this is about
patterns with at most that many groups.

  §1 Renaming        — replacing the references of a derivation's tree.
  §2 Targets         — which of them mean a group.
  §3 Parsing
-/
import LineRegex.Proofs.Everywhere
import LineRegex.Proofs.Grammar.Reading

namespace LineRegex

/-! ## §1 Renaming -/

namespace Expr

variable {ρ σ ε : Type} {f : ρ → Except ε σ}

theorem resolveAll_cons_eq_ok {e : Expr ρ} {es : List (Expr ρ)} {es' : List (Expr σ)} :
    resolveAll f (e :: es) = .ok es' ↔
      ∃ e₁ es₁, e.resolve f = .ok e₁ ∧ resolveAll f es = .ok es₁ ∧ e₁ :: es₁ = es' := by
  simp only [resolveAll, bind_eq_ok_iff, pure, Except.pure, Except.ok.injEq]
  constructor
  · rintro ⟨e₁, he, es₁, hes, rfl⟩
    exact ⟨e₁, es₁, he, hes, rfl⟩
  · rintro ⟨e₁, es₁, he, hes, rfl⟩
    exact ⟨e₁, he, es₁, hes, rfl⟩

theorem length_of_resolveAll {es : List (Expr ρ)} {es' : List (Expr σ)}
    (h : resolveAll f es = .ok es') : es'.length = es.length := by
  induction es generalizing es' with
  | nil =>
    rw [resolveAll, Except.ok.injEq] at h
    rw [← h, List.length_nil, List.length_nil]
  | cons e es ih =>
    obtain ⟨e₁, es₁, -, hes, rfl⟩ := resolveAll_cons_eq_ok.mp h
    rw [List.length_cons, List.length_cons, ih hes]

theorem resolve_inSequence_eq_ok {es : List (Expr ρ)} {e' : Expr σ} :
    (inSequence es).resolve f = .ok e' ↔
      ∃ es', resolveAll f es = .ok es' ∧ inSequence es' = e' := by
  by_cases hone : es.length = 1
  · obtain ⟨e, rfl⟩ := List.length_eq_one_iff.mp hone
    simp [inSequence, resolveAll_cons_eq_ok, resolveAll.eq_1]
  · have hmany : ∀ es', resolveAll f es = .ok es' → inSequence es' = concat es' := fun es' h =>
      inSequence_eq_concat (by rwa [length_of_resolveAll h])
    rw [inSequence_eq_concat hone, resolve, bind_pure_eq_ok_iff]
    exact exists_congr fun es' => and_congr_right fun h => by rw [hmany es' h]

theorem resolve_oneOf_eq_ok {es : List (Expr ρ)} {e' : Expr σ} :
    (oneOf es).resolve f = .ok e' ↔ ∃ es', resolveAll f es = .ok es' ∧ oneOf es' = e' := by
  by_cases hone : es.length = 1
  · obtain ⟨e, rfl⟩ := List.length_eq_one_iff.mp hone
    simp [oneOf, resolveAll_cons_eq_ok, resolveAll.eq_1]
  · have hmany : ∀ es', resolveAll f es = .ok es' → oneOf es' = alternation es' := fun es' h =>
      oneOf_eq_alternation (by rwa [length_of_resolveAll h])
    rw [oneOf_eq_alternation hone, resolve, bind_pure_eq_ok_iff]
    exact exists_congr fun es' => and_congr_right fun h => by rw [hmany es' h]

end Expr

/-- A target as the reader keeps it: numbers past `maxRepeatCount` are not told apart. -/
def Target.capped : Target → Target
  | .number n => .number (min n (maxRepeatCount + 1))
  | .name n => .name n

namespace Grammar

variable {ρ σ ε : Type} {f : ρ → Except ε σ} {w : Width} {ref : Nat → Target → ρ}
  {ref' : Nat → Target → σ} {position n : Nat}

theorem resolve_quantify_eq_ok {q : Option Quantifier} {e : Expr ρ} {e' : Expr σ} :
    (quantify q e).resolve f = .ok e' ↔ ∃ e₁, e.resolve f = .ok e₁ ∧ quantify q e₁ = e' := by
  cases q with
  | none => simp [quantify]
  | some q => rw [quantify, Expr.resolve, bind_pure_eq_ok_iff]; rfl

theorem Atom.resolve_expr {a : Atom}
    (h : ∀ t ∈ a.targets, f (ref position t) = .ok (ref' position t)) :
    (a.expr w ref position).resolve f = .ok (a.expr w ref' position) := by
  cases a with
  | escape e =>
    rw [expr_escape, expr_escape]
    cases e.meaning <;> rfl
  | reference digits =>
    rw [expr, Expr.resolve, bind_pure_eq_ok_iff]
    exact ⟨_, h _ (List.mem_singleton.mpr rfl), rfl⟩
  | namedReference name =>
    rw [expr, Expr.resolve, bind_pure_eq_ok_iff]
    exact ⟨_, h _ (List.mem_singleton.mpr rfl), rfl⟩
  | _ => rfl

mutual

theorem Item.resolve_expr (position n : Nat) (i : Item)
    (h : ∀ t ∈ i.targets, ∀ p, f (ref p t) = .ok (ref' p t)) :
    (i.expr w ref position n).resolve f = .ok (i.expr w ref' position n) := by
  cases i with
  | atom a q =>
    rw [Item.expr, resolve_quantify_eq_ok]
    exact ⟨_, Atom.resolve_expr fun t ht => h t ht position, rfl⟩
  | group o body q =>
    rw [Item.expr, resolve_quantify_eq_ok]
    refine ⟨_, ?_, rfl⟩
    rw [Expr.resolve, bind_pure_eq_ok_iff]
    refine ⟨_, ?_, rfl⟩
    rw [Expr.resolve_oneOf_eq_ok]
    exact ⟨_, body.resolve_branches _ _ h, rfl⟩

theorem resolveAll_itemExprs (position n : Nat) (is : List Item)
    (h : ∀ t ∈ itemsTargets is, ∀ p, f (ref p t) = .ok (ref' p t)) :
    Expr.resolveAll f (itemExprs w ref position n is) = .ok (itemExprs w ref' position n is) := by
  cases is with
  | nil => rfl
  | cons i is =>
    rw [itemsTargets, List.forall_mem_append] at h
    rw [itemExprs, Expr.resolveAll_cons_eq_ok]
    exact ⟨_, _, i.resolve_expr _ _ h.1, resolveAll_itemExprs _ _ is h.2, rfl⟩

theorem Alternation.resolve_branches (position n : Nat) (a : Alternation)
    (h : ∀ t ∈ a.targets, ∀ p, f (ref p t) = .ok (ref' p t)) :
    Expr.resolveAll f (a.branches w ref position n) = .ok (a.branches w ref' position n) := by
  cases a with
  | last items =>
    rw [Alternation.branches, Expr.resolveAll_cons_eq_ok]
    refine ⟨_, [], ?_, rfl, rfl⟩
    rw [Expr.resolve_inSequence_eq_ok]
    exact ⟨_, resolveAll_itemExprs _ _ items h, rfl⟩
  | more items rest =>
    rw [Alternation.targets, List.forall_mem_append] at h
    rw [Alternation.branches, Expr.resolveAll_cons_eq_ok]
    refine ⟨_, _, ?_, rest.resolve_branches _ _ h.2, rfl⟩
    rw [Expr.resolve_inSequence_eq_ok]
    exact ⟨_, resolveAll_itemExprs _ _ items h.1, rfl⟩

end

/-! ## §2 Targets -/

theorem decimalValue_pos {ds : List CodeUnit} (hds : IsNumeral ds)
    (hzero : ds.head? ≠ some (unit '0')) : 0 < decimalValue ds := by
  obtain ⟨d, ds, rfl, hd, hd0⟩ := eq_cons_of_numeral hds hzero
  have hfold : ∀ (ds : List CodeUnit) (n : Nat), 0 < n →
      0 < ds.foldl (fun n d => n * 10 + (d - unit '0')) n := by
    intro ds
    induction ds with
    | nil => exact fun n hn => hn
    | cons d ds ih =>
      intro n hn
      exact ih _ (by show 0 < n * 10 + (d - unit '0'); omega)
  have hle : unit '0' ≤ d := by
    simp only [CodeUnit.isDigit, Bool.and_eq_true, decide_eq_true_eq] at hd
    exact hd.1
  have hpos : 0 < d - unit '0' := Nat.sub_pos_of_lt (Nat.lt_of_le_of_ne hle (Ne.symm hd0))
  exact hfold ds _ (by show 0 < 0 * 10 + (d - unit '0'); rwa [Nat.zero_mul, Nat.zero_add])

mutual

/-- No valid derivation refers to a group zero. -/
theorem Item.target_ne_zero (i : Item) (hi : i.Valid) : .number 0 ∉ i.targets := by
  cases i with
  | atom a q =>
    obtain ⟨ha, -⟩ := hi
    cases a with
    | reference digits => simpa [Item.targets, Atom.targets] using (decimalValue_pos ha.1 ha.2).ne
    | _ => simp [Item.targets, Atom.targets]
  | group o body q => exact body.target_ne_zero hi.2.1

theorem itemsTarget_ne_zero (is : List Item) (his : ValidItems is) :
    .number 0 ∉ itemsTargets is := by
  cases is with
  | nil => simp [itemsTargets]
  | cons i is =>
    rw [itemsTargets, List.mem_append, not_or]
    exact ⟨i.target_ne_zero his.1, itemsTarget_ne_zero is his.2.2⟩

theorem Alternation.target_ne_zero (a : Alternation) (ha : a.Valid) : .number 0 ∉ a.targets := by
  cases a with
  | last items => exact itemsTarget_ne_zero items ha
  | more items rest =>
    rw [Alternation.targets, List.mem_append, not_or]
    exact ⟨itemsTarget_ne_zero items ha.1, rest.target_ne_zero ha.2⟩

end

theorem mem_names_iff {a : Alternation} (hnames : ((a.names 0).map (·.1)).Nodup) {name : Text} :
    name ∈ (a.names 0).map (·.1) ↔ ∃ k, a.nameTable.find? name = some k := by
  have hfresh : Fresh [] (a.names 0) := fresh_iff.mpr ⟨hnames, fun _ _ => rfl⟩
  rw [Alternation.nameTable, find?_addNames hfresh, NameTable.find?_nil, Option.or_none,
    ← Option.isSome_iff_exists, List.lookup_isSome_iff]
  simp only [List.mem_map, beq_iff_eq]
  exact exists_congr fun e => and_congr_right fun _ => eq_comm

/-- The group of the pattern that a target means, if there is one. -/
def Alternation.groupMeant? (a : Alternation) : Target → Option Nat
  | .number n => if 1 ≤ n ∧ n ≤ a.groupCount then some n else none
  | .name name => a.nameTable.find? name

theorem readReference_eq (position : Nat) (t : Target) :
    readReference position t = ⟨position, t.capped⟩ := by
  cases t <;> rfl

theorem groupOf_read (a : Alternation) (position : Nat) (t : Target) :
    Draft.groupOf a.groupCount a.nameTable (readReference position t) =
      match a.groupMeant? t.capped with
      | some g => .ok g
      | none => refuse .badBackreference position := by
  rw [readReference_eq]
  cases t with
  | name name => rfl
  | number n =>
    rw [Target.capped]
    generalize min n (maxRepeatCount + 1) = k
    by_cases h : 1 ≤ k ∧ k ≤ a.groupCount <;> simp [Draft.groupOf, Alternation.groupMeant?, h]

/-- In a pattern that has no more groups than the reader can count, every
target means what is written. -/
theorem Alternation.groupMeant?_capped {a : Alternation} (hcount : a.groupCount ≤ maxRepeatCount)
    (t : Target) : a.groupMeant? t.capped = a.groupMeant? t := by
  cases t with
  | name name => rfl
  | number n =>
    by_cases hn : n ≤ maxRepeatCount + 1
    · rw [Target.capped, min_eq_left hn]
    · rw [Target.capped, min_eq_right (Nat.le_of_not_le hn), groupMeant?, groupMeant?,
        if_neg (by omega), if_neg (by omega)]

/-- The group that a resolved target means is the one the derivation denotes. -/
theorem Alternation.Derives.groupMeant? {a : Alternation} {source : Text} (h : a.Derives source)
    {t : Target} (ht : t ∈ a.targets) : a.groupMeant? t = some (targetIndex a.nameTable t) := by
  have hmeans := h.resolves t ht
  cases t with
  | number n =>
    have hn : n ≠ 0 := by
      rintro rfl
      exact a.target_ne_zero h.reads.valid ht
    exact if_pos ⟨Nat.pos_of_ne_zero hn, hmeans⟩
  | name name =>
    obtain ⟨k, hk⟩ := (mem_names_iff h.reads.names).mp hmeans
    simp [Alternation.groupMeant?, targetIndex, hk]

theorem Alternation.Reads.resolves {a : Alternation} {source : Text} (h : a.Reads source)
    (hmeant : ∀ t ∈ a.targets, ∃ g, a.groupMeant? t = some g) : a.Resolves := by
  intro t ht
  obtain ⟨g, hg⟩ := hmeant t ht
  cases t with
  | number n =>
    by_cases hn : 1 ≤ n ∧ n ≤ a.groupCount
    · exact hn.2
    · simp [Alternation.groupMeant?, hn] at hg
  | name name => exact (mem_names_iff h.names).mpr ⟨g, hg⟩

/-! ## §3 Parsing -/

theorem read_derivation (w : Width) {a : Alternation} {source : Text} (h : a.Reads source) :
    Draft.empty.read w 0 source.toList = .ok (a.into w 0 Draft.empty) := by
  have hfresh : Fresh [] (a.names 0) := fresh_iff.mpr ⟨h.names, fun _ _ => rfl⟩
  have hread := read_alternation w 0 Draft.empty [] a h.valid (by simp [EndsSequence])
    (by simpa [Draft.empty] using h.depth) hfresh
  rw [List.append_nil, h.units, Draft.read] at hread
  exact hread

theorem finish_into (w : Width) (a : Alternation) :
    (a.into w 0 Draft.empty).finish = do
      return {
        root := ← (Expr.oneOf (a.branches w readReference 0 0)).resolve
          (Draft.groupOf a.groupCount a.nameTable)
        groupCount := a.groupCount
        names := a.nameTable } := by
  obtain ⟨htree, hframes, hgroups, hnames⟩ := a.into_eq w 0 Draft.empty rfl
  simp only [Draft.finish, hframes, htree, hgroups, hnames]
  simp [Draft.empty, Level.empty, Alternation.nameTable]

/-- A text with a derivation is parsed to the pattern that the derivation denotes. -/
theorem parse_of_derives (w : Width) {a : Alternation} {source : Text} (h : a.Derives source)
    (hcount : a.groupCount ≤ maxRepeatCount) : parse w source = .ok (a.pattern w) := by
  have hresolve : ∀ t ∈ a.targets, ∀ p, Draft.groupOf a.groupCount a.nameTable (readReference p t) =
      .ok (targetIndex a.nameTable t) := by
    intro t ht p
    rw [groupOf_read, Alternation.groupMeant?_capped hcount, h.groupMeant? ht]
  rw [parse, read_derivation w h.reads, bind_eq_ok_iff]
  refine ⟨_, rfl, ?_⟩
  rw [finish_into, bind_pure_eq_ok_iff]
  refine ⟨_, ?_, rfl⟩
  rw [Expr.resolve_oneOf_eq_ok]
  exact ⟨_, a.resolve_branches 0 0 hresolve, rfl⟩

/-- What is parsed was read as a derivation. -/
theorem exists_reads_of_parse {w : Width} {source : Text} {p : Pattern}
    (h : parse w source = .ok p) : ∃ a : Alternation, a.Reads source := by
  rw [parse, bind_eq_ok_iff] at h
  obtain ⟨d, hread, hfinish⟩ := h
  cases hframes : d.frames with
  | cons f frames => simp [Draft.finish, hframes, refuse] at hfinish
  | nil => exact exists_derivation_of_read hread hframes

end Grammar

end LineRegex
