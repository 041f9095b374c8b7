/-
LineRegex.Proofs.Cache.Consistency — the table of a cache and its order of use.

The table and the order hold the same patterns, each once and each with what
compiling it gives. Every call keeps this, and asking for a pattern changes
the order in one way only: an accepted pattern moves to the front, and what
then lies behind the capacity is dropped.

  §1 Calls      — what callers do to a cache, one after another.
  §2 Compiling  — which patterns are accepted, and under which text.
  §3 States     — `Cache.Consistent`.
  §4 Eviction   — evicting cuts the order off at the capacity.
  §5 Requests   — `get` keeps a cache consistent and moves the pattern to the front.
  §6 Runs       — every cache that calls lead to is consistent.
-/
import Mathlib.Data.List.Basic
import LineRegex.Cache

namespace LineRegex

/-! ## §1 Calls -/

/-- A call of a cache. -/
inductive CacheCall where
  | get (source : Text)
  | contains (source : Text)
  | size
  | clear
  deriving DecidableEq, Repr

namespace Cache

variable {w : Width}

/-- The cache after a call; looking at it leaves it as it is. -/
def perform (c : Cache w) : CacheCall → Cache w
  | .get source => (c.get source).2
  | .contains _ => c
  | .size => c
  | .clear => c.clear

/-- The cache after calls, in order. -/
def performAll (c : Cache w) (calls : List CacheCall) : Cache w := calls.foldl perform c

end Cache

/-! ## §2 Compiling -/

/-- Whether a text is a well-formed pattern. -/
def accepts (w : Width) (source : Text) : Bool := (parse w source).isOk

theorem compile_eq_map_parse (w : Width) (source : Text) :
    compile w source = (parse w source).map (Compiled.mk source) := by
  unfold compile
  cases parse w source <;> rfl

section Compiling

variable {w : Width} {source : Text} {compiled : Compiled}

theorem source_of_compile (h : compile w source = .ok compiled) : compiled.source = source := by
  rw [compile_eq_map_parse] at h
  cases hparse : parse w source with
  | error e => rw [hparse] at h; cases h
  | ok p => rw [hparse] at h; cases h; rfl

theorem parse_of_compile (h : compile w source = .ok compiled) :
    parse w source = .ok compiled.pattern := by
  rw [compile_eq_map_parse] at h
  cases hparse : parse w source with
  | error e => rw [hparse] at h; cases h
  | ok p => rw [hparse] at h; cases h; rfl

end Compiling

theorem accepts_iff {w : Width} {source : Text} :
    accepts w source = true ↔ ∃ compiled, compile w source = .ok compiled := by
  unfold accepts compile
  cases parse w source with
  | error e => exact iff_of_false Bool.false_ne_true (by rintro ⟨_, h⟩; cases h)
  | ok p => exact iff_of_true rfl ⟨⟨source, p⟩, rfl⟩

/-! ## §3 States -/

namespace Cache

variable {w : Width}

/-- The table and the order hold the same patterns, each once and each with
what compiling it gives. -/
structure Consistent (c : Cache w) : Prop where
  nodup : c.order.Nodup
  kept : ∀ source ∈ c.order, ∃ compiled,
    compile w source = .ok compiled ∧ c.table[source]? = some compiled
  absent : ∀ source ∉ c.order, c.table[source]? = none
  size_eq : c.table.size = c.order.length

namespace Consistent

variable {c : Cache w}

theorem empty (w : Width) (capacity : Nat) : (Cache.empty w capacity).Consistent where
  nodup := .nil
  kept := by simp [Cache.empty]
  absent := by simp [Cache.empty]
  size_eq := rfl

theorem clear (c : Cache w) : c.clear.Consistent where
  nodup := .nil
  kept := by simp [Cache.clear]
  absent := by simp [Cache.clear]
  size_eq := rfl

/-- A pattern is in the table exactly if it is in the order. -/
theorem contains_iff (h : c.Consistent) (source : Text) :
    c.contains source = true ↔ source ∈ c.order := by
  rw [Cache.contains, Std.HashMap.contains_eq_isSome_getElem?]
  by_cases hmem : source ∈ c.order
  · obtain ⟨compiled, -, htable⟩ := h.kept source hmem
    simp [htable, hmem]
  · simp [h.absent source hmem, hmem]

theorem accepts_of_mem (h : c.Consistent) {source : Text} (hmem : source ∈ c.order) :
    accepts w source = true := by
  obtain ⟨compiled, hcompile, -⟩ := h.kept source hmem
  exact accepts_iff.mpr ⟨compiled, hcompile⟩

/-- The order may change, as long as it holds the same patterns. -/
theorem of_perm (h : c.Consistent) {d : Cache w} (htable : d.table = c.table)
    (hperm : d.order.Perm c.order) : d.Consistent where
  nodup := hperm.nodup_iff.mpr h.nodup
  kept source hmem := by
    rw [htable]
    exact h.kept source (hperm.mem_iff.mp hmem)
  absent source hmem := by
    rw [htable]
    exact h.absent source fun h' => hmem (hperm.mem_iff.mpr h')
  size_eq := by rw [htable, h.size_eq, hperm.length_eq]

/-- Dropping the last pattern of the order from the table as well. -/
theorem dropLast (h : c.Consistent) {victim : Text} (hlast : c.order.getLast? = some victim)
    {d : Cache w} (htable : d.table = c.table.erase victim) (horder : d.order = c.order.dropLast) :
    d.Consistent := by
  obtain ⟨others, hothers⟩ := List.getLast?_eq_some_iff.mp hlast
  rw [hothers, List.dropLast_concat] at horder
  have hnodup : victim ∉ others ∧ others.Nodup := by
    have hperm := hothers ▸ List.perm_append_singleton victim others
    exact List.nodup_cons.mp (hperm.nodup_iff.mp h.nodup)
  have hlookup (source : Text) (hne : victim ≠ source) :
      d.table[source]? = c.table[source]? := by
    rw [htable, Std.HashMap.getElem?_erase, if_neg (by simpa using hne)]
  constructor
  case nodup => exact horder ▸ hnodup.2
  case kept =>
    intro source hmem
    rw [horder] at hmem
    rw [hlookup source fun heq => hnodup.1 (heq ▸ hmem)]
    exact h.kept source (by simp [hothers, hmem])
  case absent =>
    intro source hmem
    rw [horder] at hmem
    by_cases heq : victim = source
    · rw [htable, heq, Std.HashMap.getElem?_erase_self]
    · rw [hlookup source heq]
      exact h.absent source (by simp [hothers, hmem, Ne.symm heq])
  case size_eq =>
    have hvictim : victim ∈ c.table := by
      have hcontains := (h.contains_iff victim).mpr (by simp [hothers])
      exact Std.HashMap.mem_iff_contains.mpr hcontains
    rw [htable, horder, Std.HashMap.size_erase, if_pos hvictim, h.size_eq, hothers]
    simp

/-- Keeping one more pattern. -/
theorem cons (h : c.Consistent) {source : Text} (hnew : source ∉ c.order) {compiled : Compiled}
    (hcompile : compile w source = .ok compiled) {d : Cache w}
    (htable : d.table = c.table.insert source compiled) (horder : d.order = source :: c.order) :
    d.Consistent := by
  have hlookup (other : Text) (hne : source ≠ other) :
      d.table[other]? = c.table[other]? := by
    rw [htable, Std.HashMap.getElem?_insert, if_neg (by simpa using hne)]
  constructor
  case nodup => exact horder ▸ List.nodup_cons.mpr ⟨hnew, h.nodup⟩
  case kept =>
    intro other hmem
    rw [horder] at hmem
    by_cases heq : source = other
    · subst heq
      exact ⟨compiled, hcompile, by rw [htable, Std.HashMap.getElem?_insert_self]⟩
    · rw [hlookup other heq]
      exact h.kept other ((List.mem_cons.mp hmem).resolve_left (Ne.symm heq))
  case absent =>
    intro other hmem
    rw [horder, List.mem_cons, not_or] at hmem
    rw [hlookup other (Ne.symm hmem.1)]
    exact h.absent other hmem.2
  case size_eq =>
    have hfresh : source ∉ c.table := by
      rw [Std.HashMap.mem_iff_contains]
      exact mt (h.contains_iff source).mp hnew
    rw [htable, horder, Std.HashMap.size_insert, if_neg hfresh, h.size_eq, List.length_cons]

end Consistent

/-! ## §4 Eviction -/

theorem capacity_evict (c : Cache w) : c.evict.capacity = c.capacity := by
  fun_induction evict c with
  | case1 c hless hnone => rfl
  | case2 c hless victim hlast ih => exact ih
  | case3 c hless => rfl

theorem capacity_insert (c : Cache w) (compiled : Compiled) :
    (c.insert compiled).capacity = c.capacity := by
  unfold insert
  split
  · rfl
  · exact capacity_evict _

/-- Evicting drops patterns from the back of the order, as far as the
capacity requires. -/
theorem Consistent.evict {c : Cache w} (h : c.Consistent) :
    c.evict.Consistent ∧ c.evict.order = c.order.take c.capacity := by
  fun_induction Cache.evict c with
  | case1 c hless hnone =>
    rw [h.size_eq, List.getLast?_eq_none_iff.mp hnone] at hless
    exact absurd hless (Nat.not_lt_zero _)
  | case2 c hless victim hlast ih =>
    obtain ⟨hconsistent, horder⟩ := ih (h.dropLast hlast rfl rfl)
    refine ⟨hconsistent, horder.trans ?_⟩
    rw [h.size_eq] at hless
    have hmin : min c.capacity (c.order.length - 1) = c.capacity := by omega
    rw [List.dropLast_eq_take, List.take_take]
    exact congrArg (List.take · c.order) hmin
  | case3 c hless =>
    rw [h.size_eq] at hless
    exact ⟨h, (List.take_of_length_le (by omega)).symm⟩

/-! ## §5 Requests -/

/-- The order behind a request: an accepted pattern moves to the front, and
what then lies behind the capacity is dropped. -/
def orderAfter (w : Width) (capacity : Nat) (order : List Text) (source : Text) : List Text :=
  if accepts w source then (source :: order.erase source).take capacity else order

theorem capacity_get (c : Cache w) (source : Text) : (c.get source).2.capacity = c.capacity := by
  unfold get
  cases c.table[source]? with
  | some compiled => rfl
  | none =>
    cases compile w source with
    | error e => rfl
    | ok compiled => exact capacity_insert _ compiled

/-- A request keeps the cache consistent and within its capacity. -/
theorem Consistent.get {c : Cache w} (h : c.Consistent) (hle : c.order.length ≤ c.capacity)
    (source : Text) :
    (c.get source).2.Consistent ∧
      (c.get source).2.order = orderAfter w c.capacity c.order source := by
  unfold Cache.get orderAfter
  cases htable : c.table[source]? with
  | some compiled =>
    have hmem : source ∈ c.order := by
      by_contra hmem
      rw [h.absent source hmem] at htable
      cases htable
    have hlength : (source :: c.order.erase source).length ≤ c.capacity := by
      rw [List.length_cons, List.length_erase_of_mem hmem]
      have := List.length_pos_of_mem hmem
      omega
    rw [if_pos (h.accepts_of_mem hmem), List.take_of_length_le hlength]
    exact ⟨h.of_perm rfl (List.perm_cons_erase hmem).symm, rfl⟩
  | none =>
    have hmem : source ∉ c.order := by
      intro hmem
      obtain ⟨compiled, -, hkept⟩ := h.kept source hmem
      rw [htable] at hkept
      cases hkept
    rw [List.erase_of_not_mem hmem]
    cases hcompile : compile w source with
    | error e =>
      have hrejected : ¬accepts w source = true := by
        rw [accepts_iff, hcompile]
        rintro ⟨_, hok⟩
        cases hok
      rw [if_neg hrejected]
      exact ⟨h.of_perm rfl (.refl _), rfl⟩
    | ok compiled =>
      rw [if_pos (accepts_iff.mpr ⟨compiled, hcompile⟩)]
      obtain rfl : compiled.source = source := source_of_compile hcompile
      simp only [insert]
      split
      · rename_i hzero
        have hempty : c.order = [] := List.eq_nil_of_length_eq_zero (by omega)
        exact ⟨h.of_perm rfl (.refl _), by rw [hzero, hempty]; rfl⟩
      · exact (h.cons hmem hcompile rfl rfl).evict

/-! ## §6 Runs -/

/-- What holds of every cache that calls lead to. -/
structure Reachable (c : Cache w) (capacity : Nat) : Prop where
  consistent : c.Consistent
  capacity_eq : c.capacity = capacity
  length_le : c.order.length ≤ capacity

theorem Reachable.empty (w : Width) (capacity : Nat) :
    (Cache.empty w capacity).Reachable capacity :=
  ⟨.empty w capacity, rfl, Nat.zero_le _⟩

theorem Reachable.perform {c : Cache w} {capacity : Nat} (h : c.Reachable capacity)
    (call : CacheCall) : (c.perform call).Reachable capacity := by
  cases call with
  | get source =>
    obtain ⟨hconsistent, horder⟩ := h.consistent.get (h.capacity_eq ▸ h.length_le) source
    refine ⟨hconsistent, (c.capacity_get source).trans h.capacity_eq, ?_⟩
    rw [Cache.perform, horder, orderAfter, h.capacity_eq]
    split
    · exact List.length_take_le _ _
    · exact h.length_le
  | contains source => exact h
  | size => exact h
  | clear => exact ⟨.clear c, h.capacity_eq, Nat.zero_le _⟩

theorem Reachable.performAll {c : Cache w} {capacity : Nat} (h : c.Reachable capacity)
    (calls : List CacheCall) : (c.performAll calls).Reachable capacity := by
  induction calls generalizing c with
  | nil => exact h
  | cons call calls ih => exact ih (h.perform call)

end Cache

end LineRegex
