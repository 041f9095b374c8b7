/-
LineRegex.Proofs.Cache.Accounting — the counters of a cache add up.

Every request is a hit or a miss. A miss on an accepted pattern keeps one more
pattern, an eviction one fewer, and a clear drops all of them. So whatever came
in by a miss was evicted, dropped by a clear, or is still there.

  §1 Tallies   — what the calls of a run add up to, each seen with the cache
                 just before it.
  §2 Requests  — what one call changes.
  §3 Runs
-/
import LineRegex.Proofs.Cache.Recency

namespace LineRegex

/-! ## §1 Tallies -/

/-- Whether a call asks for a compiled pattern. -/
def CacheCall.isRequest : CacheCall → Bool
  | .get _ => true
  | .contains _ | .size | .clear => false

namespace Cache

variable {w : Width}

/-- The sum over all calls of what `f` makes of the cache before a call and of the call. -/
def tally (f : Cache w → CacheCall → Nat) (c : Cache w) : List CacheCall → Nat
  | [] => 0
  | call :: calls => f c call + tally f (c.perform call) calls

/-- One for a request of an accepted pattern that is not kept. -/
def missedAccepted (c : Cache w) : CacheCall → Nat
  | .get source => if accepts w source && !c.contains source then 1 else 0
  | _ => 0

/-- The patterns that a clear drops. -/
def dropped (c : Cache w) : CacheCall → Nat
  | .clear => c.size
  | _ => 0

/-! ## §2 Requests -/

/-- What is evicted is no longer kept. -/
theorem Consistent.evictions_evict {c : Cache w} (h : c.Consistent) :
    c.evict.evictions + c.evict.size = c.evictions + c.size := by
  fun_induction Cache.evict c with
  | case1 c hless hnone => rfl
  | case2 c hless victim hlast ih =>
    rw [ih (h.dropLast hlast rfl rfl)]
    have hvictim : victim ∈ c.table := by
      rw [Std.HashMap.mem_iff_contains]
      exact (h.contains_iff victim).mpr (List.mem_of_getLast? hlast)
    simp only [size, Std.HashMap.size_erase, if_pos hvictim]
    omega
  | case3 c hless => rfl

theorem Consistent.evictions_insert {c : Cache w} (h : c.Consistent) {compiled : Compiled}
    (hnew : compiled.source ∉ c.order) (hcompile : compile w compiled.source = .ok compiled) :
    (c.insert compiled).evictions + (c.insert compiled).size =
      c.evictions + c.size + if 0 < c.capacity then 1 else 0 := by
  have habsent : compiled.source ∉ c.table := by
    rw [Std.HashMap.mem_iff_contains]
    exact mt (h.contains_iff compiled.source).mp hnew
  unfold Cache.insert
  split
  · rename_i hzero
    rw [hzero]
    rfl
  · rename_i hpos
    rw [(h.cons hnew hcompile rfl rfl).evictions_evict, if_pos (Nat.pos_of_ne_zero hpos)]
    simp only [size, Std.HashMap.size_insert, if_neg habsent]
    rfl

theorem Consistent.evictions_get {c : Cache w} (h : c.Consistent) (source : Text) :
    (c.get source).2.evictions + (c.get source).2.size =
      c.evictions + c.size + if 0 < c.capacity then c.missedAccepted (.get source) else 0 := by
  rw [missedAccepted, contains, Std.HashMap.contains_eq_isSome_getElem?, Cache.get]
  cases htable : c.table[source]? with
  | some compiled => simp [touch, size]
  | none =>
    cases hcompile : compile w source with
    | error e =>
      have hrejected : accepts w source = false := by
        rw [← Bool.not_eq_true, accepts_iff, hcompile]
        rintro ⟨_, hok⟩
        cases hok
      simp [hrejected, size]
    | ok compiled =>
      obtain rfl : compiled.source = source := source_of_compile hcompile
      have hnew : compiled.source ∉ c.order := by
        intro hmem
        obtain ⟨_, -, hkept⟩ := h.kept _ hmem
        rw [htable] at hkept
        cases hkept
      have hmissed : Consistent { c with misses := c.misses + 1 } := h.of_perm rfl (.refl _)
      rw [accepts_iff.mpr ⟨compiled, hcompile⟩]
      exact hmissed.evictions_insert hnew hcompile

/-- A call changes what was evicted, is kept and gets dropped by what it misses;
without any room a miss changes nothing. -/
theorem Reachable.evictions_perform {c : Cache w} {capacity : Nat} (h : c.Reachable capacity)
    (call : CacheCall) :
    (c.perform call).evictions + (c.perform call).size + c.dropped call =
      c.evictions + c.size + if 0 < capacity then c.missedAccepted call else 0 := by
  cases call with
  | get source =>
    rw [← h.capacity_eq]
    exact h.consistent.evictions_get source
  | contains source => simp [Cache.perform, dropped, missedAccepted]
  | size => simp [Cache.perform, dropped, missedAccepted]
  | clear => simp [Cache.perform, dropped, missedAccepted, Cache.clear, size]

theorem hits_perform (c : Cache w) (call : CacheCall) :
    (c.perform call).hits + (c.perform call).misses =
      c.hits + c.misses + if call.isRequest then 1 else 0 := by
  cases call with
  | get source =>
    obtain ⟨hhits, hmisses⟩ := c.hits_get source
    rw [perform, hhits, hmisses, CacheCall.isRequest, if_pos rfl]
    split <;> omega
  | contains source => rfl
  | size => rfl
  | clear => rfl

/-! ## §3 Runs -/

/-- Every request counts as a hit or as a miss. -/
theorem hits_performAll (c : Cache w) (calls : List CacheCall) :
    (c.performAll calls).hits + (c.performAll calls).misses =
      c.hits + c.misses + calls.countP CacheCall.isRequest := by
  induction calls generalizing c with
  | nil => rfl
  | cons call calls ih =>
    show ((c.perform call).performAll calls).hits + ((c.perform call).performAll calls).misses = _
    rw [ih, hits_perform, List.countP_cons]
    omega

theorem Reachable.size_le {c : Cache w} {capacity : Nat} (h : c.Reachable capacity) :
    c.size ≤ capacity := by
  rw [size, h.consistent.size_eq]
  exact h.length_le

/-- Whatever came in by a miss was evicted, dropped by a clear, or is still kept. -/
theorem Reachable.evictions_performAll {c : Cache w} {capacity : Nat} (h : c.Reachable capacity)
    (calls : List CacheCall) :
    (c.performAll calls).evictions + (c.performAll calls).size + c.tally dropped calls =
      c.evictions + c.size + if 0 < capacity then c.tally missedAccepted calls else 0 := by
  induction calls generalizing c with
  | nil => simp [Cache.performAll, tally]
  | cons call calls ih =>
    have hstep := h.evictions_perform call
    have hrest := ih (h.perform call)
    show ((c.perform call).performAll calls).evictions +
      ((c.perform call).performAll calls).size + c.tally dropped (call :: calls) = _
    rw [tally, tally]
    by_cases hpos : 0 < capacity
    · simp only [if_pos hpos] at hstep hrest ⊢
      omega
    · simp only [if_neg hpos] at hstep hrest ⊢
      omega

end Cache

end LineRegex
