/-
LineRegex.Proofs.Cache.Recency — the cache keeps the patterns requested last.

Which patterns a cache keeps depends on the history of its calls only through
the requests since the last clear, and there on how recently each accepted
pattern was requested: a pattern is kept as long as fewer other patterns than
the capacity have been requested after it.

  §1 Histories  — the requests since the last clear, and `byRecency`, the
                  accepted patterns among them, each once.
  §2 Positions  — what lies in front of a pattern in that list.
  §3 Runs       — the order of a cache is the front part of that list.
  §4 Recency    — hits, misses and kept patterns from the history.
-/
import Mathlib.Data.Finset.Card
import LineRegex.Proofs.Cache.Consistency

namespace LineRegex

/-! ## §1 Histories -/

/-- The requests since the last clear, latest first, when a call is added. -/
def CacheCall.addTo (requests : List Text) : CacheCall → List Text
  | .get source => source :: requests
  | .contains _ => requests
  | .size => requests
  | .clear => []

/-- The patterns requested since the last clear, latest request first. -/
def requests (calls : List CacheCall) : List Text := calls.foldl CacheCall.addTo []

/-- The accepted patterns among requests, the latest first, each in the place
of its latest request. -/
def byRecency (w : Width) : List Text → List Text
  | [] => []
  | source :: earlier =>
    if accepts w source then source :: (byRecency w earlier).erase source
    else byRecency w earlier

/-- The requests made after the latest one for a pattern. -/
def requestsSince (source : Text) (requests : List Text) : List Text :=
  requests.takeWhile (· != source)

/-- The distinct accepted patterns requested after the latest request for a
pattern; none of them is that pattern. -/
def othersSince (w : Width) (source : Text) (requests : List Text) : Finset Text :=
  ((requestsSince source requests).filter (accepts w)).toFinset

/-! ## §2 Positions -/

variable {w : Width}

theorem nodup_byRecency (w : Width) (requests : List Text) : (byRecency w requests).Nodup := by
  induction requests with
  | nil => exact .nil
  | cons source earlier ih =>
    rw [byRecency]
    split
    · exact List.nodup_cons.mpr ⟨ih.not_mem_erase, ih.erase source⟩
    · exact ih

theorem mem_byRecency {source : Text} {requests : List Text} :
    source ∈ byRecency w requests ↔ accepts w source = true ∧ source ∈ requests := by
  induction requests with
  | nil => simp [byRecency]
  | cons latest earlier ih =>
    rw [byRecency]
    by_cases heq : source = latest
    · subst heq
      split
      · simp_all
      · simp_all
    · split
      · rw [List.mem_cons, List.mem_erase_of_ne heq, ih, List.mem_cons]
        simp [heq]
      · rw [ih, List.mem_cons]
        simp [heq]

/-- Taking one pattern out does not move the place of another. -/
theorem takeWhile_erase {source other : Text} (hne : other ≠ source) (l : List Text) :
    (l.erase other).takeWhile (· != source) = (l.takeWhile (· != source)).erase other := by
  induction l with
  | nil => rfl
  | cons x l ih =>
    by_cases hother : x = other
    · subst hother
      simp [hne]
    · by_cases hsource : x = source
      · subst hsource
        simp [hother]
      · simp [hother, hsource, ih]

/-- In front of an accepted pattern are the accepted patterns requested since. -/
theorem mem_takeWhile_byRecency {source other : Text} (hsource : accepts w source = true)
    (requests : List Text) :
    other ∈ (byRecency w requests).takeWhile (· != source) ↔
      accepts w other = true ∧ other ∈ requestsSince source requests := by
  unfold requestsSince
  induction requests with
  | nil => simp [byRecency]
  | cons latest earlier ih =>
    by_cases hlatest : latest = source
    · subst hlatest
      simp [byRecency, hsource]
    · rw [byRecency, List.takeWhile_cons_of_pos (by simpa using hlatest), List.mem_cons]
      by_cases hother : other = latest
      · subst hother
        by_cases haccepts : accepts w other = true
        · simp [haccepts, hlatest]
        · simp [haccepts, ih]
      · split
        · rw [List.takeWhile_cons_of_pos (by simpa using hlatest), takeWhile_erase hlatest,
            List.mem_cons, List.mem_erase_of_ne hother, ih]
          simp [hother]
        · simp [hother, ih]

/-- A member of a list is among the first `n` if fewer than `n` come before it. -/
theorem mem_take_iff_length_takeWhile {source : Text} {l : List Text} {n : Nat} :
    source ∈ l.take n ↔ source ∈ l ∧ (l.takeWhile (· != source)).length < n := by
  induction l generalizing n with
  | nil => simp
  | cons x l ih =>
    cases n with
    | zero => simp
    | succ n =>
      by_cases hx : x = source
      · subst hx
        simp
      · simp [Ne.symm hx, hx, ih]

/-- A pattern is among the first `capacity` by recency if it was requested and
fewer distinct accepted patterns than that were requested since. -/
theorem mem_take_byRecency {source : Text} {requests : List Text} {capacity : Nat} :
    source ∈ (byRecency w requests).take capacity ↔
      accepts w source = true ∧ source ∈ requests ∧
        (othersSince w source requests).card < capacity := by
  rw [mem_take_iff_length_takeWhile, mem_byRecency, and_assoc]
  refine and_congr_right fun hsource => and_congr_right fun _ => ?_
  have hnodup : ((byRecency w requests).takeWhile (· != source)).Nodup :=
    (nodup_byRecency w requests).sublist (List.takeWhile_sublist _)
  have hothers : othersSince w source requests =
      ((byRecency w requests).takeWhile (· != source)).toFinset := by
    ext other
    rw [List.mem_toFinset, mem_takeWhile_byRecency hsource, othersSince, List.mem_toFinset,
      List.mem_filter, and_comm]
  rw [hothers, List.toFinset_card_of_nodup hnodup]

/-! ## §3 Runs -/

/-- What lies behind the first `n + 1` does not come among the first `n` by
taking one out of them. -/
theorem take_erase_take (source : Text) (l : List Text) (n : Nat) :
    ((l.take (n + 1)).erase source).take n = (l.erase source).take n := by
  induction l generalizing n with
  | nil => rfl
  | cons x l ih =>
    by_cases hx : x = source
    · subst hx
      simp
    · cases n with
      | zero => simp
      | succ n => simp [hx, ih]

/-- Moving a pattern to the front of a list and of its front part. -/
theorem take_cons_erase_take (source : Text) (l : List Text) (n : Nat) :
    (source :: (l.take n).erase source).take n = (source :: l.erase source).take n := by
  cases n with
  | zero => rfl
  | succ n => rw [List.take_succ_cons, List.take_succ_cons, take_erase_take]

namespace Cache

/-- A cache that has met some requests since the last clear keeps the latest
of them that fit. -/
structure Recalls (c : Cache w) (capacity : Nat) (requests : List Text) : Prop where
  reachable : c.Reachable capacity
  order_eq : c.order = (byRecency w requests).take capacity

theorem Recalls.empty (w : Width) (capacity : Nat) :
    (Cache.empty w capacity).Recalls capacity [] :=
  ⟨.empty w capacity, List.take_nil.symm⟩

theorem Recalls.perform {c : Cache w} {capacity : Nat} {requests : List Text}
    (h : c.Recalls capacity requests) (call : CacheCall) :
    (c.perform call).Recalls capacity (call.addTo requests) := by
  refine ⟨h.reachable.perform call, ?_⟩
  cases call with
  | get source =>
    have hle : c.order.length ≤ c.capacity := h.reachable.capacity_eq ▸ h.reachable.length_le
    rw [Cache.perform, (h.reachable.consistent.get hle source).2, orderAfter,
      h.reachable.capacity_eq, h.order_eq, CacheCall.addTo, byRecency]
    split
    · exact take_cons_erase_take source _ capacity
    · rfl
  | contains source => exact h.order_eq
  | size => exact h.order_eq
  | clear => exact List.take_nil.symm

theorem Recalls.performAll {c : Cache w} {capacity : Nat} {requests : List Text}
    (h : c.Recalls capacity requests) (calls : List CacheCall) :
    (c.performAll calls).Recalls capacity (calls.foldl CacheCall.addTo requests) := by
  induction calls generalizing c requests with
  | nil => exact h
  | cons call calls ih => exact ih (h.perform call)

/-- The cache after calls, beginning with an empty one. -/
def afterCalls (w : Width) (capacity : Nat) (calls : List CacheCall) : Cache w :=
  (Cache.empty w capacity).performAll calls

theorem contains_afterCalls {capacity : Nat} {calls : List CacheCall} {source : Text} :
    (afterCalls w capacity calls).contains source = true ↔
      source ∈ (byRecency w (requests calls)).take capacity := by
  have h : (afterCalls w capacity calls).Recalls capacity (requests calls) :=
    (Recalls.empty w capacity).performAll calls
  rw [h.reachable.consistent.contains_iff, h.order_eq]

/-- With room for two patterns, the second request for `a` keeps it, so that
`c` takes the place of `b`; the malformed pattern takes none. -/
example :
    (byRecency .narrow (requests
      [.get "a", .get "b", .get "a", .contains "b", .get "(", .get "c"])).take 2 = ["c", "a"] := by
  cbv

/-! ## §4 Recency -/

theorem hits_evict (c : Cache w) : c.evict.hits = c.hits ∧ c.evict.misses = c.misses := by
  fun_induction evict c with
  | case1 c hless hnone => exact ⟨rfl, rfl⟩
  | case2 c hless victim hlast ih => exact ih
  | case3 c hless => exact ⟨rfl, rfl⟩

theorem hits_insert (c : Cache w) (compiled : Compiled) :
    (c.insert compiled).hits = c.hits ∧ (c.insert compiled).misses = c.misses := by
  unfold insert
  split
  · exact ⟨rfl, rfl⟩
  · exact hits_evict _

/-- A request counts as a hit if the pattern is kept, and as a miss otherwise. -/
theorem hits_get (c : Cache w) (source : Text) :
    (c.get source).2.hits = c.hits + (if c.contains source then 1 else 0) ∧
      (c.get source).2.misses = c.misses + (if c.contains source then 0 else 1) := by
  rw [contains, Std.HashMap.contains_eq_isSome_getElem?, get]
  cases c.table[source]? with
  | some compiled => exact ⟨rfl, rfl⟩
  | none =>
    cases compile w source with
    | error e => exact ⟨rfl, rfl⟩
    | ok compiled => exact hits_insert _ compiled

end Cache

/-- Whether a call may change which patterns are kept: a clear, or a request
for an accepted pattern. -/
def CacheCall.counts (w : Width) : CacheCall → Bool
  | .get source => accepts w source
  | .contains _ => false
  | .size => false
  | .clear => true

/-- Calls that do not count leave no trace among the accepted requests. -/
theorem byRecency_foldl_filter (calls : List CacheCall) {requests requests' : List Text}
    (h : byRecency w requests = byRecency w requests') :
    byRecency w ((calls.filter (·.counts w)).foldl CacheCall.addTo requests) =
      byRecency w (calls.foldl CacheCall.addTo requests') := by
  induction calls generalizing requests requests' with
  | nil => exact h
  | cons call calls ih =>
    cases hcounts : call.counts w with
    | true =>
      rw [List.filter_cons_of_pos hcounts, List.foldl_cons, List.foldl_cons]
      refine ih ?_
      cases call with
      | get source => rw [CacheCall.addTo, CacheCall.addTo, byRecency, byRecency, h]
      | contains source => exact h
      | size => exact h
      | clear => rfl
    | false =>
      rw [List.filter_cons_of_neg (by simp [hcounts]), List.foldl_cons]
      refine ih ?_
      cases call with
      | get source =>
        have hrejected : accepts w source = false := hcounts
        rw [CacheCall.addTo, byRecency, hrejected, h]
        rfl
      | contains source => exact h
      | size => exact h
      | clear => cases hcounts

namespace Cache

/-- The cache is exactly least recently used: after any calls, it keeps the
accepted patterns that were requested since the last clear and since whose
latest request fewer distinct other accepted patterns were requested than it
has room for. A request is a hit if the pattern was kept just before, and a
miss otherwise. Requests for rejected patterns, and lookups, might as well not
have been made. -/
theorem contains_afterCalls_iff_recent (w : Width) (capacity : Nat) (calls : List CacheCall) :
    (∀ source, (afterCalls w capacity calls).contains source = true ↔
      accepts w source = true ∧ source ∈ requests calls ∧
        (othersSince w source (requests calls)).card < capacity) ∧
    (∀ source,
      ((afterCalls w capacity calls).get source).2.hits =
          (afterCalls w capacity calls).hits +
            (if (afterCalls w capacity calls).contains source then 1 else 0) ∧
        ((afterCalls w capacity calls).get source).2.misses =
          (afterCalls w capacity calls).misses +
            (if (afterCalls w capacity calls).contains source then 0 else 1)) ∧
    ∀ source, (afterCalls w capacity calls).contains source =
      (afterCalls w capacity (calls.filter (·.counts w))).contains source := by
  refine ⟨fun source => ?_, hits_get _, fun source => ?_⟩
  · rw [contains_afterCalls, mem_take_byRecency]
  · rw [Bool.eq_iff_iff, contains_afterCalls, contains_afterCalls, requests, requests,
      byRecency_foldl_filter calls rfl]

end Cache

end LineRegex
