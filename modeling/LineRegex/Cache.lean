/-
LineRegex.Cache — compiled patterns, kept while they are recently used.

The cache holds up to `capacity` compiled patterns. Asking for a pattern
makes it the most recent one, and the one unused for longest makes room
for a new one. Malformed patterns are never kept, and a cache of capacity
0 keeps nothing.

  §1 Caches   — the table, the order of use, and the counters.
  §2 Lookups  — `contains` does not count as a use.
  §3 Updates  — `get` compiles on demand, `clear` keeps the counters.
-/
import LineRegex.Pattern.Parser
import Std.Data.HashMap

namespace LineRegex

/-! ## §1 Caches -/

/-- A bounded cache of compiled patterns of one width. -/
structure Cache (w : Width) where
  capacity : Nat
  /-- The compiled pattern of every text that is kept. -/
  table : Std.HashMap Text Compiled
  /-- The same texts, most recently used first. -/
  order : List Text
  hits : Nat
  misses : Nat
  evictions : Nat

namespace Cache

variable {w : Width}

/-- A cache that keeps nothing yet. -/
def empty (w : Width) (capacity : Nat) : Cache w := ⟨capacity, ∅, [], 0, 0, 0⟩

/-! ## §2 Lookups -/

/-- Whether a pattern is kept. -/
def contains (c : Cache w) (source : Text) : Bool := c.table.contains source

/-- The number of patterns kept. -/
def size (c : Cache w) : Nat := c.table.size

/-! ## §3 Updates -/

/-- Makes a pattern the most recently used one. -/
def touch (c : Cache w) (source : Text) : Cache w :=
  { c with order := source :: c.order.erase source }

/-- Drops the patterns unused for longest while there are too many. -/
def evict (c : Cache w) : Cache w :=
  if c.capacity < c.table.size then
    match _h : c.order.getLast? with
    | none => c
    | some victim =>
      evict { c with
        table := c.table.erase victim
        order := c.order.dropLast
        evictions := c.evictions + 1 }
  else c
termination_by c.order.length
decreasing_by
  have : c.order ≠ [] := by intro hn; simp [hn] at _h
  have := List.length_pos_iff.mpr this
  simp only [List.length_dropLast]
  omega

/-- Keeps a pattern that was just compiled, as the most recently used one. -/
def insert (c : Cache w) (compiled : Compiled) : Cache w :=
  if c.capacity = 0 then c
  else
    evict { c with
      table := c.table.insert compiled.source compiled
      order := compiled.source :: c.order }

/-- The compiled pattern of a text: the one kept, or a new one, which is kept
from now on. -/
def get (c : Cache w) (source : Text) : Checked Compiled × Cache w :=
  match c.table[source]? with
  | some compiled => (.ok compiled, { c.touch source with hits := c.hits + 1 })
  | none =>
    let c := { c with misses := c.misses + 1 }
    match compile w source with
    | .error e => (.error e, c)
    | .ok compiled => (.ok compiled, c.insert compiled)

/-- Drops all patterns. -/
def clear (c : Cache w) : Cache w := { c with table := ∅, order := [] }

end Cache

end LineRegex
