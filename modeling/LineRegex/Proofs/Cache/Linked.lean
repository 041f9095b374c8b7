/-
LineRegex.Proofs.Cache.Linked — a table that knows the place of each pattern.

To make a pattern the most recent one without looking for it, a cache keeps
the patterns in cells of a linked list, and its table has for each of them the
place of its cell. Every operation then has to bring table and list into line
again: an entry that named a cell no longer there, or a last cell without an
entry, would leave the next operation nothing to work on.

  §1 Cells       — cells, each with a place of its own, and taking one out.
  §2 Caches      — the operations, which come to nothing where they miss a
                   cell or an entry.
  §3 Agreement   — what table and list have to do with each other, and with
                   the order of a cache without cells.
  §4 Operations  — each of them finds what it needs and keeps the agreement.
  §5 Runs
-/
import LineRegex.Proofs.Cache.Accounting

namespace LineRegex

/-! ## §1 Cells -/

/-- A cell of the list. Its place is never that of another cell. -/
structure CacheCell where
  place : Nat
  compiled : Compiled

/-- What the table has for a pattern: what it was compiled to, and where its cell is. -/
structure CacheEntry where
  compiled : Compiled
  place : Nat

/-- The pattern in a cell. -/
def CacheCell.source (cell : CacheCell) : Text := cell.compiled.source

/-- The entry for a cell. -/
def CacheCell.entry (cell : CacheCell) : CacheEntry := ⟨cell.compiled, cell.place⟩

/-- Takes the cell at a place out of the list. -/
def takeCell? (place : Nat) : List CacheCell → Option (CacheCell × List CacheCell)
  | [] => none
  | cell :: cells =>
    if cell.place = place then some (cell, cells)
    else (takeCell? place cells).map fun (found, rest) => (found, cell :: rest)

/-- A cell of the list is found at its place, and without it the list has the
other patterns in the same order. -/
theorem exists_takeCell {cells : List CacheCell} (hplaces : (cells.map (·.place)).Nodup)
    (hsources : (cells.map (·.source)).Nodup) {cell : CacheCell} (hcell : cell ∈ cells) :
    ∃ rest, takeCell? cell.place cells = some (cell, rest) ∧ (cell :: rest).Perm cells ∧
      rest.map (·.source) = (cells.map (·.source)).erase cell.source := by
  induction cells with
  | nil => cases hcell
  | cons head cells ih =>
    obtain ⟨hplace, hplaces⟩ := List.nodup_cons.mp hplaces
    obtain ⟨hsource, hsources⟩ := List.nodup_cons.mp hsources
    rw [takeCell?]
    rcases List.mem_cons.mp hcell with rfl | hcell
    · exact ⟨cells, if_pos rfl, .refl _, (List.erase_cons_head ..).symm⟩
    · obtain ⟨rest, htake, hperm, hrest⟩ := ih hplaces hsources hcell
      have hneplace : head.place ≠ cell.place :=
        fun heq => hplace (List.mem_map.mpr ⟨cell, hcell, heq.symm⟩)
      have hnesource : head.source ≠ cell.source :=
        fun heq => hsource (List.mem_map.mpr ⟨cell, hcell, heq.symm⟩)
      refine ⟨head :: rest, ?_, (List.Perm.swap head cell rest).trans (hperm.cons head), ?_⟩
      · rw [if_neg hneplace, htake]
        rfl
      · rw [List.map_cons, List.map_cons, hrest, List.erase_cons_tail (by simpa using hnesource)]

/-! ## §2 Caches -/

/-- A cache with its patterns in cells. -/
structure LinkedCache (w : Width) where
  capacity : Nat
  table : Std.HashMap Text CacheEntry
  /-- The cells, that of the most recently used pattern first. -/
  cells : List CacheCell
  /-- The place of the next new cell. -/
  nextPlace : Nat
  hits : Nat
  misses : Nat
  evictions : Nat

namespace LinkedCache

variable {w : Width}

/-- A cache that keeps nothing yet. -/
def empty (w : Width) (capacity : Nat) : LinkedCache w := ⟨capacity, ∅, [], 0, 0, 0, 0⟩

/-- Moves the cell of an entry to the front. -/
def touch? (l : LinkedCache w) (entry : CacheEntry) : Option (LinkedCache w) :=
  (takeCell? entry.place l.cells).map fun (cell, rest) => { l with cells := cell :: rest }

/-- Drops the last cell, and the entry for its pattern. -/
def dropVictim (l : LinkedCache w) (victim : CacheCell) : LinkedCache w :=
  { l with
    table := l.table.erase victim.source
    cells := l.cells.dropLast
    evictions := l.evictions + 1 }

/-- Drops last cells while the table has too many entries; each of them has to
have an entry in the table. -/
def evict? (l : LinkedCache w) : Option (LinkedCache w) :=
  if l.capacity < l.table.size then
    match _h : l.cells.getLast? with
    | none => none
    | some victim =>
      if l.table.contains victim.source then (l.dropVictim victim).evict? else none
  else some l
termination_by l.cells.length
decreasing_by
  have : l.cells ≠ [] := by intro hn; simp [hn] at _h
  have := List.length_pos_iff.mpr this
  simp only [dropVictim, List.length_dropLast]
  omega

/-- Puts a compiled pattern in a new cell at the front, and into the table. -/
def push (l : LinkedCache w) (compiled : Compiled) : LinkedCache w :=
  { l with
    table := l.table.insertIfNew compiled.source ⟨compiled, l.nextPlace⟩
    cells := ⟨l.nextPlace, compiled⟩ :: l.cells
    nextPlace := l.nextPlace + 1 }

/-- Keeps a pattern that was just compiled, as the most recently used one. -/
def insert? (l : LinkedCache w) (compiled : Compiled) : Option (LinkedCache w) :=
  if l.capacity = 0 then some l else (l.push compiled).evict?

/-- The compiled pattern of a text: the one kept, or a new one, which is kept
from now on. -/
def get? (l : LinkedCache w) (source : Text) : Option (Checked Compiled × LinkedCache w) :=
  match l.table[source]? with
  | some entry =>
    (l.touch? entry).map fun l => (.ok entry.compiled, { l with hits := l.hits + 1 })
  | none =>
    let l := { l with misses := l.misses + 1 }
    match compile w source with
    | .error e => some (.error e, l)
    | .ok compiled => (l.insert? compiled).map fun l => (.ok compiled, l)

/-- Drops all patterns. -/
def clear (l : LinkedCache w) : LinkedCache w := { l with table := ∅, cells := [] }

/-- The cache after a call, if the call finds all it needs. -/
def perform? (l : LinkedCache w) : CacheCall → Option (LinkedCache w)
  | .get source => (l.get? source).map (·.2)
  | .contains _ => some l
  | .size => some l
  | .clear => some l.clear

/-- The cache after calls, in order. -/
def performAll? (l : LinkedCache w) (calls : List CacheCall) : Option (LinkedCache w) :=
  calls.foldlM perform? l

/-! ## §3 Agreement -/

/-- The list and the table are two views of the same entries. -/
structure Linked (l : LinkedCache w) : Prop where
  nodup_places : (l.cells.map (·.place)).Nodup
  place_lt : ∀ cell ∈ l.cells, cell.place < l.nextPlace
  entry_of_cell : ∀ cell ∈ l.cells, l.table[cell.source]? = some cell.entry

/-- Apart from the places, the cache is one without cells. -/
structure Shows (l : LinkedCache w) (c : Cache w) : Prop where
  capacity_eq : l.capacity = c.capacity
  order_eq : l.cells.map (·.source) = c.order
  table_eq : ∀ source : Text, l.table[source]?.map CacheEntry.compiled = c.table[source]?
  size_eq : l.table.size = c.table.size
  hits_eq : l.hits = c.hits
  misses_eq : l.misses = c.misses
  evictions_eq : l.evictions = c.evictions

/-- The table and the list hold the same entries, each pattern once. The place
that the table has for a pattern is that of a cell with the same compiled
pattern, which was compiled from the pattern itself. -/
structure Agrees (l : LinkedCache w) : Prop where
  nodup_places : (l.cells.map (·.place)).Nodup
  nodup_sources : (l.cells.map (·.source)).Nodup
  entry_of_cell : ∀ cell ∈ l.cells, l.table[cell.source]? = some cell.entry
  cell_of_entry : ∀ source entry, l.table[source]? = some entry →
    ∃ cell ∈ l.cells, cell.entry = entry ∧ cell.source = source ∧
      parse w source = .ok entry.compiled.pattern
  size_eq : l.table.size = l.cells.length

variable {l : LinkedCache w} {c : Cache w}

/-- Every entry is that of a cell. -/
theorem Shows.exists_cell (h : l.Shows c) (hlinked : l.Linked) (hc : c.Consistent)
    {source : Text} {entry : CacheEntry} (hentry : l.table[source]? = some entry) :
    ∃ cell ∈ l.cells, cell.entry = entry ∧ cell.source = source := by
  have hkept : c.table[source]? = some entry.compiled := by rw [← h.table_eq, hentry]; rfl
  have hmem : source ∈ c.order := by
    by_contra hmem
    rw [hc.absent source hmem] at hkept
    cases hkept
  rw [← h.order_eq] at hmem
  obtain ⟨cell, hcell, rfl⟩ := List.mem_map.mp hmem
  exact ⟨cell, hcell, Option.some.inj ((hlinked.entry_of_cell cell hcell).symm.trans hentry), rfl⟩

theorem Shows.agrees (h : l.Shows c) (hlinked : l.Linked) (hc : c.Consistent) : l.Agrees where
  nodup_places := hlinked.nodup_places
  nodup_sources := h.order_eq ▸ hc.nodup
  entry_of_cell := hlinked.entry_of_cell
  cell_of_entry source entry hentry := by
    obtain ⟨cell, hcell, heq, hsource⟩ := h.exists_cell hlinked hc hentry
    refine ⟨cell, hcell, heq, hsource, ?_⟩
    have hmem : source ∈ c.order := by
      rw [← h.order_eq]
      exact List.mem_map.mpr ⟨cell, hcell, hsource⟩
    obtain ⟨compiled, hcompile, hkept⟩ := hc.kept source hmem
    rw [← h.table_eq, hentry] at hkept
    obtain rfl : entry.compiled = compiled := Option.some.inj hkept
    exact parse_of_compile hcompile
  size_eq := by rw [h.size_eq, hc.size_eq, ← h.order_eq, List.length_map]

/-! ## §4 Operations -/

theorem exists_touch (h : l.Shows c) (hlinked : l.Linked) (hc : c.Consistent) {source : Text}
    {entry : CacheEntry} (hentry : l.table[source]? = some entry) :
    ∃ l', l.touch? entry = some l' ∧ l'.Shows (c.touch source) ∧ l'.Linked := by
  obtain ⟨cell, hcell, rfl, rfl⟩ := h.exists_cell hlinked hc hentry
  have hsources : (l.cells.map (·.source)).Nodup := h.order_eq ▸ hc.nodup
  obtain ⟨rest, htake, hperm, hrest⟩ := exists_takeCell hlinked.nodup_places hsources hcell
  refine ⟨{ l with cells := cell :: rest }, ?_, ?_, ?_⟩
  · rw [touch?, CacheCell.entry, htake]
    rfl
  · refine { h with order_eq := ?_ }
    rw [List.map_cons, hrest, h.order_eq]
    rfl
  · exact
      { nodup_places := (hperm.map _).nodup_iff.mpr hlinked.nodup_places
        place_lt := fun cell hcell => hlinked.place_lt cell (hperm.mem_iff.mp hcell)
        entry_of_cell := fun cell hcell => hlinked.entry_of_cell cell (hperm.mem_iff.mp hcell) }

theorem Linked.dropVictim (hlinked : l.Linked) (hsources : (l.cells.map (·.source)).Nodup)
    {victim : CacheCell} (hlast : l.cells.getLast? = some victim) :
    (l.dropVictim victim).Linked where
  nodup_places := hlinked.nodup_places.sublist ((List.dropLast_sublist _).map _)
  place_lt cell hcell := hlinked.place_lt cell (List.mem_of_mem_dropLast hcell)
  entry_of_cell cell hcell := by
    have hne : victim.source ≠ cell.source := by
      intro heq
      obtain ⟨others, hothers⟩ := List.getLast?_eq_some_iff.mp hlast
      have hmem : cell ∈ others := by
        simpa [LinkedCache.dropVictim, hothers] using hcell
      rw [hothers, List.map_append, List.nodup_append] at hsources
      exact hsources.2.2 _ (List.mem_map.mpr ⟨cell, hmem, rfl⟩) _ List.mem_cons_self heq.symm
    show (l.table.erase victim.source)[cell.source]? = some cell.entry
    rw [Std.HashMap.getElem?_erase, if_neg (by simpa using hne)]
    exact hlinked.entry_of_cell cell (List.mem_of_mem_dropLast hcell)

theorem Shows.dropVictim (h : l.Shows c) {victim : CacheCell}
    (hentry : l.table[victim.source]? = some victim.entry) :
    (l.dropVictim victim).Shows
      { c with
        table := c.table.erase victim.source
        order := c.order.dropLast
        evictions := c.evictions + 1 } where
  capacity_eq := h.capacity_eq
  order_eq := by rw [← h.order_eq, List.map_dropLast.symm]; rfl
  table_eq source := by
    show (l.table.erase victim.source)[source]?.map CacheEntry.compiled = _
    rw [Std.HashMap.getElem?_erase, Std.HashMap.getElem?_erase]
    split
    · rfl
    · exact h.table_eq source
  size_eq := by
    have hmem : victim.source ∈ l.table := by
      rw [Std.HashMap.mem_iff_isSome_getElem?, hentry]
      rfl
    have hmem' : victim.source ∈ c.table := by
      rw [Std.HashMap.mem_iff_isSome_getElem?, ← h.table_eq, hentry]
      rfl
    show (l.table.erase victim.source).size = (c.table.erase victim.source).size
    rw [Std.HashMap.size_erase, Std.HashMap.size_erase, if_pos hmem, if_pos hmem', h.size_eq]
  hits_eq := h.hits_eq
  misses_eq := h.misses_eq
  evictions_eq := congrArg (· + 1) h.evictions_eq

/-- The eviction loop finds each of its victims in the table. -/
theorem exists_evict (h : l.Shows c) (hlinked : l.Linked) (hc : c.Consistent) :
    ∃ l', l.evict? = some l' ∧ l'.Shows c.evict ∧ l'.Linked := by
  fun_induction Cache.evict c generalizing l with
  | case1 c hless hnone =>
    rw [hc.size_eq, List.getLast?_eq_none_iff.mp hnone] at hless
    exact absurd hless (Nat.not_lt_zero _)
  | case2 c hless victim hlast ih =>
    have hlast' := hlast
    rw [← h.order_eq, List.getLast?_map] at hlast'
    obtain ⟨cell, hcell, rfl⟩ := Option.map_eq_some_iff.mp hlast'
    have hentry := hlinked.entry_of_cell cell (List.mem_of_getLast? hcell)
    have hcontains : l.table.contains cell.source = true := by
      rw [Std.HashMap.contains_eq_isSome_getElem?, hentry]
      rfl
    rw [evict?, if_pos (by rw [h.capacity_eq, h.size_eq]; exact hless)]
    split
    · rename_i hnone
      rw [hcell] at hnone
      cases hnone
    · rename_i victim hvictim
      obtain rfl : cell = victim := Option.some.inj (hcell.symm.trans hvictim)
      rw [if_pos hcontains]
      exact ih (h.dropVictim hentry) (hlinked.dropVictim (h.order_eq ▸ hc.nodup) hcell)
        (hc.dropLast hlast rfl rfl)
  | case3 c hless =>
    refine ⟨l, ?_, h, hlinked⟩
    rw [evict?, if_neg (by rw [h.capacity_eq, h.size_eq]; exact hless)]

theorem Linked.push (hlinked : l.Linked) {compiled : Compiled}
    (habsent : l.table[compiled.source]? = none) : (l.push compiled).Linked where
  nodup_places := by
    refine List.nodup_cons.mpr ⟨fun hmem => ?_, hlinked.nodup_places⟩
    obtain ⟨cell, hcell, hplace⟩ := List.mem_map.mp hmem
    exact (hlinked.place_lt cell hcell).ne hplace
  place_lt := List.forall_mem_cons.mpr
    ⟨Nat.lt_succ_self _, fun cell hcell => Nat.lt_succ_of_lt (hlinked.place_lt cell hcell)⟩
  entry_of_cell := by
    have hlookup (source : Text) : (l.push compiled).table[source]? =
        if compiled.source = source then some ⟨compiled, l.nextPlace⟩ else l.table[source]? := by
      have hnew : compiled.source ∉ l.table := by
        rw [Std.HashMap.mem_iff_isSome_getElem?, habsent]
        exact Bool.false_ne_true
      show (l.table.insertIfNew compiled.source ⟨compiled, l.nextPlace⟩)[source]? = _
      simp [Std.HashMap.getElem?_insertIfNew, hnew]
    refine List.forall_mem_cons.mpr ⟨?_, fun cell hcell => ?_⟩
    · rw [hlookup, CacheCell.source, if_pos rfl]
      rfl
    · have hentry := hlinked.entry_of_cell cell hcell
      have hne : compiled.source ≠ cell.source := by
        intro heq
        rw [← heq, habsent] at hentry
        cases hentry
      rw [hlookup, if_neg hne, hentry]

theorem Shows.push (h : l.Shows c) {compiled : Compiled}
    (habsent : l.table[compiled.source]? = none) :
    (l.push compiled).Shows
      { c with
        table := c.table.insert compiled.source compiled
        order := compiled.source :: c.order } := by
  have hnew : compiled.source ∉ l.table := by
    rw [Std.HashMap.mem_iff_isSome_getElem?, habsent]
    exact Bool.false_ne_true
  have hnew' : compiled.source ∉ c.table := by
    rw [Std.HashMap.mem_iff_isSome_getElem?, ← h.table_eq, habsent]
    exact Bool.false_ne_true
  refine { h with order_eq := congrArg (compiled.source :: ·) h.order_eq, table_eq := ?_, size_eq := ?_ }
  · intro source
    show (l.table.insertIfNew compiled.source ⟨compiled, l.nextPlace⟩)[source]?.map _ = _
    rw [Std.HashMap.getElem?_insertIfNew, Std.HashMap.getElem?_insert]
    by_cases heq : compiled.source = source
    · subst heq
      simp [hnew]
    · simpa [heq] using h.table_eq source
  · show (l.table.insertIfNew compiled.source ⟨compiled, l.nextPlace⟩).size = _
    rw [Std.HashMap.size_insertIfNew, Std.HashMap.size_insert, if_neg hnew, if_neg hnew', h.size_eq]

theorem exists_insert (h : l.Shows c) (hlinked : l.Linked) (hc : c.Consistent)
    {compiled : Compiled} (hnew : compiled.source ∉ c.order)
    (hcompile : compile w compiled.source = .ok compiled) :
    ∃ l', l.insert? compiled = some l' ∧ l'.Shows (c.insert compiled) ∧ l'.Linked := by
  have habsent : l.table[compiled.source]? = none := by
    have hnone := h.table_eq compiled.source
    rw [hc.absent _ hnew] at hnone
    exact Option.map_eq_none_iff.mp hnone
  unfold insert? Cache.insert
  rw [h.capacity_eq]
  split
  · exact ⟨l, rfl, h, hlinked⟩
  · exact exists_evict (h.push habsent) (hlinked.push habsent) (hc.cons hnew hcompile rfl rfl)

/-- A request finds what it needs and answers as without cells. -/
theorem exists_get (h : l.Shows c) (hlinked : l.Linked) (hc : c.Consistent) (source : Text) :
    ∃ l', l.get? source = some ((c.get source).1, l') ∧ l'.Shows (c.get source).2 ∧
      l'.Linked := by
  have hlookup := h.table_eq source
  cases hentry : l.table[source]? with
  | some entry =>
    obtain ⟨l', htouch, hshows, hlinked'⟩ := exists_touch h hlinked hc hentry
    have hkept : c.table[source]? = some entry.compiled := by rw [← hlookup, hentry]; rfl
    have hget : c.get source =
        (.ok entry.compiled, { c.touch source with hits := c.hits + 1 }) := by
      simp only [Cache.get, hkept]
    have hget' : l.get? source =
        some (.ok entry.compiled, { l' with hits := l'.hits + 1 }) := by
      simp only [get?, hentry, htouch, Option.map_some]
    rw [hget, hget']
    exact ⟨_, rfl, { hshows with hits_eq := congrArg (· + 1) hshows.hits_eq }, { hlinked' with }⟩
  | none =>
    have habsent : c.table[source]? = none := by rw [← hlookup, hentry]; rfl
    let missed : LinkedCache w := { l with misses := l.misses + 1 }
    have hshows : missed.Shows { c with misses := c.misses + 1 } :=
      { h with misses_eq := congrArg (· + 1) h.misses_eq }
    have hmissed : missed.Linked := { hlinked with }
    cases hcompile : compile w source with
    | error e =>
      simp only [get?, Cache.get, hentry, habsent, hcompile]
      exact ⟨_, rfl, hshows, hmissed⟩
    | ok compiled =>
      obtain rfl : compiled.source = source := source_of_compile hcompile
      have hnew : compiled.source ∉ c.order := by
        intro hmem
        obtain ⟨_, -, hkept⟩ := hc.kept _ hmem
        rw [habsent] at hkept
        cases hkept
      obtain ⟨l', hinsert, hshows', hlinked'⟩ :=
        exists_insert hshows hmissed (hc.of_perm rfl (.refl _)) hnew hcompile
      simp only [get?, Cache.get, hentry, habsent, hcompile]
      exact ⟨l', congrArg (Option.map (Except.ok compiled, ·)) hinsert, hshows', hlinked'⟩

theorem Shows.clear (h : l.Shows c) : l.clear.Shows c.clear where
  capacity_eq := h.capacity_eq
  order_eq := rfl
  table_eq source := by simp [LinkedCache.clear, Cache.clear]
  size_eq := rfl
  hits_eq := h.hits_eq
  misses_eq := h.misses_eq
  evictions_eq := h.evictions_eq

theorem linked_clear (l : LinkedCache w) : l.clear.Linked where
  nodup_places := .nil
  place_lt := by simp [clear]
  entry_of_cell := by simp [clear]

theorem exists_perform (h : l.Shows c) (hlinked : l.Linked) (hc : c.Consistent)
    (call : CacheCall) :
    ∃ l', l.perform? call = some l' ∧ l'.Shows (c.perform call) ∧ l'.Linked := by
  cases call with
  | get source =>
    obtain ⟨l', hget, hshows, hlinked'⟩ := exists_get h hlinked hc source
    exact ⟨l', by rw [perform?, hget]; rfl, hshows, hlinked'⟩
  | contains source => exact ⟨l, rfl, h, hlinked⟩
  | size => exact ⟨l, rfl, h, hlinked⟩
  | clear => exact ⟨l.clear, rfl, h.clear, linked_clear l⟩

/-! ## §5 Runs -/

theorem linked_empty (w : Width) (capacity : Nat) : (empty w capacity).Linked where
  nodup_places := .nil
  place_lt := by simp [empty]
  entry_of_cell := by simp [empty]

theorem shows_empty (w : Width) (capacity : Nat) :
    (empty w capacity).Shows (Cache.empty w capacity) where
  capacity_eq := rfl
  order_eq := rfl
  table_eq source := by simp [empty, Cache.empty]
  size_eq := rfl
  hits_eq := rfl
  misses_eq := rfl
  evictions_eq := rfl

theorem exists_performAll {capacity : Nat} (h : l.Shows c) (hlinked : l.Linked)
    (hc : c.Reachable capacity) (calls : List CacheCall) :
    ∃ l', l.performAll? calls = some l' ∧ l'.Shows (c.performAll calls) ∧ l'.Linked := by
  induction calls generalizing l c with
  | nil => exact ⟨l, rfl, h, hlinked⟩
  | cons call calls ih =>
    obtain ⟨l', hperform, hshows, hlinked'⟩ := exists_perform h hlinked hc.consistent call
    obtain ⟨l'', hrest, hshows', hlinked''⟩ := ih hshows hlinked' (hc.perform call)
    exact ⟨l'', by rw [performAll?, List.foldlM_cons, hperform]; exact hrest, hshows', hlinked''⟩

end LinkedCache

namespace Cache

/-- The pattern asked for is kept if there is room for any, so it is not among
those that were evicted to make room. -/
theorem Reachable.contains_get {w : Width} {c : Cache w} {capacity : Nat}
    (h : c.Reachable capacity) (hpos : 0 < capacity) {source : Text}
    (haccepts : accepts w source = true) : (c.get source).2.contains source = true := by
  obtain ⟨hconsistent, horder⟩ := h.consistent.get (h.capacity_eq ▸ h.length_le) source
  obtain ⟨n, rfl⟩ := Nat.exists_eq_add_of_lt hpos
  rw [hconsistent.contains_iff, horder, orderAfter, if_pos haccepts, h.capacity_eq, Nat.zero_add,
    List.take_succ_cons]
  exact List.mem_cons_self

/-- The table of a cache and its list always agree. After any calls the cache
with cells has found every cell and every entry it looked for, has the order,
the compiled patterns and the counters of the cache without cells and gives the
same answers, and its table and its list hold the same entries, each pattern
once. The cache never exceeds its capacity, and a pattern just asked for is not
evicted. Every request counts as a hit or a miss; what was evicted, what is kept
and what clears have dropped add up to the misses on accepted patterns, and
without room for any pattern all three are zero. -/
theorem table_agrees_with_list (w : Width) (capacity : Nat) (calls : List CacheCall) :
    let c := afterCalls w capacity calls
    let atStart := Cache.empty w capacity
    (∃ l, (LinkedCache.empty w capacity).performAll? calls = some l ∧ l.Agrees ∧ l.Shows c ∧
      ∀ source, (l.get? source).map (·.1) = some (c.get source).1) ∧
    c.size ≤ capacity ∧
    (∀ source, 0 < capacity → accepts w source = true →
      (c.get source).2.contains source = true) ∧
    c.hits + c.misses = calls.countP CacheCall.isRequest ∧
    (0 < capacity →
      c.evictions + c.size + atStart.tally dropped calls = atStart.tally missedAccepted calls) ∧
    (capacity = 0 → c.evictions = 0 ∧ c.size = 0 ∧ atStart.tally dropped calls = 0) := by
  intro c atStart
  have hempty : atStart.Reachable capacity := .empty w capacity
  have hc : c.Reachable capacity := hempty.performAll calls
  have haccount : c.evictions + c.size + atStart.tally dropped calls =
      if 0 < capacity then atStart.tally missedAccepted calls else 0 := by
    refine (hempty.evictions_performAll calls).trans ?_
    show 0 + (∅ : Std.HashMap Text Compiled).size + _ = _
    rw [Std.HashMap.size_empty, Nat.zero_add]
  have hrequests : c.hits + c.misses = calls.countP CacheCall.isRequest :=
    (hits_performAll atStart calls).trans (Nat.zero_add _)
  refine ⟨?_, hc.size_le, fun source hpos => hc.contains_get hpos, hrequests, ?_, ?_⟩
  · obtain ⟨l, hrun, hshows, hlinked⟩ := LinkedCache.exists_performAll
      (LinkedCache.shows_empty w capacity) (LinkedCache.linked_empty w capacity) hempty calls
    refine ⟨l, hrun, hshows.agrees hlinked hc.consistent, hshows, fun source => ?_⟩
    obtain ⟨l', hget, -, -⟩ := LinkedCache.exists_get hshows hlinked hc.consistent source
    rw [hget]
    rfl
  · intro hpos
    rw [haccount, if_pos hpos]
  · rintro rfl
    rw [if_neg (Nat.lt_irrefl 0)] at haccount
    omega

/-- With room for one pattern, the one asked for last takes the place of the first. -/
theorem contains_second :
    let c := afterCalls .narrow 1 [.get "a", .get "("]
    accepts .narrow "b" = true ∧ (c.get "b").2.contains "b" = true ∧
      c.evictions + c.size + (Cache.empty .narrow 1).tally dropped [.get "a", .get "("] =
        (Cache.empty .narrow 1).tally missedAccepted [.get "a", .get "("] := by
  intro c
  obtain ⟨-, -, hkept, -, haccount, -⟩ := table_agrees_with_list .narrow 1 [.get "a", .get "("]
  have haccepts : accepts .narrow "b" = true := by cbv
  exact ⟨haccepts, hkept "b" Nat.one_pos haccepts, haccount Nat.one_pos⟩

end Cache

end LineRegex
