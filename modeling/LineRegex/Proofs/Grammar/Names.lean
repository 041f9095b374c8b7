/-
LineRegex.Proofs.Grammar.Names — adding names to a table.

  §1 Lookup       — what a table holds once a name has been inserted.
  §2 Order        — tables stay sorted.
  §3 Fresh names  — names that a table does not have yet.
-/
import Mathlib.Tactic.SplitIfs
import LineRegex.Proofs.Grammar.Derivation

namespace LineRegex

/-! ## §1 Lookup -/

namespace NameTable

@[simp] theorem find?_nil (name : Text) : find? [] name = none := rfl

theorem find?_cons (entry : Text × Nat) (table : NameTable) (name : Text) :
    find? (entry :: table) name = if name = entry.1 then some entry.2 else find? table name := by
  obtain ⟨key, index⟩ := entry
  by_cases h : name = key
  · subst h
    simp [find?]
  · have hbeq : (name == key) = false := by simpa using h
    simp [find?, List.lookup_cons, h, hbeq]

theorem find?_insert {table : NameTable} {name : Text} (hname : table.find? name = none)
    (index : Nat) (x : Text) :
    (table.insert name index).find? x = if x = name then some index else table.find? x := by
  induction table with
  | nil => rw [insert, find?_cons]
  | cons entry table ih =>
    rw [find?_cons] at hname
    split_ifs at hname with hentry
    rw [insert]
    split
    · rw [find?_cons]
    · rw [find?_cons, ih hname, find?_cons]
      by_cases hx : x = entry.1
      · have hne : x ≠ name := fun h => hentry (h ▸ hx)
        rw [if_pos hx, if_neg hne, if_pos hx]
      · rw [if_neg hx, if_neg hx]

theorem find?_eq_none_iff {table : NameTable} {name : Text} :
    table.find? name = none ↔ ∀ e ∈ table, e.1 ≠ name := by
  simp only [find?, List.lookup_eq_none_iff, bne_iff_ne, ne_eq]
  exact forall₂_congr fun e _ => not_congr eq_comm

/-! ## §2 Order -/

/-- The entries stand in the order of their names, and no name stands twice. -/
def Sorted (table : NameTable) : Prop := table.Pairwise fun e e' => e.1.toList < e'.1.toList

theorem perm_insert (table : NameTable) (name : Text) (index : Nat) :
    (table.insert name index).Perm ((name, index) :: table) := by
  induction table with
  | nil => exact .refl _
  | cons entry table ih =>
    rw [insert]
    split
    · exact .refl _
    · exact (ih.cons entry).trans (.swap ..)

theorem Sorted.insert {table : NameTable} (h : table.Sorted) {name : Text}
    (hname : table.find? name = none) (index : Nat) : (table.insert name index).Sorted := by
  induction table with
  | nil => exact List.pairwise_singleton _ _
  | cons entry table ih =>
    rw [find?_eq_none_iff, List.forall_mem_cons] at hname
    obtain ⟨hentry, hothers⟩ := hname
    obtain ⟨hbehind, htable⟩ := List.pairwise_cons.mp h
    rw [NameTable.insert]
    split
    · rename_i hless
      have hfirst : ∀ e ∈ table, name.toList < e.1.toList := by
        intro e he
        exact List.lt_trans hless (hbehind e he)
      exact List.pairwise_cons.mpr ⟨List.forall_mem_cons.mpr ⟨hless, hfirst⟩, h⟩
    · rename_i hless
      have hne : entry.1.toList ≠ name.toList := fun heq => hentry (Array.toList_inj.mp heq)
      have hgreater : entry.1.toList < name.toList :=
        (List.le_iff_lt_or_eq.mp (List.not_lt.mp hless)).resolve_right hne
      refine List.pairwise_cons.mpr ⟨?_, ih htable (find?_eq_none_iff.mpr hothers)⟩
      intro e he
      rcases List.mem_cons.mp ((perm_insert table name index).mem_iff.mp he) with rfl | he
      · exact hgreater
      · exact hbehind e he

theorem Sorted.nodup {table : NameTable} (h : table.Sorted) : (table.map (·.1)).Nodup := by
  refine List.Pairwise.map _ ?_ h
  intro e e' hlt heq
  rw [heq] at hlt
  exact List.lt_irrefl _ hlt

/-- A table is given by its entries. -/
theorem Sorted.eq_of_perm {table table' : NameTable} (h : table.Sorted) (h' : table'.Sorted)
    (hperm : table.Perm table') : table = table' :=
  hperm.eq_of_pairwise (fun _ _ _ _ hlt hlt' => absurd hlt' (List.lt_asymm hlt)) h h'

end NameTable

namespace Grammar

theorem addNames_append (table : NameTable) (es es' : List (Text × Nat)) :
    addNames table (es ++ es') = addNames (addNames table es) es' :=
  List.foldl_append

/-! ## §3 Fresh names -/

/-- Names that can be added one after another, each of them new. -/
def Fresh (table : NameTable) : List (Text × Nat) → Prop
  | [] => True
  | e :: es => table.find? e.1 = none ∧ Fresh (table.insert e.1 e.2) es

theorem fresh_append {table : NameTable} {es es' : List (Text × Nat)} :
    Fresh table (es ++ es') ↔ Fresh table es ∧ Fresh (addNames table es) es' := by
  induction es generalizing table with
  | nil => simp [Fresh, addNames]
  | cons e es ih => simp [Fresh, ih, addNames, and_assoc]

theorem fresh_iff {table : NameTable} {es : List (Text × Nat)} :
    Fresh table es ↔ (es.map (·.1)).Nodup ∧ ∀ e ∈ es, table.find? e.1 = none := by
  induction es generalizing table with
  | nil => simp [Fresh]
  | cons e es ih =>
    constructor
    · rintro ⟨he, hes⟩
      obtain ⟨hnodup, hnone⟩ := ih.mp hes
      have hsplit : ∀ e' ∈ es, e'.1 ≠ e.1 ∧ table.find? e'.1 = none := by
        intro e' he'
        have hfind := hnone e' he'
        rw [NameTable.find?_insert he] at hfind
        split_ifs at hfind with hne
        exact ⟨hne, hfind⟩
      have hnew : e.1 ∉ es.map (·.1) := by
        intro hmem
        obtain ⟨e', he', heq⟩ := List.mem_map.mp hmem
        exact (hsplit e' he').1 heq
      exact ⟨List.nodup_cons.mpr ⟨hnew, hnodup⟩,
        List.forall_mem_cons.mpr ⟨he, fun e' he' => (hsplit e' he').2⟩⟩
    · rintro ⟨hnodup, hnone⟩
      obtain ⟨hnew, hnodup⟩ := List.nodup_cons.mp hnodup
      obtain ⟨he, hes⟩ := List.forall_mem_cons.mp hnone
      refine ⟨he, ih.mpr ⟨hnodup, ?_⟩⟩
      intro e' he'
      have hne : e'.1 ≠ e.1 := fun heq => hnew (List.mem_map.mpr ⟨e', he', heq⟩)
      rw [NameTable.find?_insert he, if_neg hne]
      exact hes e' he'

/-- In a table of fresh names, those names are found and no others. -/
theorem find?_addNames {table : NameTable} {es : List (Text × Nat)} (hes : Fresh table es)
    (x : Text) :
    (addNames table es).find? x = (es.lookup x).or (table.find? x) := by
  induction es generalizing table with
  | nil => rfl
  | cons e es ih =>
    obtain ⟨he, hes⟩ := hes
    have hnew : ∀ e' ∈ es, e'.1 ≠ e.1 := by
      intro e' he' heq
      have hfind := (fresh_iff.mp hes).2 e' he'
      rw [heq, NameTable.find?_insert he, if_pos rfl] at hfind
      simp at hfind
    have hstep : addNames table (e :: es) = addNames (table.insert e.1 e.2) es := rfl
    rw [hstep, ih hes, NameTable.find?_insert he]
    by_cases hx : x = e.1
    · have hnone : es.lookup x = none := by
        rw [List.lookup_eq_none_iff]
        intro e' he'
        simpa [hx] using (hnew e' he').symm
      obtain ⟨key, index⟩ := e
      subst hx
      simp [hnone]
    · obtain ⟨key, index⟩ := e
      have hbeq : (x == key) = false := by simpa using hx
      simp [hx, List.lookup_cons, hbeq]

theorem sorted_addNames {table : NameTable} {es : List (Text × Nat)} (htable : table.Sorted)
    (hes : Fresh table es) : (addNames table es).Sorted := by
  induction es generalizing table with
  | nil => exact htable
  | cons e es ih => exact ih (htable.insert hes.1 e.2) hes.2

theorem perm_addNames (table : NameTable) (es : List (Text × Nat)) :
    (addNames table es).Perm (es ++ table) := by
  induction es generalizing table with
  | nil => exact .refl _
  | cons e es ih =>
    have hinsert := (table.perm_insert e.1 e.2).append_left es
    exact (ih (table.insert e.1 e.2)).trans (hinsert.trans List.perm_middle)

/-- The names of a sorted table make the table, in whatever order they come. -/
theorem addNames_eq_of_perm {table : NameTable} {es : List (Text × Nat)} (htable : table.Sorted)
    (hperm : es.Perm table) : addNames [] es = table := by
  have hdistinct : (es.map (·.1)).Nodup := (hperm.map _).nodup_iff.mpr htable.nodup
  have hsorted := sorted_addNames (show NameTable.Sorted [] from .nil)
    (fresh_iff.mpr ⟨hdistinct, fun _ _ => rfl⟩)
  refine hsorted.eq_of_perm htable ((perm_addNames [] es).trans ?_)
  rwa [List.append_nil]

end Grammar

end LineRegex
