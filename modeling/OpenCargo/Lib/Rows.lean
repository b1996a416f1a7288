/-
Module: OpenCargo.Lib.Rows
Purpose: Tables as lists of rows with a key: what `UPDATE … WHERE key = ?` and
  `INSERT … ON CONFLICT(key) DO UPDATE` do to them, and what they leave alone.
Trusted boundary: none
Main exports: find?_append_map, find?_filter_of_imp, ordered_insertionSort, eq_of_ordered
-/
import Mathlib

namespace OpenCargo.Lib

variable {α β κ : Type*} [DecidableEq κ]

/-- The rows of the key `k` are updated by `f`. -/
def updateAt (key : α → κ) (k : κ) (f : α → α) (rows : List α) : List α :=
  rows.map fun row => if key row = k then f row else row

/-- A row is inserted, or the rows of its key are merged with it. -/
def upsert (key : α → κ) (merge : α → α) (new : α) (rows : List α) : List α :=
  if rows.any fun row => key row = key new then updateAt key (key new) merge rows else rows ++ [new]

variable {key : α → κ} {k : κ} {f : α → α} {rows : List α} {new : α}

/-- A column the update keeps. -/
theorem map_updateAt {g : α → β} (keeps : ∀ row, key row = k → g (f row) = g row) :
    (updateAt key k f rows).map g = rows.map g := by
  rw [updateAt, List.map_map]
  apply List.map_congr_left
  intro row _
  simp only [Function.comp_apply]
  split
  · rename_i same
    exact keeps row same
  · rfl

theorem find?_updateAt {p : α → Bool} (keeps : ∀ row, key row = k → p (f row) = p row) :
    (updateAt key k f rows).find? p =
      (rows.find? p).map fun row => if key row = k then f row else row := by
  have reads : ∀ row, p (if key row = k then f row else row) = p row := by
    intro row
    split
    · rename_i same
      exact keeps row same
    · rfl
  rw [updateAt, List.find?_map]
  simp only [Function.comp_def, reads]

/-- Rows that are not of the key, before and after, are read as they were. -/
theorem filter_updateAt_of_mem {p : α → Bool}
    (apart : ∀ row ∈ rows, key row = k → p row = false ∧ p (f row) = false) :
    (updateAt key k f rows).filter p = rows.filter p := by
  induction rows with
  | nil => rfl
  | cons row rows ih =>
      have rest := ih fun other mem => apart other (List.mem_cons_of_mem _ mem)
      rw [updateAt, List.map_cons]
      by_cases same : key row = k
      · have ⟨old, now⟩ := apart row List.mem_cons_self same
        rw [if_pos same, List.filter_cons_of_neg (by simp [now]),
          List.filter_cons_of_neg (by simp [old])]
        exact rest
      · rw [if_neg same]
        cases reads : p row with
        | true =>
            rw [List.filter_cons_of_pos reads, List.filter_cons_of_pos reads]
            exact congrArg (row :: ·) rest
        | false =>
            rw [List.filter_cons_of_neg (by simp [reads]), List.filter_cons_of_neg (by simp [reads])]
            exact rest

theorem filter_updateAt {p : α → Bool}
    (apart : ∀ row, key row = k → p row = false ∧ p (f row) = false) :
    (updateAt key k f rows).filter p = rows.filter p :=
  filter_updateAt_of_mem fun row _ => apart row

theorem mem_updateAt {row : α} :
    row ∈ updateAt key k f rows ↔
      (row ∈ rows ∧ key row ≠ k) ∨ ∃ old ∈ rows, key old = k ∧ row = f old := by
  simp only [updateAt, List.mem_map]
  constructor
  · rintro ⟨old, mem, rfl⟩
    by_cases same : key old = k
    · exact .inr ⟨old, mem, same, by simp [same]⟩
    · exact .inl (by simpa [same] using mem)
  · rintro (⟨mem, other⟩ | ⟨old, mem, same, rfl⟩)
    · exact ⟨row, mem, by simp [other]⟩
    · exact ⟨old, mem, by simp [same]⟩

/-- Every row after an upsert is an old one of another key, an old one of this key that was merged, or
the new one, inserted because there was none of its key. -/
theorem mem_upsert {row : α} :
    row ∈ upsert key f new rows ↔
      (row ∈ rows ∧ key row ≠ key new) ∨ (∃ old ∈ rows, key old = key new ∧ row = f old) ∨
        ((∀ old ∈ rows, key old ≠ key new) ∧ row = new) := by
  by_cases held : rows.any (fun row => key row = key new) = true
  · have some : ∃ old ∈ rows, key old = key new := by simpa using held
    rw [upsert, if_pos held, mem_updateAt]
    constructor
    · rintro (old | merged)
      · exact .inl old
      · exact .inr (.inl merged)
    · rintro (old | merged | ⟨none, _⟩)
      · exact .inl old
      · exact .inr merged
      · have ⟨old, mem, same⟩ := some
        exact absurd same (none old mem)
  · have none : ∀ old ∈ rows, key old ≠ key new := by simpa using held
    rw [upsert, if_neg held, List.mem_append, List.mem_singleton]
    constructor
    · rintro (mem | inserted)
      · exact .inl ⟨mem, none row mem⟩
      · exact .inr (.inr ⟨none, inserted⟩)
    · rintro (⟨mem, _⟩ | ⟨old, mem, same, _⟩ | ⟨_, inserted⟩)
      · exact .inl mem
      · exact absurd same (none old mem)
      · exact .inr inserted

/-- An upsert that overwrites: one row of the key is left, the new one. -/
theorem mem_upsert_over {row : α} :
    row ∈ upsert key (fun _ => new) new rows ↔ row = new ∨ (row ∈ rows ∧ key row ≠ key new) := by
  rw [mem_upsert]
  constructor
  · rintro (old | ⟨_, _, _, now⟩ | ⟨_, now⟩)
    · exact .inr old
    · exact .inl now
    · exact .inl now
  · rintro (now | old)
    · by_cases held : ∃ old ∈ rows, key old = key new
      · have ⟨old, mem, same⟩ := held
        exact .inr (.inl ⟨old, mem, same, now⟩)
      · exact .inr (.inr ⟨by simpa using held, now⟩)
    · exact .inl old

theorem nodup_upsert (keeps : ∀ row, key row = key new → key (f row) = key row)
    (unique : (rows.map key).Nodup) :
    ((upsert key f new rows).map key).Nodup := by
  by_cases held : rows.any (fun row => key row = key new) = true
  · rw [upsert, if_pos held, map_updateAt keeps]
    exact unique
  · have none : ∀ old ∈ rows, key old ≠ key new := by simpa using held
    rw [upsert, if_neg held, List.map_append, List.nodup_append]
    refine ⟨unique, by simp, ?_⟩
    intro a mem b other
    have ⟨old, mem, same⟩ := List.mem_map.mp mem
    cases List.mem_singleton.mp other
    exact same ▸ none old mem

omit [DecidableEq κ] in
/-- Where keys are unique a row is the one found under its key. -/
theorem find?_of_unique [BEq κ] [LawfulBEq κ] {row : α} (unique : (rows.map key).Nodup)
    (mem : row ∈ rows) : rows.find? (fun other => key other == key row) = some row := by
  cases found : rows.find? fun other => key other == key row with
  | none =>
      have none := List.find?_eq_none.mp found row mem
      simp at none
  | some other =>
      have same : key other = key row := by simpa using List.find?_some found
      rw [List.inj_on_of_nodup_map unique (List.mem_of_find?_eq_some found) mem same]

omit [DecidableEq κ] in
/-- Where keys are unique a key's rows are one. -/
theorem filter_of_unique [BEq κ] [LawfulBEq κ] {row : α} (unique : (rows.map key).Nodup) (mem : row ∈ rows) :
    (rows.filter fun other => key other == key row) = [row] := by
  induction rows with
  | nil => cases mem
  | cons first rest ih =>
      rw [List.map_cons, List.nodup_cons] at unique
      obtain rfl | later := List.mem_cons.1 mem
      · have others : ∀ other ∈ rest, key other ≠ key row := fun other there same =>
          unique.1 (same ▸ List.mem_map_of_mem there)
        rw [List.filter_cons_of_pos (by simp), List.filter_eq_nil_iff.2 (by simpa using others)]
      · have apart : key first ≠ key row := fun same => unique.1 (same ▸ List.mem_map_of_mem later)
        rw [List.filter_cons_of_neg (by simpa using apart), ih unique.2 later]

/-- What an upsert leaves under its own key. -/
theorem find?_upsert_self [BEq κ] [LawfulBEq κ]
    (keeps : ∀ row, key row = key new → key (f row) = key row) :
    (upsert key f new rows).find? (fun row => key row == key new) =
      some ((rows.find? fun row => key row == key new).elim new f) := by
  cases found : rows.find? fun row => key row == key new with
  | none =>
      have none : ∀ row ∈ rows, ¬key row = key new := by simpa using found
      rw [upsert, if_neg (by simpa using none), List.find?_append, found]
      simp
  | some row =>
      have same : key row = key new := by simpa using List.find?_some found
      have held : rows.any (fun row => key row = key new) = true :=
        List.any_eq_true.mpr ⟨row, List.mem_of_find?_eq_some found, by simpa using same⟩
      rw [upsert, if_pos held, find?_updateAt fun row own => by rw [keeps row own], found,
        Option.map_some, if_pos same]
      rfl

/-- Under another key, what was there. -/
theorem find?_upsert_of_ne [BEq κ] [LawfulBEq κ]
    (keeps : ∀ row, key row = key new → key (f row) = key row) (other : k ≠ key new) :
    (upsert key f new rows).find? (fun row => key row == k) = rows.find? fun row => key row == k := by
  rw [upsert]
  split
  · rw [find?_updateAt fun row own => by rw [keeps row own]]
    cases found : rows.find? fun row => key row == k with
    | none => rfl
    | some row =>
        have same : key row = k := by simpa using List.find?_some found
        rw [Option.map_some, if_neg (same ▸ other)]
  · rw [List.find?_append, List.find?_singleton]
    simp [Ne.symm other]

theorem filter_upsert {p : α → Bool} (inserted : p new = false)
    (apart : ∀ row, key row = key new → p row = false ∧ p (f row) = false) :
    (upsert key f new rows).filter p = rows.filter p := by
  rw [upsert]
  split
  · exact filter_updateAt apart
  · simp [inserted]

/-- Of the rows written for each of some ids, the one a read asks for. -/
theorem find?_append_map {ι : Type*} [DecidableEq ι] {q : α → Bool} {row : ι → α} {ids : List ι}
    {own : ι} (before : ∀ old ∈ rows, q old = false) (asks : ∀ id, q (row id) = true ↔ id = own) :
    (rows ++ ids.map row).find? q = if own ∈ ids then some (row own) else none := by
  have skipped : rows.find? q = none := by
    refine List.find?_eq_none.mpr fun old mem => ?_
    simp [before old mem]
  have test : q ∘ row = fun id => decide (id = own) := by
    funext id
    rw [Bool.eq_iff_iff]
    simpa using asks id
  rw [List.find?_append, skipped, Option.none_or, List.find?_map, test]
  split
  · rename_i mem
    have unique : ids.find? (fun id => decide (id = own)) = some own := by
      cases found : ids.find? fun id => decide (id = own) with
      | none => simpa using List.find?_eq_none.mp found own mem
      | some id =>
          have same : id = own := by simpa using List.find?_some found
          rw [same]
    rw [unique, Option.map_some]
  · rename_i absent
    rw [List.find?_eq_none.mpr, Option.map_none]
    intro id mem
    simpa using fun same : id = own => absent (same ▸ mem)

/-- A read of what a filter leaves, where the filter leaves what the read asks for. -/
theorem find?_filter_of_imp {p q : α → Bool} (leaves : ∀ row ∈ rows, q row = true → p row = true) :
    (rows.filter p).find? q = rows.find? q := by
  have same : (rows.filter p).filter q = rows.filter q := by
    rw [List.filter_filter]
    refine List.filter_congr fun row mem => ?_
    cases asked : q row with
    | false => rfl
    | true => rw [Bool.true_and, leaves row mem asked]
  rw [← List.head?_filter, same, List.head?_filter]

/-! ### Rows in the order of a column -/

section Ordered

variable {ω : Type*} [LinearOrder ω] {column : α → ω} {rows rows' : List α}

/-- `ORDER BY` a column that names a row. -/
theorem ordered_insertionSort (unique : (rows.map column).Nodup) :
    (rows.insertionSort fun a b => column a ≤ column b).Pairwise fun a b => column a < column b := by
  have sorted : (rows.insertionSort fun a b => column a ≤ column b).Pairwise
      fun a b => column a ≤ column b := by
    have : Std.Total fun a b => column a ≤ column b := ⟨fun a b => le_total (column a) (column b)⟩
    have : IsTrans α fun a b => column a ≤ column b := ⟨fun _ _ _ => le_trans⟩
    exact List.pairwise_insertionSort _ rows
  have perm := List.perm_insertionSort (fun a b => column a ≤ column b) rows
  have distinct : (rows.insertionSort fun a b => column a ≤ column b).Pairwise
      fun a b => column a ≠ column b :=
    List.pairwise_map.mp ((perm.map column).nodup_iff.mpr unique)
  exact (sorted.and distinct).imp fun both => lt_of_le_of_ne both.1 both.2

/-- What is selected in that order is known by its rows alone. -/
theorem eq_of_ordered (ordered : rows.Pairwise fun a b => column a < column b)
    (ordered' : rows'.Pairwise fun a b => column a < column b)
    (same : ∀ row, row ∈ rows ↔ row ∈ rows') : rows = rows' := by
  have : Std.Irrefl fun a b => column a < column b := ⟨fun a => lt_irrefl (column a)⟩
  have : Std.Antisymm fun a b => column a < column b :=
    ⟨fun _ _ less more => absurd (less.trans more) (lt_irrefl _)⟩
  exact ordered.eq_of_mem_iff ordered' same

end Ordered

end OpenCargo.Lib
