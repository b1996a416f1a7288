/-
Module: OpenCargo.Lib.Entries
Purpose: Maps as the entries a walk over them meets, and what does not depend on the walk's order; JSON
  values, whose objects are such entries.
Trusted boundary: none
Main exports: Entries.total, Json, Json.get, Json.insert
-/
import OpenCargo.Lib.Rows

namespace OpenCargo.Lib

variable {κ α : Type*} [DecidableEq κ]

def valueAt (k : κ) (entries : List (κ × α)) : Option α :=
  (entries.find? fun entry => entry.1 == k).map Prod.snd

/-- An entry is replaced where it stands, or comes last. -/
def setAt (k : κ) (a : α) (entries : List (κ × α)) : List (κ × α) :=
  upsert Prod.fst (fun _ => (k, a)) (k, a) entries

variable {k k' : κ} {a : α} {entries : List (κ × α)}

@[simp] theorem valueAt_setAt_self : valueAt k (setAt k a entries) = some a := by
  have found : (upsert Prod.fst (fun _ => (k, a)) (k, a) entries).find? (fun row => row.1 == k) =
      some ((entries.find? fun row => row.1 == k).elim (k, a) fun _ => (k, a)) :=
    @find?_upsert_self (κ × α) κ _ Prod.fst (fun _ => (k, a)) entries (k, a) _ _ fun _ own => own.symm
  rw [valueAt, setAt, found]
  cases entries.find? fun entry => entry.1 == k with
  | none => rfl
  | some _ => rfl

theorem valueAt_setAt_of_ne (other : k' ≠ k) : valueAt k' (setAt k a entries) = valueAt k' entries := by
  have found : (upsert Prod.fst (fun _ => (k, a)) (k, a) entries).find? (fun row => row.1 == k') =
      entries.find? fun row => row.1 == k' :=
    @find?_upsert_of_ne (κ × α) κ _ Prod.fst k' (fun _ => (k, a)) entries (k, a) _ _
      (fun _ own => own.symm) other
  rw [valueAt, setAt, found, valueAt]

theorem valueAt_filter {p : κ × α → Bool} (keeps : ∀ a, p (k, a) = true) :
    valueAt k (entries.filter p) = valueAt k entries := by
  rw [valueAt, valueAt, List.find?_filter]
  congr 2
  funext ⟨k', a⟩
  by_cases same : k' = k
  · subst same
    simp [keeps a]
  · simp [same]

theorem valueAt_map {β : Type*} {f : β → κ × α} {items : List β} {b : β} (unique : (items.map fun b => (f b).1).Nodup)
    (mem : b ∈ items) : valueAt (f b).1 (items.map f) = some (f b).2 := by
  have unique' : ((items.map f).map Prod.fst).Nodup := by
    rw [List.map_map]
    exact unique
  have found : (items.map f).find? (fun other => other.1 == (f b).1) = some (f b) :=
    find?_of_unique unique' (List.mem_map_of_mem mem)
  rw [valueAt, found]
  rfl

/-- With different keys, the order of the entries says nothing. -/
theorem valueAt_perm {entries' : List (κ × α)} (distinct : (entries.map Prod.fst).Nodup)
    (perm : entries.Perm entries') (k : κ) : valueAt k entries = valueAt k entries' := by
  have distinct' : (entries'.map Prod.fst).Nodup := (perm.map Prod.fst).nodup_iff.mp distinct
  rw [valueAt, valueAt]
  congr 1
  cases found : entries.find? fun entry => entry.1 == k with
  | none =>
      rw [List.find?_eq_none] at found
      exact (List.find?_eq_none.mpr fun entry mem => found entry (perm.mem_iff.mpr mem)).symm
  | some entry =>
      have own : entry.1 = k := by simpa using List.find?_some found
      subst own
      exact (find?_of_unique distinct' (perm.mem_iff.mp (List.mem_of_find?_eq_some found))).symm

/-! ### Maps -/

/-- A map, in the order a walk over it meets its entries. -/
structure Entries (κ α : Type*) where
  toList : List (κ × α)
  unique : (toList.map Prod.fst).Nodup

namespace Entries

variable (m m' : Entries κ α)

def get (k : κ) : Option α := valueAt k m.toList

def hasKey (k : κ) : Bool := (m.get k).isSome

omit [DecidableEq κ] in
/-- The keys, in the walk's order. -/
def keys : List κ := m.toList.map Prod.fst

omit [DecidableEq κ] in
/-- Two walks over one map. -/
def Reordered : Prop := m.toList.Perm m'.toList

variable {m m'}

theorem get_eq_some_iff : m.get k = some a ↔ (k, a) ∈ m.toList := by
  rw [get, valueAt, Option.map_eq_some_iff]
  constructor
  · rintro ⟨⟨k', a'⟩, found, rfl⟩
    obtain rfl : k' = k := by simpa using List.find?_some found
    exact List.mem_of_find?_eq_some found
  · intro mem
    have found : m.toList.find? (fun other => other.1 == k) = some (k, a) :=
      find?_of_unique m.unique mem
    exact ⟨(k, a), found, rfl⟩

theorem hasKey_iff : m.hasKey k = true ↔ k ∈ m.keys := by
  rw [hasKey, Option.isSome_iff_exists, keys, List.mem_map]
  constructor
  · rintro ⟨a, held⟩
    exact ⟨(k, a), get_eq_some_iff.mp held, rfl⟩
  · rintro ⟨⟨_, a⟩, mem, rfl⟩
    exact ⟨a, get_eq_some_iff.mpr mem⟩

omit [DecidableEq κ] in
theorem Reordered.symm (same : m.Reordered m') : m'.Reordered m := List.Perm.symm same

omit [DecidableEq κ] in
theorem Reordered.mem_keys (same : m.Reordered m') : k ∈ m.keys ↔ k ∈ m'.keys :=
  (List.Perm.map Prod.fst same).mem_iff

/-- An entry is written, where it stands or last. -/
def set (m : Entries κ α) (k : κ) (a : α) : Entries κ α :=
  ⟨setAt k a m.toList, nodup_upsert (fun _ own => own.symm) m.unique⟩

def eraseAll (m : Entries κ α) (ks : List κ) : Entries κ α :=
  ⟨m.toList.filter fun entry => !ks.contains entry.1, m.unique.sublist (List.filter_sublist.map _)⟩

theorem get_set : (m.set k a).get k' = if k' = k then some a else m.get k' := by
  by_cases same : k' = k
  · subst same
    rw [if_pos rfl]
    exact valueAt_setAt_self
  · rw [if_neg same]
    exact valueAt_setAt_of_ne same

theorem get_eraseAll {ks : List κ} : (m.eraseAll ks).get k' = some a ↔ k' ∉ ks ∧ m.get k' = some a := by
  rw [get_eq_some_iff, get_eq_some_iff, eraseAll, List.mem_filter, and_comm]
  simp

theorem mem_keys_iff : k ∈ m.keys ↔ ∃ a, m.get k = some a := by
  rw [← hasKey_iff, hasKey, Option.isSome_iff_exists]

def erase (m : Entries κ α) (k : κ) : Entries κ α := m.eraseAll [k]

theorem get_erase : (m.erase k).get k' = if k' = k then none else m.get k' := by
  apply Option.ext
  intro a
  rw [erase, get_eraseAll, List.mem_singleton]
  by_cases same : k' = k
  · simp [same]
  · simp [same]

omit [DecidableEq κ] in
theorem nodup_toList (m : Entries κ α) : m.toList.Nodup := m.unique.of_map Prod.fst

/-- An entry, and the rest of the map. -/
theorem perm_cons_erase (held : m.get k = some a) : m.toList.Perm ((k, a) :: (m.erase k).toList) := by
  have absent : (k, a) ∉ (m.erase k).toList := by
    rw [← get_eq_some_iff, get_erase, if_pos rfl]
    exact nofun
  rw [List.perm_ext_iff_of_nodup m.nodup_toList (List.nodup_cons.mpr ⟨absent, (m.erase k).nodup_toList⟩)]
  rintro ⟨k', b⟩
  rw [List.mem_cons, ← get_eq_some_iff, ← get_eq_some_iff, get_erase, Prod.mk.injEq]
  by_cases same : k' = k
  · subst same
    simp [held, eq_comm]
  · simp [same]

/-- What is not there takes nothing with it. -/
theorem erase_reordered (absent : m.get k = none) : (m.erase k).Reordered m := by
  rw [Reordered, List.perm_ext_iff_of_nodup (m.erase k).nodup_toList m.nodup_toList]
  rintro ⟨k', b⟩
  rw [← get_eq_some_iff, ← get_eq_some_iff, get_erase]
  by_cases same : k' = k
  · simp [same, absent]
  · simp [same]

/-- An entry that is written stands beside the others. -/
theorem perm_cons_set : (m.set k a).toList.Perm ((k, a) :: (m.erase k).toList) := by
  have written : (m.set k a).get k = some a := by rw [get_set, if_pos rfl]
  refine (perm_cons_erase written).trans (List.Perm.cons _ ?_)
  rw [List.perm_ext_iff_of_nodup ((m.set k a).erase k).nodup_toList (m.erase k).nodup_toList]
  rintro ⟨k', b⟩
  rw [← get_eq_some_iff, ← get_eq_some_iff, get_erase, get_erase, get_set]
  by_cases same : k' = k
  · simp [same]
  · simp [same]

/-! ### Totals -/

section Totals

variable (size : α → ℕ)

omit [DecidableEq κ] in
/-- What the entries weigh together. -/
def total (m : Entries κ α) : ℕ := (m.toList.map fun entry => size entry.2).sum

omit [DecidableEq κ] in
theorem total_reordered (same : m.Reordered m') : m.total size = m'.total size :=
  (List.Perm.map _ same).sum_nat

theorem total_erase (held : m.get k = some a) : m.total size = size a + (m.erase k).total size :=
  ((perm_cons_erase held).map _).sum_nat

theorem total_erase_of_absent (absent : m.get k = none) : (m.erase k).total size = m.total size :=
  total_reordered size (erase_reordered absent)

theorem total_set : (m.set k a).total size = size a + (m.erase k).total size :=
  (perm_cons_set.map _).sum_nat

end Totals

/-- What a map holds does not depend on the walk. -/
theorem get_congr (same : m.Reordered m') (k : κ) : m.get k = m'.get k := by
  apply Option.ext
  intro a
  rw [get_eq_some_iff, get_eq_some_iff]
  exact same.mem_iff

end Entries

/-! ### JSON -/

inductive Json where
  | null
  | bool (b : Bool)
  | number (text : List Char)
  | string (text : List Char)
  | array (items : List Json)
  | object (members : List (List Char × Json))
deriving Inhabited

namespace Json

def asStr : Json → Option (List Char)
  | string text => some text
  | _ => none

def asObject : Json → Option (List (List Char × Json))
  | object members => some members
  | _ => none

def get (j : Json) (name : List Char) : Option Json := j.asObject.bind (valueAt name)

/-- A member is set; what is not an object stays as it is. -/
def insert (j : Json) (name : List Char) (value : Json) : Json :=
  match j with
  | object members => object (setAt name value members)
  | other => other

variable {name name' : List Char} {value : Json} {members : List (List Char × Json)}

@[simp] theorem get_insert_self : ((object members).insert name value).get name = some value :=
  valueAt_setAt_self

end Json

end OpenCargo.Lib
