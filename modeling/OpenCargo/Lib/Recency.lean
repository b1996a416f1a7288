/-
Module: OpenCargo.Lib.Recency
Purpose: The list that a cache of the least recently used keys is: a key that is used moves to the front, and what
  is beyond the capacity is dropped at the end. And entries that carry the time of their last use, the latest first:
  the entry with the least time is the last one.
Trusted boundary: none
Main exports: Latest, Latest.oldest, Latest.use, Latest.dropLast
-/
import Mathlib.Data.List.MinMax
import OpenCargo.Lib.Entries

namespace OpenCargo.Lib

section Keys

variable {κ : Type*} [DecidableEq κ] {k k' : κ} {keys : List κ} {cap : ℕ}

/-- A key that is there moves to the front. -/
def used (k : κ) (keys : List κ) : List κ := if k ∈ keys then k :: keys.erase k else keys

/-- A key is put at the front; one that was not there may drive out the last. -/
def admitted (cap : ℕ) (k : κ) (keys : List κ) : List κ := if k ∈ keys then k :: keys.erase k else (k :: keys).take cap

theorem length_used (k : κ) (keys : List κ) : (used k keys).length = keys.length := by
  rw [used]
  split
  · rename_i there
    rw [List.length_cons, List.length_erase_of_mem there, Nat.sub_add_cancel (List.length_pos_of_mem there)]
  · rfl

theorem length_admitted_le (fits : keys.length ≤ cap) : (admitted cap k keys).length ≤ cap := by
  rw [admitted]
  split
  · rename_i there
    rw [List.length_cons, List.length_erase_of_mem there, Nat.sub_add_cancel (List.length_pos_of_mem there)]
    exact fits
  · exact List.length_take_le _ _

end Keys

/-! ### Entries by their last use -/

section Latest

variable {κ α : Type*} {k : κ} {a : α} {now : ℕ} {es : List (κ × α × ℕ)} {m : Entries κ (α × ℕ)}

/-- The entries of a map, the one that was used last first; none was used after now. -/
structure Latest (m : Entries κ (α × ℕ)) (now : ℕ) (es : List (κ × α × ℕ)) : Prop where
  perm : es.Perm m.toList
  sorted : es.Pairwise fun e f => f.2.2 < e.2.2
  past : ∀ e ∈ es, e.2.2 ≤ now

namespace Latest

theorem nodup (latest : Latest m now es) : (es.map Prod.fst).Nodup :=
  (latest.perm.map Prod.fst).nodup_iff.mpr m.unique

theorem mem_keys (latest : Latest m now es) : k ∈ m.keys ↔ k ∈ es.map Prod.fst :=
  (latest.perm.map Prod.fst).mem_iff.symm

theorem length_eq (latest : Latest m now es) : es.length = m.toList.length := latest.perm.length_eq

variable [DecidableEq κ]

theorem get_eq_some (latest : Latest m now es) {v : α × ℕ} : m.get k = some v ↔ (k, v) ∈ es := by
  rw [Entries.get_eq_some_iff, latest.perm.mem_iff]

omit [DecidableEq κ] in
theorem later (latest : Latest m now es) : Latest m (now + 1) es :=
  ⟨latest.perm, latest.sorted, fun e mem => Nat.le_succ_of_le (latest.past e mem)⟩

/-- The entry of a key is written now. -/
theorem use (latest : Latest m now es) (k : κ) (a : α) :
    Latest (m.set k (a, now + 1)) (now + 1) ((k, a, now + 1) :: es.filter fun e => e.1 ≠ k) where
  perm := by
    refine List.Perm.trans (List.Perm.cons _ ?_) Entries.perm_cons_set.symm
    have others : (m.erase k).toList = m.toList.filter fun e => e.1 ≠ k := by
      rw [Entries.erase, Entries.eraseAll]
      exact List.filter_congr fun e _ => by simp
    rw [others]
    exact latest.perm.filter _
  sorted := by
    refine List.pairwise_cons.mpr ⟨fun e mem => ?_, latest.sorted.filter _⟩
    exact Nat.lt_succ_of_le (latest.past e (List.mem_filter.mp mem).1)
  past := by
    intro e mem
    rcases List.mem_cons.mp mem with rfl | mem
    · exact Nat.le_refl _
    · exact Nat.le_succ_of_le (latest.past e (List.mem_filter.mp mem).1)

/-- The keys, where one that was there is used. -/
theorem keys_use (latest : Latest m now es) (k : κ) :
    (es.filter fun e => e.1 ≠ k).map Prod.fst = (es.map Prod.fst).erase k := by
  rw [latest.nodup.erase_eq_filter, List.filter_map]
  exact congrArg _ (List.filter_congr fun e _ => by rw [Bool.eq_iff_iff]; simp)

omit [DecidableEq κ] in
/-- However the map is walked, the entry with the least time is the last. -/
theorem oldest {last : κ × α × ℕ} (latest : Latest m now (es ++ [last])) {walk : List (κ × α × ℕ)}
    (walked : walk.Perm m.toList) : walk.argmin (fun e => e.2.2) = some last := by
  have there : last ∈ walk := walked.symm.subset (latest.perm.subset (by simp))
  obtain ⟨least, found⟩ : ∃ least, walk.argmin (fun e => e.2.2) = some least := by
    rw [← Option.isSome_iff_exists, ← Option.ne_none_iff_isSome, Ne, List.argmin_eq_none]
    exact List.ne_nil_of_mem there
  have below := List.le_of_mem_argmin there found
  have mem : least ∈ es ++ [last] := latest.perm.symm.subset (walked.subset (List.argmin_mem found))
  rcases List.mem_append.mp mem with earlier | own
  · have above := (List.pairwise_append.mp latest.sorted).2.2 least earlier last (List.mem_singleton_self _)
    omega
  · rw [found, List.mem_singleton.mp own]

/-- The last entry is dropped. -/
theorem dropLast {last : κ × α × ℕ} (latest : Latest m now (es ++ [last])) : Latest (m.erase last.1) now es where
  perm := by
    have held : m.get last.1 = some last.2 := latest.get_eq_some.mpr (by simp)
    have whole := latest.perm.trans (Entries.perm_cons_erase held)
    exact ((List.perm_append_singleton last es).symm.trans whole).cons_inv
  sorted := (List.pairwise_append.mp latest.sorted).1
  past e mem := latest.past e (List.mem_append_left _ mem)

end Latest

end Latest

end OpenCargo.Lib
