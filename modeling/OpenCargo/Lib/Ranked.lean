/-
Module: OpenCargo.Lib.Ranked
Purpose: The first `n` of a list in some order, where equals keep the order they came in. Sorting a list
  piece by piece leaves its pieces interleaved, so what is first overall is first in its own piece.
Trusted boundary: none
Main exports: first, mem_of_mem_first, mem_first_append, mem_first_flatten
-/
import Mathlib.Data.List.Sort

namespace OpenCargo.Lib

variable {α : Type*}

/-- A list whose elements are those of two others, each of these in its own order. -/
inductive Interleaved : List α → List α → List α → Prop where
  | nil : Interleaved [] [] []
  | left {x : α} {xs ys zs : List α} (rest : Interleaved xs ys zs) : Interleaved (x :: xs) ys (x :: zs)
  | right {y : α} {xs ys zs : List α} (rest : Interleaved xs ys zs) : Interleaved xs (y :: ys) (y :: zs)

namespace Interleaved

variable {xs ys zs : List α} {x : α} {n : ℕ}

theorem only_right : (ys : List α) → Interleaved [] ys ys
  | [] => .nil
  | _ :: ys => (only_right ys).right

theorem mem_left (inter : Interleaved xs ys zs) (mem : x ∈ xs) : x ∈ zs := by
  induction inter with
  | nil => exact mem
  | left _ ih =>
      rcases List.mem_cons.mp mem with rfl | later
      · exact List.mem_cons_self
      · exact List.mem_cons_of_mem _ (ih later)
  | right _ ih => exact List.mem_cons_of_mem _ (ih mem)

/-- What is among the first `n` is among the first `n` of the list it comes from. -/
theorem take (inter : Interleaved xs ys zs) (mem : x ∈ zs.take n) : x ∈ xs.take n ∨ x ∈ ys.take n := by
  induction inter generalizing n with
  | nil => exact .inl mem
  | left _ ih =>
      cases n with
      | zero => cases mem
      | succ n =>
          rcases List.mem_cons.mp mem with rfl | later
          · exact .inl List.mem_cons_self
          · rcases ih later with mine | other
            · exact .inl (List.mem_cons_of_mem _ mine)
            · exact .inr (List.take_subset_take_left _ (Nat.le_succ n) other)
  | right _ ih =>
      cases n with
      | zero => cases mem
      | succ n =>
          rcases List.mem_cons.mp mem with rfl | later
          · exact .inr List.mem_cons_self
          · rcases ih later with other | mine
            · exact .inl (List.take_subset_take_left _ (Nat.le_succ n) other)
            · exact .inr (List.mem_cons_of_mem _ mine)

variable {r : α → α → Prop} [DecidableRel r]

/-- An insertion into a sorted list goes to the same place in the list it is interleaved from. -/
theorem orderedInsert [IsTrans α r] {a : α} (inter : Interleaved xs ys zs) (sorted : zs.Pairwise r) :
    Interleaved (xs.orderedInsert r a) ys (zs.orderedInsert r a) := by
  induction inter with
  | nil => exact .left .nil
  | @left x xs ys zs rest ih =>
      have later := ih (List.pairwise_cons.mp sorted).2
      rw [List.orderedInsert, List.orderedInsert]
      split
      · exact .left (.left rest)
      · exact .left later
  | @right y xs ys zs rest ih =>
      obtain ⟨below, sorted⟩ := List.pairwise_cons.mp sorted
      rw [List.orderedInsert.eq_def r a (y :: zs)]
      simp only
      split
      · rename_i first
        have front : xs.orderedInsert r a = a :: xs := by
          cases xs with
          | nil => rfl
          | cons x xs =>
              have small : r a x := IsTrans.trans _ _ _ first (below x (rest.mem_left List.mem_cons_self))
              rw [List.orderedInsert, if_pos small]
        rw [front]
        exact .left (.right rest)
      · exact .right (ih sorted)

end Interleaved

section First

variable (r : α → α → Prop) [DecidableRel r]

/-- The first `n` in the order `r`. -/
def first (n : ℕ) (xs : List α) : List α := (xs.insertionSort r).take n

variable {r} {n : ℕ} {xs ys : List α} {x y : α}

theorem mem_of_mem_first (mem : x ∈ first r n xs) : x ∈ xs :=
  (List.mem_insertionSort r).mp (List.mem_of_mem_take mem)

theorem mem_first_of_length_le (few : xs.length ≤ n) : x ∈ first r n xs ↔ x ∈ xs := by
  rw [first, List.take_of_length_le (by simpa using few), List.mem_insertionSort]

variable [Std.Total r] [IsTrans α r]

theorem interleaved_insertionSort :
    Interleaved (xs.insertionSort r) (ys.insertionSort r) ((xs ++ ys).insertionSort r) := by
  induction xs with
  | nil => exact .only_right _
  | cons x xs ih => exact ih.orderedInsert (List.pairwise_insertionSort r _)

theorem mem_first_append (mem : x ∈ first r n (xs ++ ys)) : x ∈ first r n xs ∨ x ∈ first r n ys :=
  interleaved_insertionSort.take mem

/-- What is first overall is first in a piece of the list. -/
theorem mem_first_flatten {pieces : List (List α)} (mem : x ∈ first r n pieces.flatten) :
    ∃ piece ∈ pieces, x ∈ first r n piece := by
  induction pieces with
  | nil => exact absurd (mem_of_mem_first mem) List.not_mem_nil
  | cons piece pieces ih =>
      rcases mem_first_append mem with here | later
      · exact ⟨piece, List.mem_cons_self, here⟩
      · obtain ⟨other, among, first⟩ := ih later
        exact ⟨other, List.mem_cons_of_mem _ among, first⟩

end First

end OpenCargo.Lib
