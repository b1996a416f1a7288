/-
Module: OpenCargo.Lib.Framing
Purpose: Ranges of a list that may be out of bounds, and lengths written as words of four bytes, least byte
  first, in front of what they measure.
Trusted boundary: none
Main exports: le32, readLe32, readLe32_append, readLe32_take
-/
import Mathlib

namespace OpenCargo.Lib

variable {α : Type*}

/-- The elements from `start` to before `stop`; `none` where a program that indexes them is out of range. -/
def slice (data : List α) (start stop : Nat) : Option (List α) :=
  if start ≤ stop ∧ stop ≤ data.length then some ((data.take stop).drop start) else none

variable {data piece : List α} {start stop : Nat}

theorem slice_of_le (ordered : start ≤ stop) (inside : stop ≤ data.length) :
    slice data start stop = some ((data.take stop).drop start) := if_pos ⟨ordered, inside⟩

theorem slice_eq_none (outside : data.length < stop) : slice data start stop = none :=
  if_neg fun within => Nat.not_lt.2 within.2 outside

/-- A piece between a front and a rest is the range it fills. -/
theorem slice_middle (front piece rest : List α) :
    slice (front ++ piece ++ rest) front.length (front.length + piece.length) = some piece := by
  rw [slice_of_le (Nat.le_add_right _ _) (by simp)]
  rw [List.take_append_of_le_length (by simp), List.take_of_length_le (by simp), List.drop_left]

theorem slice_take {n : Nat} (inside : stop ≤ n) : slice (data.take n) start stop = slice data start stop := by
  by_cases there : stop ≤ data.length
  · rw [slice, slice, List.length_take, List.take_take, Nat.min_eq_left inside]
    simp [inside, there]
  · rw [slice_eq_none (Nat.lt_of_not_le there), slice_eq_none]
    exact Nat.lt_of_le_of_lt (List.length_take_le' _ _) (Nat.lt_of_not_le there)

/-! ### Words -/

/-- `u32::to_le_bytes`. -/
def le32 (n : Nat) : List UInt8 :=
  [UInt8.ofNat n, UInt8.ofNat (n / 2 ^ 8), UInt8.ofNat (n / 2 ^ 16), UInt8.ofNat (n / 2 ^ 24)]

/-- `u32::from_le_bytes`. -/
def ofLe32 : List UInt8 → Option Nat
  | [a, b, c, d] => some (a.toNat + b.toNat * 2 ^ 8 + c.toNat * 2 ^ 16 + d.toNat * 2 ^ 24)
  | _ => none

@[simp] theorem length_le32 (n : Nat) : (le32 n).length = 4 := rfl

theorem ofLe32_le32 {n : Nat} (small : n < 2 ^ 32) : ofLe32 (le32 n) = some n := by
  rw [le32, ofLe32]
  simp only [UInt8.toNat_ofNat']
  congr 1
  omega

/-- The word that starts at a place. -/
def readLe32 (data : List UInt8) (start : Nat) : Option Nat := (slice data start (start + 4)).bind ofLe32

theorem readLe32_append {n : Nat} (small : n < 2 ^ 32) (front rest : List UInt8) :
    readLe32 (front ++ le32 n ++ rest) front.length = some n := by
  rw [readLe32, ← length_le32 n, slice_middle front (le32 n) rest, Option.bind_some, ofLe32_le32 small]

theorem readLe32_take {data : List UInt8} {n : Nat} (inside : start + 4 ≤ n) :
    readLe32 (data.take n) start = readLe32 data start := by
  rw [readLe32, slice_take inside, readLe32]

theorem readLe32_eq_none {data : List UInt8} (short : data.length < start + 4) : readLe32 data start = none := by
  rw [readLe32, slice_eq_none short, Option.bind_none]

end OpenCargo.Lib
