/-
Module: OpenCargo.Lib.Tiling
Purpose: Pieces that tile an interval of the naturals: each begins where the one before it ends, and
  none is empty. Generic in what a piece is, given where it starts and how long it is.
Trusted boundary: none
Main exports: Tiles.snoc, Tiles.bounds, Tiles.ordered, Tiles.map
-/
import Mathlib.Data.List.Basic

namespace OpenCargo.Lib

variable {α γ : Type*} {start len : α → Nat}

/-- `Tiles start len a pieces b`: the pieces, in this order, tile the interval from `a` to `b`. -/
inductive Tiles (start len : α → Nat) : Nat → List α → Nat → Prop where
  | nil {a : Nat} : Tiles start len a [] a
  | cons {a b : Nat} {piece : α} {rest : List α} :
      start piece = a → 0 < len piece → Tiles start len (a + len piece) rest b →
        Tiles start len a (piece :: rest) b

namespace Tiles

variable {a b : Nat} {pieces : List α}

/-- One more piece where the last one ends. -/
theorem snoc (tiles : Tiles start len a pieces b) {piece : α} (there : start piece = b)
    (nonempty : 0 < len piece) : Tiles start len a (pieces ++ [piece]) (b + len piece) := by
  induction tiles with
  | nil => exact .cons there nonempty .nil
  | cons here some_ _ ih => exact .cons here some_ (ih there)

theorem le (tiles : Tiles start len a pieces b) : a ≤ b := by
  induction tiles with
  | nil => exact Nat.le_refl _
  | cons _ _ _ ih => exact Nat.le_of_add_right_le ih

/-- No piece reaches out of the interval. -/
theorem bounds (tiles : Tiles start len a pieces b) :
    ∀ piece ∈ pieces, a ≤ start piece ∧ start piece + len piece ≤ b := by
  induction tiles with
  | nil => simp
  | cons here _ rest ih =>
      intro piece mem
      rcases List.mem_cons.mp mem with same | later
      · rw [same, here]
        exact ⟨Nat.le_refl _, rest.le⟩
      · obtain ⟨above, below⟩ := ih piece later
        exact ⟨Nat.le_of_add_right_le above, below⟩

/-- No two pieces overlap, and they come in the order of their starts. -/
theorem ordered (tiles : Tiles start len a pieces b) :
    pieces.Pairwise fun x y => start x + len x ≤ start y := by
  induction tiles with
  | nil => exact .nil
  | cons here _ rest ih =>
      apply List.Pairwise.cons _ ih
      intro later mem
      rw [here]
      exact (rest.bounds later mem).1

/-- The same pieces under another name. -/
theorem map {start' len' : γ → Nat} {f : α → γ} (starts : ∀ x, start' (f x) = start x)
    (lens : ∀ x, len' (f x) = len x) (tiles : Tiles start len a pieces b) :
    Tiles start' len' a (pieces.map f) b := by
  induction tiles with
  | nil => exact .nil
  | cons here some_ _ ih =>
      apply Tiles.cons
      · rw [starts, here]
      · rw [lens]
        exact some_
      · rw [lens]
        exact ih

end Tiles

end OpenCargo.Lib
