/-
Module: OpenCargo.Lib.Spans
Purpose: Spans of time, half-open, with an end or lasting: when two are apart, and how much of a window
  a list of them covers. Pairwise apart, they cover the sum of what each does.
Trusted boundary: none
Main exports: Span.Apart, Span.within, covered, covered_eq_sum
-/
import Mathlib

namespace OpenCargo.Lib

/-- From `start` on, up to `stop` if there is one. -/
structure Span where
  start : Int
  stop : Option Int
deriving Repr, DecidableEq, Inhabited

namespace Span

variable {a b s : Span} {i lo hi : Int}

def Covers (s : Span) (i : Int) : Prop := s.start ≤ i ∧ ∀ e ∈ s.stop, i < e

instance : Decidable (s.Covers i) := inferInstanceAs (Decidable (_ ∧ _))

/-- No instant is in both. -/
def Apart (a b : Span) : Prop := ∀ i, ¬(a.Covers i ∧ b.Covers i)

theorem Apart.symm (apart : a.Apart b) : b.Apart a := fun i both => apart i both.symm

/-- Two spans that meet meet where the later one starts. -/
theorem apart_iff :
    a.Apart b ↔ ¬(a.Covers (max a.start b.start) ∧ b.Covers (max a.start b.start)) := by
  constructor
  · intro apart
    exact apart _
  · rintro clear i ⟨⟨fromA, toA⟩, ⟨fromB, toB⟩⟩
    have earlier : max a.start b.start ≤ i := max_le fromA fromB
    apply clear
    exact ⟨⟨le_max_left _ _, fun e ends => lt_of_le_of_lt earlier (toA e ends)⟩,
      le_max_right _ _, fun e ends => lt_of_le_of_lt earlier (toB e ends)⟩

instance : Decidable (a.Apart b) := decidable_of_iff _ apart_iff.symm

/-- A span that is cut shorter covers less. -/
theorem Covers.of_cut {e : Int} (covers : (Span.mk a.start (some e)).Covers i)
    (lasting : a.stop = none) : a.Covers i :=
  ⟨covers.1, fun e ends => by simp [lasting] at ends⟩

/-- How much of the span lies in the window. -/
def within (s : Span) (lo hi : Int) : Int := max 0 (min (s.stop.getD hi) hi - max s.start lo)

theorem filter_covers :
    (Finset.Ico lo hi).filter s.Covers = Finset.Ico (max s.start lo) (min (s.stop.getD hi) hi) := by
  ext i
  simp only [Finset.mem_filter, Finset.mem_Ico, Covers, max_le_iff, lt_min_iff]
  cases stop : s.stop with
  | none => simp; omega
  | some e => simp; omega

theorem card_covers : (((Finset.Ico lo hi).filter s.Covers).card : Int) = s.within lo hi := by
  rw [filter_covers, Int.card_Ico, within, Int.toNat_eq_max]
  omega

end Span

/-- How many instants of the window lie in one of the spans. -/
noncomputable def covered (spans : List Span) (lo hi : Int) : Nat :=
  ((Finset.Ico lo hi).filter fun i => ∃ s ∈ spans, s.Covers i).card

variable {spans : List Span} {lo hi : Int}

theorem covered_le : (covered spans lo hi : Int) ≤ max 0 (hi - lo) := by
  have counted : covered spans lo hi ≤ (Finset.Ico lo hi).card := Finset.card_filter_le _ _
  rw [Int.card_Ico] at counted
  have read : ((hi - lo).toNat : Int) = max (hi - lo) 0 := Int.toNat_eq_max _
  omega

/-- The first of a list of spans apart shares nothing with the rest. -/
theorem covered_cons {s : Span} (apart : ∀ other ∈ spans, s.Apart other) :
    covered (s :: spans) lo hi =
      ((Finset.Ico lo hi).filter s.Covers).card + covered spans lo hi := by
  have split : ((Finset.Ico lo hi).filter fun i => ∃ other ∈ s :: spans, other.Covers i) =
      (Finset.Ico lo hi).filter s.Covers ∪
        (Finset.Ico lo hi).filter fun i => ∃ other ∈ spans, other.Covers i := by
    rw [← Finset.filter_or]
    apply Finset.filter_congr
    intro i _
    simp
  rw [covered, split, Finset.card_union_of_disjoint, covered]
  rw [Finset.disjoint_filter]
  rintro i _ first ⟨other, mem, second⟩
  exact apart other mem i ⟨first, second⟩

/-- No instant is counted twice. -/
theorem covered_eq_sum (apart : spans.Pairwise Span.Apart) :
    (covered spans lo hi : Int) = (spans.map fun s => s.within lo hi).sum := by
  induction spans with
  | nil => simp [covered]
  | cons s spans ih =>
      obtain ⟨first, rest⟩ := List.pairwise_cons.mp apart
      rw [covered_cons first, Nat.cast_add, Span.card_covers, ih rest, List.map_cons, List.sum_cons]

end OpenCargo.Lib
