/-
Module: OpenCargo.Lib.Orders
Purpose: Comparisons built from others, each again a total preorder: texts compared by what they read as, those
  that do not read first; and lists compared place by place, a shorter one filled up, which sees no filling at
  their ends. And the last of a sorted list.
Trusted boundary: none
Main exports: padded, padded_eq_iff, rdropWhile_cons, mem_drop_sorted
-/
import Mathlib

namespace OpenCargo.Lib

section Reading

variable {α β : Type*} (read : α → Option β) (cmp : β → β → Ordering) (base : α → α → Ordering)

/-- What reads is compared as what it reads as, and sorts after what does not. -/
def byReading (a b : α) : Ordering :=
  match read a, read b with
  | some x, some y => cmp x y
  | some _, none => .gt
  | none, some _ => .lt
  | none, none => base a b

instance [Std.TransCmp cmp] [Std.TransCmp base] : Std.TransCmp (byReading read cmp base) where
  eq_swap {a b} := by
    rw [byReading, byReading]
    cases read a <;> cases read b <;> first | rfl | exact Std.OrientedCmp.eq_swap
  isLE_trans {a b c} first rest := by
    rw [byReading] at first rest ⊢
    cases readA : read a <;> cases readB : read b <;> cases readC : read c <;>
      simp only [readA, readB, readC] at first rest ⊢ <;>
      first
        | rfl
        | exact Std.TransCmp.isLE_trans first rest
        | exact absurd first Bool.false_ne_true
        | exact absurd rest Bool.false_ne_true

end Reading

/-- What is compared by a part of it. -/
theorem transCmp_of_part {α β : Type*} {cmp : β → β → Ordering} [Std.TransCmp cmp] (part : α → β) :
    Std.TransCmp fun a b => cmp (part a) (part b) where
  eq_swap := Std.OrientedCmp.eq_swap
  isLE_trans := Std.TransCmp.isLE_trans

section Padded

variable {α : Type*} (cmp : α → α → Ordering) (zero : α)

/-- Filling against a list. -/
def paddedNil : List α → Ordering
  | [] => .eq
  | b :: bs => (cmp zero b).then (paddedNil bs)

/-- Place by place, to the end of the longer list. -/
def padded : List α → List α → Ordering
  | [], bs => paddedNil cmp zero bs
  | a :: as, [] => (cmp a zero).then (padded as [])
  | a :: as, b :: bs => (cmp a b).then (padded as bs)

/-- A list filled up to a length. -/
def filled (zero : α) (n : Nat) (as : List α) : List α := as ++ List.replicate (n - as.length) zero

theorem filled_cons (n : Nat) (a : α) (as : List α) : filled zero (n + 1) (a :: as) = a :: filled zero n as := by
  simp [filled]

theorem filled_nil (n : Nat) : filled zero (n + 1) [] = zero :: filled zero n [] := by
  simp [filled, List.replicate_succ]

variable {cmp zero}

/-- Filled up, the lists are compared as lists are. -/
theorem padded_eq_compareLex [Std.ReflCmp cmp] {n : Nat} {as bs : List α} (longA : as.length ≤ n)
    (longB : bs.length ≤ n) :
    padded cmp zero as bs = List.compareLex cmp (filled zero n as) (filled zero n bs) := by
  induction n generalizing as bs with
  | zero =>
      obtain rfl := List.length_eq_zero_iff.mp (Nat.le_zero.mp longA)
      obtain rfl := List.length_eq_zero_iff.mp (Nat.le_zero.mp longB)
      rfl
  | succ n ih =>
      have short : ([] : List α).length ≤ n := Nat.zero_le n
      have more (as : List α) : ∀ {a : α}, (a :: as).length ≤ n + 1 → as.length ≤ n := Nat.le_of_succ_le_succ
      cases as with
      | nil =>
          cases bs with
          | nil =>
              have self : cmp zero zero = .eq := Std.ReflCmp.compare_self
              rw [filled_nil, List.compareLex_cons_cons, self, ← ih short short]
              rfl
          | cons b bs =>
              rw [padded, paddedNil, filled_nil, filled_cons, List.compareLex_cons_cons, ← ih short (more bs longB)]
              rfl
      | cons a as =>
          cases bs with
          | nil => rw [padded, filled_nil, filled_cons, List.compareLex_cons_cons, ih (more as longA) short]
          | cons b bs => rw [padded, filled_cons, filled_cons, List.compareLex_cons_cons, ih (more as longA) (more bs longB)]

instance [Std.TransCmp cmp] : Std.TransCmp (padded cmp zero) where
  eq_swap {as bs} := by
    have longA : as.length ≤ max as.length bs.length := le_max_left _ _
    have longB : bs.length ≤ max as.length bs.length := le_max_right _ _
    rw [padded_eq_compareLex longA longB, padded_eq_compareLex longB longA]
    exact Std.OrientedCmp.eq_swap
  isLE_trans {as bs cs} first rest := by
    have longA : as.length ≤ max as.length (max bs.length cs.length) := le_max_left _ _
    have longB : bs.length ≤ max as.length (max bs.length cs.length) := (le_max_left _ _).trans (le_max_right _ _)
    have longC : cs.length ≤ max as.length (max bs.length cs.length) := (le_max_right _ _).trans (le_max_right _ _)
    rw [padded_eq_compareLex longA longB] at first
    rw [padded_eq_compareLex longB longC] at rest
    rw [padded_eq_compareLex longA longC]
    exact Std.TransCmp.isLE_trans first rest

/-! ### Filling that is cut off -/

theorem rdropWhile_cons {p : α → Bool} (a : α) (as : List α) : (a :: as).rdropWhile p =
    if (as.rdropWhile p).isEmpty && p a then [] else a :: as.rdropWhile p := by
  rw [List.rdropWhile, List.rdropWhile, List.reverse_cons, List.dropWhile_append]
  by_cases gone : (as.reverse.dropWhile p).isEmpty = true
  · have empty := List.isEmpty_iff.mp gone
    by_cases dropped : p a = true <;> simp [empty, dropped]
  · simp [gone]

section Cut

variable [DecidableEq α] {a b : α} {as bs : List α}

theorem rdropWhile_cons_eq_nil_iff :
    (a :: as).rdropWhile (· == zero) = [] ↔ a = zero ∧ as.rdropWhile (· == zero) = [] := by
  rw [rdropWhile_cons]
  by_cases gone : as.rdropWhile (· == zero) = [] <;> simp [gone]

/-- Two lists are cut alike when their tails are and they start alike. -/
theorem rdropWhile_cons_inj : (a :: as).rdropWhile (· == zero) = (b :: bs).rdropWhile (· == zero) ↔
    a = b ∧ as.rdropWhile (· == zero) = bs.rdropWhile (· == zero) := by
  constructor
  · intro same
    by_cases goneA : (a :: as).rdropWhile (· == zero) = []
    · obtain ⟨rfl, emptyA⟩ := rdropWhile_cons_eq_nil_iff.mp goneA
      obtain ⟨rfl, emptyB⟩ := rdropWhile_cons_eq_nil_iff.mp (same.symm.trans goneA)
      exact ⟨rfl, emptyA.trans emptyB.symm⟩
    · have goneB : ¬(b :: bs).rdropWhile (· == zero) = [] := fun gone => goneA (same.trans gone)
      rw [rdropWhile_cons] at same goneA
      rw [rdropWhile_cons] at same goneB
      split at goneA
      · exact absurd rfl goneA
      · rename_i keptA
        split at goneB
        · exact absurd rfl goneB
        · rename_i keptB
          rw [if_neg keptA, if_neg keptB] at same
          exact List.cons.inj same
  · rintro ⟨rfl, same⟩
    rw [rdropWhile_cons, rdropWhile_cons, same]

variable [Std.LawfulEqCmp cmp]

theorem paddedNil_eq_iff : paddedNil cmp zero bs = .eq ↔ bs.rdropWhile (· == zero) = [] := by
  induction bs with
  | nil => exact ⟨fun _ => rfl, fun _ => rfl⟩
  | cons b bs ih =>
      rw [paddedNil, Ordering.then_eq_eq, ih, rdropWhile_cons_eq_nil_iff, Std.LawfulEqCmp.compare_eq_iff_eq,
        eq_comm (a := zero)]

/-- Filling at the end is not seen. -/
theorem padded_eq_iff : padded cmp zero as bs = .eq ↔
    as.rdropWhile (· == zero) = bs.rdropWhile (· == zero) := by
  induction as generalizing bs with
  | nil => exact paddedNil_eq_iff.trans eq_comm
  | cons a as ih =>
      cases bs with
      | nil =>
          rw [padded, Ordering.then_eq_eq, ih, List.rdropWhile_nil, rdropWhile_cons_eq_nil_iff,
            Std.LawfulEqCmp.compare_eq_iff_eq]
      | cons b bs =>
          rw [padded, Ordering.then_eq_eq, ih, rdropWhile_cons_inj, Std.LawfulEqCmp.compare_eq_iff_eq]

end Cut

end Padded

/-- Of a sorted list the last `keep` are those that fewer than `keep` come after. -/
theorem mem_drop_sorted {α : Type*} [LinearOrder α] {l : List α} {x : α} (sorted : l.Pairwise (· < ·)) (mem : x ∈ l)
    (keep : Nat) : x ∈ l.drop (l.length - keep) ↔ l.countP (fun y => x < y) < keep := by
  obtain ⟨front, back, rfl⟩ := List.append_of_mem mem
  obtain ⟨-, after, before⟩ := List.pairwise_append.mp sorted
  have later := (List.pairwise_cons.mp after).1
  have none_ : front.countP (fun y => x < y) = 0 := List.countP_eq_zero.mpr fun y inside => by
    simpa using (before y inside x List.mem_cons_self).le
  have all : back.countP (fun y => x < y) = back.length := List.countP_eq_length.mpr fun y inside => by
    simpa using later y inside
  rw [List.countP_append, none_, List.countP_cons_of_neg (by simp), all, List.length_append, List.length_cons]
  by_cases early : front.length + (back.length + 1) - keep ≤ front.length
  · rw [List.drop_append_of_le_length early]
    refine iff_of_true (List.mem_append_right _ List.mem_cons_self) (by omega)
  · refine iff_of_false (fun inside => ?_) (by omega)
    obtain ⟨more, cut⟩ : ∃ more, front.length + (back.length + 1) - keep = front.length + (more + 1) :=
      ⟨front.length + (back.length + 1) - keep - front.length - 1, by omega⟩
    rw [cut, List.drop_append, List.drop_eq_nil_of_le (by omega), List.nil_append, Nat.add_sub_cancel_left,
      List.drop_succ_cons] at inside
    exact lt_irrefl x (later x (List.mem_of_mem_drop inside))

end OpenCargo.Lib
