/-
Module: OpenCargo.Lib.Edits
Purpose: Two words compared place by place: where two of one length differ, how long they agree, and what
  it says of them when they differ at one place, at two neighbours, or by one letter left out. A word that is
  edited at one place keeps its first letters or its last.
Trusted boundary: none
Main exports: left_out_iff, take_append_of_le, lasts, lasts_append
-/
import Mathlib.Data.List.Basic

namespace OpenCargo.Lib

variable {α : Type*}

section Compared

variable [DecidableEq α] {xs ys : List α}

/-- The places at which two words differ, counted from `i`. -/
def differences (i : Nat) : List α → List α → List Nat
  | x :: xs, y :: ys => if x = y then differences (i + 1) xs ys else i :: differences (i + 1) xs ys
  | _, _ => []

/-- How many letters two words have in common at their front. -/
def agreement : List α → List α → Nat
  | x :: xs, y :: ys => if x = y then agreement xs ys + 1 else 0
  | _, _ => 0

/-! ### Words of one length -/

@[simp]
theorem differences_self (i : Nat) (xs : List α) : differences i xs xs = [] := by
  induction xs generalizing i with
  | nil => rfl
  | cons x xs ih => rw [differences, if_pos rfl, ih]

theorem differences_eq_nil_iff (same : xs.length = ys.length) (i : Nat) :
    differences i xs ys = [] ↔ xs = ys := by
  constructor
  · intro none_
    induction xs generalizing ys i with
    | nil => exact (List.eq_nil_of_length_eq_zero same.symm).symm
    | cons x xs ih =>
        cases ys with
        | nil => cases same
        | cons y ys =>
            rw [differences] at none_
            split at none_
            · rename_i letter
              rw [letter, ih (Nat.succ.inj same) (i + 1) none_]
            · cases none_
  · rintro rfl
    exact differences_self i xs

/-- What two words have in common at their front is passed by. -/
theorem differences_append (i : Nat) (front xs ys : List α) :
    differences i (front ++ xs) (front ++ ys) = differences (i + front.length) xs ys := by
  induction front generalizing i with
  | nil => rfl
  | cons x front ih =>
      rw [List.cons_append, List.cons_append, differences, if_pos rfl, ih, List.length_cons]
      congr 1
      omega

/-- The first place at which two words differ. -/
theorem differences_eq_cons (same : xs.length = ys.length) {i k : Nat} {more : List Nat}
    (found : differences i xs ys = k :: more) :
    ∃ front x y xs' ys', x ≠ y ∧ xs = front ++ x :: xs' ∧ ys = front ++ y :: ys' ∧ xs'.length = ys'.length ∧
      k = i + front.length ∧ more = differences (k + 1) xs' ys' := by
  induction xs generalizing ys i with
  | nil => cases found
  | cons x xs ih =>
      cases ys with
      | nil => cases same
      | cons y ys =>
          rw [differences] at found
          split at found
          · rename_i letter
            obtain ⟨front, x', y', xs', ys', differ, rfl, rfl, same', rfl, rest⟩ := ih (Nat.succ.inj same) found
            refine ⟨x :: front, x', y', xs', ys', differ, rfl, by rw [letter]; rfl, same', ?_, rest⟩
            rw [List.length_cons]
            omega
          · rename_i differ
            obtain ⟨rfl, rest⟩ := List.cons.inj found
            exact ⟨[], x, y, xs, ys, differ, rfl, rfl, Nat.succ.inj same, rfl, rest.symm⟩

/-- Two words differ at the place `k` and nowhere else: one letter stands for another. -/
theorem differences_eq_singleton_iff (same : xs.length = ys.length) {k : Nat} :
    differences 0 xs ys = [k] ↔
      ∃ front x y back, x ≠ y ∧ xs = front ++ x :: back ∧ ys = front ++ y :: back ∧ front.length = k := by
  constructor
  · intro found
    obtain ⟨front, x, y, xs', ys', differ, rfl, rfl, same', place, rest⟩ := differences_eq_cons same found
    obtain rfl := (differences_eq_nil_iff same' _).mp rest.symm
    exact ⟨front, x, y, xs', differ, rfl, rfl, by omega⟩
  · rintro ⟨front, x, y, back, differ, rfl, rfl, rfl⟩
    rw [differences_append, differences, if_neg differ, differences_self, Nat.zero_add]

/-- Two words differ at two neighbouring places and nowhere else. -/
theorem differences_eq_pair_iff (same : xs.length = ys.length) {k : Nat} :
    differences 0 xs ys = [k, k + 1] ↔
      ∃ front x y x' y' back, x ≠ y ∧ x' ≠ y' ∧ xs = front ++ x :: x' :: back ∧
        ys = front ++ y :: y' :: back ∧ front.length = k := by
  constructor
  · intro found
    obtain ⟨front, x, y, xs', ys', differ, rfl, rfl, same', place, rest⟩ := differences_eq_cons same found
    obtain ⟨mid, x', y', xs'', ys'', differ', rfl, rfl, same'', next, rest'⟩ :=
      differences_eq_cons same' rest.symm
    obtain rfl := (differences_eq_nil_iff same'' _).mp rest'.symm
    obtain rfl : mid = [] := List.eq_nil_of_length_eq_zero (by omega)
    exact ⟨front, x, y, x', y', xs'', differ, differ', rfl, rfl, by omega⟩
  · rintro ⟨front, x, y, x', y', back, differ, differ', rfl, rfl, rfl⟩
    rw [differences_append, differences, if_neg differ, differences, if_neg differ', differences_self,
      Nat.zero_add]

/-! ### A letter left out -/

theorem agreement_append (front xs ys : List α) :
    agreement (front ++ xs) (front ++ ys) = front.length + agreement xs ys := by
  induction front with
  | nil => exact (Nat.zero_add _).symm
  | cons x front ih =>
      rw [List.cons_append, List.cons_append, agreement, if_pos rfl, ih, List.length_cons]
      omega

theorem take_agreement (xs ys : List α) : xs.take (agreement xs ys) = ys.take (agreement xs ys) := by
  fun_induction agreement xs ys with
  | case1 xs y ys ih => rw [List.take_succ_cons, List.take_succ_cons, ih]
  | case2 => rfl
  | case3 => rfl

/-- A letter is found left out behind the run of the same letter it stood in. -/
theorem left_out_head (s : α) (back : List α) :
    (s :: back)[agreement back (s :: back)]? = some s ∧
      (s :: back).drop (agreement back (s :: back) + 1) = back.drop (agreement back (s :: back)) := by
  induction back with
  | nil => exact ⟨rfl, rfl⟩
  | cons b back ih =>
      rw [agreement]
      split
      · rename_i letter
        subst letter
        exact ⟨ih.1, ih.2⟩
      · exact ⟨rfl, rfl⟩

/-- The second word without one letter is the first: the letter is the one the two part at. -/
theorem left_out_iff {s : α} :
    (ys[agreement xs ys]? = some s ∧ ys.drop (agreement xs ys + 1) = xs.drop (agreement xs ys)) ↔
      ∃ front back, ys = front ++ s :: back ∧ xs = front ++ back := by
  constructor
  · rintro ⟨letter, rest⟩
    refine ⟨xs.take (agreement xs ys), xs.drop (agreement xs ys), ?_, (List.take_append_drop ..).symm⟩
    obtain ⟨inside, same⟩ := List.getElem?_eq_some_iff.mp letter
    calc ys = ys.take (agreement xs ys) ++ ys.drop (agreement xs ys) := (List.take_append_drop ..).symm
      _ = xs.take (agreement xs ys) ++ s :: xs.drop (agreement xs ys) := by
        rw [List.drop_eq_getElem_cons inside, same, rest, take_agreement]
  · rintro ⟨front, back, rfl, rfl⟩
    obtain ⟨letter, rest⟩ := left_out_head s back
    rw [agreement_append, List.getElem?_append_right (Nat.le_add_right ..), Nat.add_sub_cancel_left, Nat.add_assoc,
      List.drop_append, List.drop_append, List.drop_eq_nil_of_le (Nat.le_add_right ..),
      List.drop_eq_nil_of_le (Nat.le_add_right ..), Nat.add_sub_cancel_left, Nat.add_sub_cancel_left]
    exact ⟨letter, by rw [rest]⟩

end Compared

/-! ### What an edit keeps -/

/-- The last `n` letters. -/
def lasts (n : Nat) (xs : List α) : List α := xs.drop (xs.length - n)

theorem take_append_of_le {n : Nat} {front : List α} (long : n ≤ front.length) (back : List α) :
    (front ++ back).take n = front.take n := by
  rw [List.take_append, Nat.sub_eq_zero_of_le long, List.take_zero, List.append_nil]

theorem lasts_append {n : Nat} {back : List α} (long : n ≤ back.length) (front : List α) :
    lasts n (front ++ back) = lasts n back := by
  have cut : (front ++ back).length - n = front.length + (back.length - n) := by
    rw [List.length_append]
    omega
  rw [lasts, cut, List.drop_append, List.drop_eq_nil_of_le (Nat.le_add_right ..), Nat.add_sub_cancel_left,
    List.nil_append, lasts]

/-- Of a word with at least three letters around the place it is edited at, two are kept on one side. -/
theorem kept_two {front back : List α} (mid mid' : List α) (long : 3 ≤ front.length + back.length) :
    (front ++ mid ++ back).take 2 = (front ++ mid' ++ back).take 2 ∨
      lasts 2 (front ++ mid ++ back) = lasts 2 (front ++ mid' ++ back) := by
  by_cases first : 2 ≤ front.length
  · left
    rw [List.append_assoc, List.append_assoc, take_append_of_le first, take_append_of_le first]
  · right
    have last : 2 ≤ back.length := by omega
    rw [lasts_append last, lasts_append last]

end OpenCargo.Lib
