/-
Module: OpenCargo.Lib.Printing
Purpose: Texts that can be read apart again: a printer whose texts end where one of a few letters follows, lists
  of such texts between separators and a closing letter, and sorted lists that what they are sorted by decides.
Trusted boundary: none
Main exports: forall₂_mem_imp, sortOn, forall₂_sortOn, sortOn_eq_of_perm
-/
import Mathlib.Data.List.Sort
import Mathlib.Data.List.Forall2

namespace OpenCargo.Lib

/-! ### Texts between separators -/

section Separated

variable {α γ : Type*} {ends r s : List γ} {sep close : γ} {p : α → List γ} {E : α → α → Prop} {a b : α}
  {xs ys : List α}

/-- A text is at its end, or goes on with a letter that ends what came before. -/
def Stops (ends rest : List γ) : Prop := ∀ c ∈ rest.head?, c ∈ ends

/-- Where the printed `a` and `b` begin one text and end in it, they are the same, and so is what follows. -/
def ReadsApart (ends : List γ) (p : α → List γ) (E : α → α → Prop) (a b : α) : Prop :=
  ∀ r s, Stops ends r → Stops ends s → p a ++ r = p b ++ s → E a b ∧ r = s

/-- What follows the first of some texts. -/
def following (sep close : γ) (p : α → List γ) (xs : List α) (r : List γ) : List γ :=
  match xs with
  | [] => close :: r
  | x :: xs => sep :: ([sep].intercalate ((x :: xs).map p) ++ close :: r)

theorem separated_cons (r : List γ) :
    [sep].intercalate ((a :: xs).map p) ++ close :: r = p a ++ following sep close p xs r := by
  cases xs with
  | nil => simp [following]
  | cons x xs =>
      rw [List.map_cons, List.map_cons, List.intercalate_cons_cons, following, List.map_cons]
      simp

theorem stops_following (sepEnds : sep ∈ ends) (closeEnds : close ∈ ends) : Stops ends (following sep close p xs r) := by
  intro c head
  cases xs with
  | nil =>
      cases head
      exact closeEnds
  | cons x xs =>
      cases head
      exact sepEnds

/-- Lists of texts that are read apart, none of them begun by the closing letter, are read apart. -/
theorem separated_inj (sepEnds : sep ∈ ends) (closeEnds : close ∈ ends) (other : sep ≠ close)
    (apart : ∀ a ∈ xs, ∀ b ∈ ys, ReadsApart ends p E a b) (begins : ∀ a ∈ xs, ∃ c t, p a = c :: t ∧ c ≠ close)
    (begins' : ∀ b ∈ ys, ∃ c t, p b = c :: t ∧ c ≠ close)
    (same : [sep].intercalate (xs.map p) ++ close :: r = [sep].intercalate (ys.map p) ++ close :: s) :
    List.Forall₂ E xs ys ∧ r = s := by
  induction xs generalizing ys with
  | nil =>
      cases ys with
      | nil => exact ⟨.nil, by simpa using same⟩
      | cons b ys =>
          obtain ⟨c, t, text, clear⟩ := begins' b List.mem_cons_self
          rw [separated_cons, text] at same
          exact absurd (List.cons.inj same).1.symm clear
  | cons a xs ih =>
      cases ys with
      | nil =>
          obtain ⟨c, t, text, clear⟩ := begins a List.mem_cons_self
          rw [separated_cons, text] at same
          exact absurd (List.cons.inj same).1 clear
      | cons b ys =>
          rw [separated_cons, separated_cons] at same
          obtain ⟨first, rest⟩ := apart a List.mem_cons_self b List.mem_cons_self _ _
            (stops_following sepEnds closeEnds) (stops_following sepEnds closeEnds) same
          cases xs with
          | nil =>
              cases ys with
              | nil => exact ⟨.cons first .nil, (List.cons.inj rest).2⟩
              | cons b' ys => exact absurd (List.cons.inj rest).1.symm other
          | cons a' xs =>
              cases ys with
              | nil => exact absurd (List.cons.inj rest).1 other
              | cons b' ys =>
                  obtain ⟨more, tail⟩ := ih
                    (fun x mem y mem' => apart x (List.mem_cons_of_mem _ mem) y (List.mem_cons_of_mem _ mem'))
                    (fun x mem => begins x (List.mem_cons_of_mem _ mem))
                    (fun y mem => begins' y (List.mem_cons_of_mem _ mem)) (List.cons.inj rest).2
                  exact ⟨.cons first more, tail⟩

end Separated

/-! ### Sorted lists -/

theorem forall₂_mem_imp {α β : Type*} {R S : α → β → Prop} {as : List α} {bs : List β} (each : List.Forall₂ R as bs)
    (imp : ∀ a ∈ as, ∀ b ∈ bs, R a b → S a b) : List.Forall₂ S as bs := by
  induction each with
  | nil => exact .nil
  | cons here _ ih =>
      refine .cons (imp _ List.mem_cons_self _ List.mem_cons_self here) (ih fun a mem b mem' => ?_)
      exact imp a (List.mem_cons_of_mem _ mem) b (List.mem_cons_of_mem _ mem')

section Sorted

variable {α κ : Type*} [LinearOrder κ] {key : α → κ} {S : α → α → Prop} {as bs : List α} {a b : α}

/-- By their keys, those with one key in the order they came in. -/
def sortOn (key : α → κ) (as : List α) : List α := as.insertionSort fun a b => key a ≤ key b

theorem sortOn_perm (key : α → κ) (as : List α) : (sortOn key as).Perm as := List.perm_insertionSort ..

theorem forall₂_orderedInsert (keys : ∀ a b, S a b → key a = key b) (first : S a b) (same : List.Forall₂ S as bs) :
    List.Forall₂ S (as.orderedInsert (fun a b => key a ≤ key b) a) (bs.orderedInsert (fun a b => key a ≤ key b) b) := by
  induction same with
  | nil => exact .cons first .nil
  | @cons x y xs ys here rest ih =>
      rw [List.orderedInsert, List.orderedInsert]
      by_cases less : key a ≤ key x
      · have less' : key b ≤ key y := by rwa [← keys a b first, ← keys x y here]
        rw [if_pos less, if_pos less']
        exact .cons first (.cons here rest)
      · have more' : ¬key b ≤ key y := by rwa [← keys a b first, ← keys x y here]
        rw [if_neg less, if_neg more']
        exact .cons here ih

/-- Lists that agree place by place, in their keys too, agree when they are sorted. -/
theorem forall₂_sortOn (keys : ∀ a b, S a b → key a = key b) (same : List.Forall₂ S as bs) :
    List.Forall₂ S (sortOn key as) (sortOn key bs) := by
  induction same with
  | nil => exact .nil
  | cons here rest ih => exact forall₂_orderedInsert keys here ih

/-- Different keys leave one order. -/
theorem sortOn_eq_of_perm (distinct : (as.map key).Nodup) (perm : as.Perm bs) : sortOn key as = sortOn key bs := by
  have total : Std.Total fun a b : α => key a ≤ key b := ⟨fun a b => le_total _ _⟩
  have trans : IsTrans α fun a b : α => key a ≤ key b := ⟨fun a b c => le_trans⟩
  have sorted : (sortOn key as).Pairwise fun a b => key a ≤ key b := List.pairwise_insertionSort _ as
  have sorted' : (sortOn key bs).Pairwise fun a b => key a ≤ key b := List.pairwise_insertionSort _ bs
  refine List.Perm.eq_of_pairwise (fun a b mem mem' less more => ?_) sorted sorted'
    ((sortOn_perm key as).trans (perm.trans (sortOn_perm key bs).symm))
  have inside : a ∈ as := (sortOn_perm key as).mem_iff.mp mem
  have inside' : b ∈ as := perm.mem_iff.mpr ((sortOn_perm key bs).mem_iff.mp mem')
  exact List.inj_on_of_nodup_map distinct inside inside' (le_antisymm less more)

theorem sortOn_map {β : Type*} (f : β → α) (xs : List β) :
    sortOn key (xs.map f) = (sortOn (fun x => key (f x)) xs).map f :=
  (List.map_insertionSort _ _ f xs fun _ _ _ _ => Iff.rfl).symm

end Sorted

end OpenCargo.Lib
