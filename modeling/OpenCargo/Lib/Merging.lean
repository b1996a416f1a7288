/-
Module: OpenCargo.Lib.Merging
Purpose: The first element of each key of a list, as a loop keeps it; and when a list that lacks some elements of
  another shows the same window.
Trusted boundary: none
Main exports: mem_map_firsts, find?_firsts, mem_take_of_sublist, window_eq_iff
-/
import Mathlib.Data.List.Nodup
import Mathlib.Data.List.Basic

namespace OpenCargo.Lib

variable {α κ : Type*}

section Firsts

variable [BEq κ] [LawfulBEq κ] (key : α → κ)

/-- The loop that keeps the first element of each key. -/
def firsts : List α → List α → List α
  | out, [] => out
  | out, x :: xs => firsts (if out.any fun o => key o == key x then out else out ++ [x]) xs

variable {key} {out xs : List α} {k : κ}

theorem any_key_iff {x : α} : (out.any fun o => key o == key x) = true ↔ key x ∈ out.map key := by
  rw [List.any_eq_true, List.mem_map]
  exact ⟨fun ⟨o, mem, same⟩ => ⟨o, mem, eq_of_beq same⟩, fun ⟨o, mem, same⟩ => ⟨o, mem, beq_iff_eq.mpr same⟩⟩

theorem map_firsts_nodup (once : (out.map key).Nodup) : ((firsts key out xs).map key).Nodup := by
  induction xs generalizing out with
  | nil => exact once
  | cons x xs ih =>
      rw [firsts]
      refine ih ?_
      split
      · exact once
      · rename_i fresh
        rw [List.map_append, List.map_singleton]
        exact List.nodup_append.mpr ⟨once, List.nodup_singleton _, fun a one b two same =>
          fresh (any_key_iff.mpr (List.mem_singleton.mp two ▸ same ▸ one))⟩

theorem mem_map_firsts : k ∈ (firsts key out xs).map key ↔ k ∈ out.map key ∨ k ∈ xs.map key := by
  induction xs generalizing out with
  | nil => simp [firsts]
  | cons x xs ih =>
      rw [firsts, ih, List.map_cons, List.mem_cons]
      split
      · rename_i there
        have known := any_key_iff.mp there
        constructor
        · exact fun mem => mem.imp_right .inr
        · rintro (mem | rfl | mem)
          · exact .inl mem
          · exact .inl known
          · exact .inr mem
      · rw [List.map_append, List.mem_append, List.map_singleton, List.mem_singleton, or_assoc]

omit [LawfulBEq κ] in
theorem firsts_append (xs ys : List α) : firsts key out (xs ++ ys) = firsts key (firsts key out xs) ys := by
  induction xs generalizing out with
  | nil => rfl
  | cons x xs ih => exact ih

/-- What is kept of a key is its first element. -/
theorem find?_firsts : (firsts key out xs).find? (fun x => key x == k) =
    (out.find? fun x => key x == k).or (xs.find? fun x => key x == k) := by
  induction xs generalizing out with
  | nil => simp [firsts]
  | cons x xs ih =>
      rw [firsts, ih]
      by_cases own : key x = k
      · subst own
        split
        · rename_i there
          obtain ⟨o, mem, same⟩ := List.any_eq_true.mp there
          have some_ : (out.find? fun o => key o == key x).isSome := List.find?_isSome.mpr ⟨o, mem, same⟩
          obtain ⟨found, held⟩ := Option.isSome_iff_exists.mp some_
          rw [held, Option.some_or, Option.some_or]
        · have found : ∀ rest : List α, ((x :: rest).find? fun o => key o == key x) = some x := fun rest =>
            List.find?_cons_of_pos (by simp)
          rw [List.find?_append, found, found, Option.or_assoc, Option.some_or]
      · have skip : (key x == k) = false := by simpa using own
        rw [List.find?_cons_of_neg (by simp [skip])]
        split
        · rfl
        · rw [List.find?_append, List.find?_cons_of_neg (by simp [skip]), List.find?_nil, Option.or_none]

end Firsts

/-- What stands among the first of a list stands among the first of any part of it. -/
theorem mem_take_of_sublist {n : ℕ} {us ms : List α} {x : α} (less : us.Sublist ms) (once : ms.Nodup) (mem : x ∈ us)
    (first : x ∈ ms.take n) : x ∈ us.take n := by
  induction less generalizing n with
  | slnil => cases mem
  | @cons us ms a less ih =>
      obtain ⟨fresh, once⟩ := List.nodup_cons.mp once
      cases n with
      | zero => cases first
      | succ n =>
          rcases List.mem_cons.mp first with rfl | later
          · exact absurd (less.subset mem) fresh
          · exact List.take_subset_take_left _ (Nat.le_succ n) (ih once mem later)
  | @cons_cons us ms a less ih =>
      obtain ⟨fresh, once⟩ := List.nodup_cons.mp once
      cases n with
      | zero => cases first
      | succ n =>
          rcases List.mem_cons.mp mem with rfl | there
          · exact List.mem_cons_self
          · rcases List.mem_cons.mp first with rfl | later
            · exact List.mem_cons_self
            · exact List.mem_cons_of_mem _ (ih once there later)

/-- A list that lacks some elements of another shows the same window exactly where it lacks none of those up to the
window's end, or the window is empty. -/
theorem window_eq_iff {k t : ℕ} {us ms : List α} (less : us.Sublist ms) (once : ms.Nodup) :
    (us.drop k).take t = (ms.drop k).take t ↔ t = 0 ∨ ms.length ≤ k ∨ ∀ x ∈ ms.take (k + t), x ∈ us := by
  induction less generalizing k t with
  | slnil => simp
  | @cons us ms a less ih =>
      obtain ⟨fresh, once⟩ := List.nodup_cons.mp once
      have lacks : a ∉ us := fun mem => fresh (less.subset mem)
      constructor
      · intro same
        cases t with
        | zero => exact .inl rfl
        | succ t =>
            by_cases short : (a :: ms).length ≤ k
            · exact .inr (.inl short)
            · -- the first of the window would stand where only later ones do
              obtain ⟨x, rest, shown⟩ := List.exists_cons_of_ne_nil (mt List.drop_eq_nil_iff.mp short)
              rw [shown, List.take_succ_cons] at same
              have mem : x ∈ us.drop k := List.mem_of_mem_take (same ▸ List.mem_cons_self)
              have later : x ∈ ms.drop k := (less.drop k).subset mem
              cases k with
              | zero =>
                  rw [List.drop_zero] at shown later
                  exact absurd ((List.cons.inj shown).1 ▸ later) fresh
              | succ k =>
                  rw [List.drop_succ_cons] at shown
                  rw [← List.drop_drop, shown, List.drop_one, List.tail_cons] at later
                  have apart := (once.sublist (List.drop_sublist k ms))
                  rw [shown] at apart
                  exact absurd later (List.nodup_cons.mp apart).1
      · rintro (rfl | short | all)
        · rw [List.take_zero, List.take_zero]
        · have short' : us.length ≤ k := Nat.le_trans (Nat.le_trans less.length_le (Nat.le_succ _)) short
          rw [List.drop_eq_nil_of_le short, List.drop_eq_nil_of_le short']
        · cases more : k + t with
          | zero =>
              obtain rfl : t = 0 := by omega
              rw [List.take_zero, List.take_zero]
          | succ n =>
              rw [more] at all
              exact absurd (all a List.mem_cons_self) lacks
  | @cons_cons us ms a less ih =>
      obtain ⟨fresh, once⟩ := List.nodup_cons.mp once
      have rest : ∀ n, (∀ x ∈ (a :: ms).take (n + 1), x ∈ a :: us) ↔ ∀ x ∈ ms.take n, x ∈ us := by
        intro n
        rw [List.take_succ_cons]
        constructor
        · intro all x mem
          rcases List.mem_cons.mp (all x (List.mem_cons_of_mem _ mem)) with rfl | there
          · exact absurd (List.mem_of_mem_take mem) fresh
          · exact there
        · intro all x mem
          rcases List.mem_cons.mp mem with rfl | later
          · exact List.mem_cons_self
          · exact List.mem_cons_of_mem _ (all x later)
      cases k with
      | zero =>
          cases t with
          | zero => simp
          | succ t =>
              have inner := ih (k := 0) (t := t) once
              rw [List.drop_zero, List.drop_zero, Nat.zero_add] at inner
              rw [List.drop_zero, List.drop_zero, List.take_succ_cons, List.take_succ_cons, List.cons_inj_right, inner,
                Nat.zero_add, rest t]
              constructor
              · rintro (rfl | short | all)
                · exact .inr (.inr (by simp))
                · rw [List.eq_nil_of_length_eq_zero (Nat.le_zero.mp short)]
                  exact .inr (.inr (by simp))
                · exact .inr (.inr all)
              · rintro (none_ | short | all)
                · cases none_
                · cases short
                · exact .inr (.inr all)
      | succ k =>
          rw [List.drop_succ_cons, List.drop_succ_cons, ih once, Nat.succ_add, rest, List.length_cons,
            Nat.succ_le_succ_iff]

end OpenCargo.Lib
