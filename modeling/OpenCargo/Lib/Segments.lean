/-
Module: OpenCargo.Lib.Segments
Purpose: Keys as words cut into segments by a separator, and what it is to lie under another key
  segment by segment: `a/b` lies under `a`, `ab` does not. What lies above one key is a chain. And
  segments joined into a key again, and a key cut at one separator.
Trusted boundary: none
Main exports: flat_of_mem_splitOn, splitOnce, rsplitOnce
-/
import Mathlib

namespace OpenCargo.Lib

variable {α : Type*} {sep : α} {key mid root : List α}

/-- `key` lies strictly under `root`: it is `root`, a separator, and something. -/
def Within (sep : α) (key root : List α) : Prop := root ++ [sep] <+: key

/-- `key` is `root` or lies under it. -/
def Under (sep : α) (key root : List α) : Prop := key = root ∨ Within sep key root

theorem within_iff : Within sep key root ↔ ∃ rest, key = root ++ sep :: rest := by
  constructor
  · rintro ⟨rest, rfl⟩
    exact ⟨rest, by simp⟩
  · rintro ⟨rest, rfl⟩
    exact ⟨rest, by simp⟩

/-- The test a query makes: the first characters of the key, one more than the root has. -/
theorem within_iff_take : Within sep key root ↔ key.take (root.length + 1) = root ++ [sep] := by
  unfold Within
  rw [List.prefix_iff_eq_take]
  simp only [List.length_append, List.length_singleton]
  exact eq_comm

instance [DecidableEq α] : Decidable (Within sep key root) :=
  decidable_of_iff _ within_iff_take.symm

instance [DecidableEq α] : Decidable (Under sep key root) :=
  inferInstanceAs (Decidable (_ ∨ _))

theorem Under.refl (key : List α) : Under sep key key := .inl rfl

theorem Within.under (within : Within sep key root) : Under sep key root := .inr within

theorem within_append (root rest : List α) : Within sep (root ++ sep :: rest) root :=
  within_iff.mpr ⟨rest, rfl⟩

/-- A key keeps what it lies under when it is extended, whatever with. -/
theorem Within.append (within : Within sep key root) (rest : List α) :
    Within sep (key ++ rest) root :=
  within.trans (List.prefix_append key rest)

/-- A key that is extended within its last segment lies where it lay. -/
theorem Within.of_append {tail : List α} (flat : sep ∉ tail)
    (within : Within sep (key ++ tail) root) : Within sep key root := by
  obtain ⟨rest, split⟩ := within_iff.mp within
  rcases List.append_eq_append_iff.mp split with ⟨more, _, ends⟩ | ⟨more, rfl, ends⟩
  · exact absurd (by simp [ends]) flat
  · cases more with
    | nil =>
        rw [List.nil_append] at ends
        exact absurd (ends ▸ List.mem_cons_self) flat
    | cons first more =>
        obtain ⟨rfl, _⟩ := List.cons.inj ends
        exact within_append root more

/-- Of two roots of one key, the shorter is the root of the longer. -/
theorem under_of_concat {other : List α} (less : root ++ [sep] <+: other ++ [sep]) :
    Under sep other root := by
  rcases List.prefix_concat_iff.mp less with same | inside
  · left
    exact (List.append_cancel_right same).symm
  · right
    exact inside

/-- Two roots a key lies under lie one under the other. -/
theorem Under.comparable {other : List α} (one : Under sep key root) (two : Under sep key other) :
    Under sep root other ∨ Under sep other root := by
  rcases one with rfl | one
  · exact .inl two
  · rcases two with rfl | two
    · exact .inr one.under
    · rcases List.prefix_or_prefix_of_prefix one two with less | less
      · exact .inr (under_of_concat less)
      · exact .inl (under_of_concat less)

/-! ### Segments joined by a separator -/

section Joined

variable {β : Type*} {segments : List (List α)} {last : List α}

theorem intercalate_append_cons {more : List (List α)} (nonempty : segments ≠ []) :
    [sep].intercalate (segments ++ last :: more) =
      [sep].intercalate segments ++ sep :: [sep].intercalate (last :: more) := by
  induction segments with
  | nil => exact absurd rfl nonempty
  | cons first rest ih =>
      cases rest with
      | nil => simp
      | cons second rest =>
          have tail := ih (List.cons_ne_nil _ _)
          rw [List.cons_append] at tail
          rw [List.cons_append, List.cons_append, List.intercalate_cons_cons, tail,
            List.intercalate_cons_cons]
          simp

theorem intercalate_concat (nonempty : segments ≠ []) :
    [sep].intercalate (segments ++ [last]) = [sep].intercalate segments ++ sep :: last := by
  rw [intercalate_append_cons nonempty, List.intercalate_singleton]

/-- The last separator of a key is at one place. -/
theorem append_cons_inj_last {front front' back back' : List α} (flat : sep ∉ back)
    (flat' : sep ∉ back') (same : front ++ sep :: back = front' ++ sep :: back') :
    front = front' ∧ back = back' := by
  rcases List.append_eq_append_iff.mp same with ⟨more, rfl, ends⟩ | ⟨more, rfl, ends⟩
  · cases more with
    | nil => exact ⟨by simp, (List.cons.inj ends).2⟩
    | cons first more =>
        have tail := (List.cons.inj ends).2
        exact absurd (by simp [tail]) flat
  · cases more with
    | nil => exact ⟨by simp, (List.cons.inj ends).2.symm⟩
    | cons first more =>
        have tail := (List.cons.inj ends).2
        exact absurd (by simp [tail]) flat'

theorem map_intercalate (f : α → β) :
    ([sep].intercalate segments).map f = [f sep].intercalate (segments.map (List.map f)) := by
  induction segments with
  | nil => rfl
  | cons first rest ih =>
      cases rest with
      | nil => simp
      | cons second rest =>
          rw [List.intercalate_cons_cons, List.map_append, List.map_append, ih]
          simp only [List.map_cons, List.map_nil, List.intercalate_cons_cons]

theorem length_intercalate (nonempty : segments ≠ []) :
    ([sep].intercalate segments).length + 1 = (segments.map fun segment => segment.length + 1).sum := by
  induction segments with
  | nil => exact absurd rfl nonempty
  | cons first rest ih =>
      cases rest with
      | nil => simp
      | cons second rest =>
          have tail := ih (List.cons_ne_nil _ _)
          rw [List.intercalate_cons_cons, List.map_cons, List.sum_cons, ← tail]
          simp
          omega

theorem mem_intercalate_iff {c : α} (other : c ≠ sep) :
    c ∈ [sep].intercalate segments ↔ ∃ segment ∈ segments, c ∈ segment := by
  induction segments with
  | nil => simp
  | cons first rest ih =>
      cases rest with
      | nil => simp
      | cons second rest =>
          rw [List.intercalate_cons_cons, List.mem_append, List.mem_append, ih]
          simp [other]

/-- What a key is cut into holds no separator. -/
theorem flat_of_mem_splitOn [BEq α] [LawfulBEq α] {part : List α} (mem : part ∈ key.splitOn sep) : sep ∉ part := by
  induction key generalizing part with
  | nil =>
      rw [List.splitOn_nil, List.mem_singleton] at mem
      rw [mem]
      exact List.not_mem_nil
  | cons c key ih =>
      rw [List.splitOn_cons_eq_if_modifyHead] at mem
      split at mem
      · rcases List.mem_cons.mp mem with rfl | later
        · exact List.not_mem_nil
        · exact ih later
      · rename_i plain
        rw [beq_iff_eq] at plain
        cases cut : key.splitOn sep with
        | nil => exact absurd cut (List.splitOn_ne_nil sep key)
        | cons first parts =>
            rw [cut] at mem ih
            rcases List.mem_cons.mp mem with rfl | later
            · rw [List.mem_cons, not_or]
              exact ⟨fun same => plain same.symm, ih List.mem_cons_self⟩
            · exact ih (List.mem_cons_of_mem _ later)

end Joined

/-! ### Cut at one separator -/

section Cut

variable [DecidableEq α]

/-- What stands before the first separator and after it. -/
def splitOnce (sep : α) : List α → Option (List α × List α)
  | [] => none
  | c :: rest =>
      if c = sep then some ([], rest) else (splitOnce sep rest).map fun (head, tail) => (c :: head, tail)

/-- What stands before the last separator and after it. -/
def rsplitOnce (sep : α) (key : List α) : Option (List α × List α) :=
  (splitOnce sep key.reverse).map fun (tail, head) => (head.reverse, tail.reverse)

variable {front back : List α}

theorem splitOnce_eq_some (cut : splitOnce sep key = some (front, back)) :
    key = front ++ sep :: back ∧ sep ∉ front := by
  induction key generalizing front with
  | nil => cases cut
  | cons c rest ih =>
      rw [splitOnce] at cut
      split at cut
      · rename_i same
        cases cut
        exact ⟨same ▸ rfl, by simp⟩
      · rename_i other
        rw [Option.map_eq_some_iff] at cut
        obtain ⟨⟨head, tail⟩, cut, same⟩ := cut
        cases same
        obtain ⟨rfl, clear⟩ := ih cut
        exact ⟨rfl, by simp [Ne.symm other, clear]⟩

theorem splitOnce_eq_none (clear : sep ∉ key) : splitOnce sep key = none := by
  induction key with
  | nil => rfl
  | cons c rest ih =>
      have other : c ≠ sep := fun same => clear (same ▸ List.mem_cons_self)
      rw [splitOnce, if_neg other, ih fun mem => clear (List.mem_cons_of_mem _ mem)]
      rfl

theorem splitOnce_append (flat : sep ∉ front) : splitOnce sep (front ++ sep :: back) = some (front, back) := by
  induction front with
  | nil => rw [List.nil_append, splitOnce, if_pos rfl]
  | cons c front ih =>
      have other : c ≠ sep := fun same => flat (same ▸ List.mem_cons_self)
      rw [List.cons_append, splitOnce, if_neg other, ih fun mem => flat (List.mem_cons_of_mem _ mem)]
      rfl

theorem rsplitOnce_append (flat : sep ∉ back) : rsplitOnce sep (front ++ sep :: back) = some (front, back) := by
  have reversed : (front ++ sep :: back).reverse = back.reverse ++ sep :: front.reverse := by simp
  rw [rsplitOnce, reversed, splitOnce_append (by simpa using flat)]
  simp

theorem rsplitOnce_eq_some (cut : rsplitOnce sep key = some (front, back)) :
    key = front ++ sep :: back ∧ sep ∉ back := by
  rw [rsplitOnce, Option.map_eq_some_iff] at cut
  obtain ⟨⟨tail, head⟩, cut, same⟩ := cut
  cases same
  obtain ⟨reversed, clear⟩ := splitOnce_eq_some cut
  have whole := congrArg List.reverse reversed
  simp only [List.reverse_reverse, List.reverse_append, List.reverse_cons, List.append_assoc] at whole
  exact ⟨whole, by simpa using clear⟩

end Cut

end OpenCargo.Lib
