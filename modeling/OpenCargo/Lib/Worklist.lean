/-
Module: OpenCargo.Lib.Worklist
Purpose: Walks over a forest that is kept as a list of things still to visit, in whatever order those are
  taken; and the forest that a list of paths is, whose inner nodes are what the paths begin with.
Trusted boundary: none
Main exports: mem_childrenOf, sum_childrenOf, below, sum_below_childrenOf
-/
import Mathlib.Algebra.BigOperators.Group.List.Basic
import Mathlib.Algebra.Order.BigOperators.Group.List
import Mathlib.Data.List.Dedup
import Mathlib.Tactic.Linarith

namespace OpenCargo.Lib

/-! ### The walk -/

section Explore

variable {α β : Type*}

/-- One thing is taken off the list at a time: what it yields is kept, and what it leads to is added. -/
def explore (add : List α → List α → List α) (expand : α → List α) (emit : α → List β) :
    Nat → List α → List β
  | 0, _ => []
  | _, [] => []
  | fuel + 1, a :: rest => emit a ++ explore add expand emit fuel (add rest (expand a))

variable {add : List α → List α → List α} {expand : α → List α} {emit : α → List β}

/-- What a walk yields, something it comes to does. -/
theorem exists_of_mem_explore {P : α → Prop} {b : β} {fuel : Nat} {queue : List α}
    (adds : ∀ rest new, (add rest new).Perm (rest ++ new)) (keeps : ∀ a, P a → ∀ c ∈ expand a, P c)
    (start : ∀ a ∈ queue, P a) (mem : b ∈ explore add expand emit fuel queue) : ∃ a, P a ∧ b ∈ emit a := by
  induction fuel generalizing queue with
  | zero => cases mem
  | succ fuel ih =>
      cases queue with
      | nil => cases mem
      | cons a rest =>
          have first := start a List.mem_cons_self
          rcases List.mem_append.mp mem with here | later
          · exact ⟨a, first, here⟩
          · refine ih (fun c queued => ?_) later
            rcases List.mem_append.mp ((adds rest (expand a)).mem_iff.mp queued) with old | new
            · exact start c (List.mem_cons_of_mem _ old)
            · exact keeps a first c new

/-- Where what a thing leads to weighs less than it does, the walk comes to its end, and yields of each `b` what
was there to be found below the things it began with. -/
theorem count_explore [BEq β] (weight tally : α → Nat) (b : β)
    (adds : ∀ rest new, (add rest new).Perm (rest ++ new))
    (lighter : ∀ a, ((expand a).map weight).sum < weight a)
    (tallies : ∀ a, (emit a).count b + ((expand a).map tally).sum = tally a)
    {fuel : Nat} {queue : List α} (enough : (queue.map weight).sum ≤ fuel) :
    (explore add expand emit fuel queue).count b = (queue.map tally).sum := by
  induction fuel generalizing queue with
  | zero =>
      cases queue with
      | nil => rfl
      | cons a rest =>
          have less := lighter a
          rw [List.map_cons, List.sum_cons] at enough
          omega
  | succ fuel ih =>
      cases queue with
      | nil => rfl
      | cons a rest =>
          have less := lighter a
          have found := tallies a
          have sums (f : α → Nat) : ((add rest (expand a)).map f).sum = (rest.map f).sum + ((expand a).map f).sum := by
            rw [((adds rest (expand a)).map f).sum_eq, List.map_append, List.sum_append]
          rw [List.map_cons, List.sum_cons] at enough
          rw [explore, List.count_append, ih (by rw [sums]; omega), sums, List.map_cons, List.sum_cons]
          omega

end Explore

/-! ### Paths -/

section Paths

variable {κ : Type*} [DecidableEq κ] {paths : List (List κ)} {dir p : List κ}

/-- The name under `dir` that the path goes through. -/
def nextName (dir p : List κ) : Option κ := if dir <+: p then p[dir.length]? else none

/-- The names of what stands in `dir`, each once. -/
def childrenOf (paths : List (List κ)) (dir : List κ) : List κ := (paths.filterMap (nextName dir)).dedup

theorem nextName_eq_some_iff {c : κ} : nextName dir p = some c ↔ dir ++ [c] <+: p := by
  rw [nextName]
  constructor
  · intro next
    split at next
    · rename_i starts
      obtain ⟨rest, rfl⟩ := starts
      rw [List.getElem?_append_right (Nat.le_refl _), Nat.sub_self] at next
      cases rest with
      | nil => cases next
      | cons first rest =>
          cases next
          exact ⟨rest, by simp⟩
    · cases next
  · rintro ⟨rest, rfl⟩
    rw [if_pos ⟨c :: rest, by simp⟩, List.append_assoc, List.getElem?_append_right (Nat.le_refl _), Nat.sub_self]
    rfl

theorem mem_childrenOf {c : κ} : c ∈ childrenOf paths dir ↔ ∃ p ∈ paths, dir ++ [c] <+: p := by
  rw [childrenOf, List.mem_dedup, List.mem_filterMap]
  exact exists_congr fun p => and_congr_right fun _ => nextName_eq_some_iff

omit [DecidableEq κ] in
theorem exists_child (starts : dir <+: p) (other : p ≠ dir) : ∃ c, dir ++ [c] <+: p := by
  obtain ⟨rest, rfl⟩ := starts
  cases rest with
  | nil => exact absurd (List.append_nil dir) other
  | cons c rest => exact ⟨c, rest, by simp⟩

theorem child_unique {c d : κ} (one : dir ++ [c] <+: p) (two : dir ++ [d] <+: p) : c = d := by
  have same := (nextName_eq_some_iff.mpr one).symm.trans (nextName_eq_some_iff.mpr two)
  exact Option.some.inj same

theorem sum_map_single {c : κ} {names : List κ} (unique : names.Nodup) (mem : c ∈ names) (v : Nat) :
    (names.map fun d => if d = c then v else 0).sum = v := by
  induction names with
  | nil => cases mem
  | cons d names ih =>
      obtain ⟨new, unique⟩ := List.nodup_cons.mp unique
      rw [List.map_cons, List.sum_cons]
      by_cases same : d = c
      · subst same
        rw [if_pos rfl]
        have none_ : (names.map fun e => if e = d then v else 0).sum = 0 := by
          refine List.sum_eq_zero fun n found => ?_
          obtain ⟨e, mem, rfl⟩ := List.mem_map.mp found
          exact if_neg fun same : e = d => new (same ▸ mem)
        omega
      · rw [if_neg same, ih unique ((List.mem_cons.mp mem).resolve_left (Ne.symm same)), Nat.zero_add]

/-- A path that goes on below `dir` goes through one child of it. -/
theorem sum_childrenOf (mem : p ∈ paths) (other : p ≠ dir) (v : Nat) :
    ((childrenOf paths dir).map fun c => if dir ++ [c] <+: p then v else 0).sum =
      if dir <+: p then v else 0 := by
  by_cases starts : dir <+: p
  · obtain ⟨c, through⟩ := exists_child starts other
    have same : (fun d => if dir ++ [d] <+: p then v else 0) = fun d => if d = c then v else 0 := by
      funext d
      refine if_congr ⟨fun one => child_unique one through, ?_⟩ rfl rfl
      rintro rfl
      exact through
    rw [if_pos starts, same]
    exact sum_map_single (List.nodup_dedup _) (mem_childrenOf.mpr ⟨p, mem, through⟩) v
  · rw [if_neg starts]
    refine List.sum_eq_zero fun n found => ?_
    obtain ⟨c, _, rfl⟩ := List.mem_map.mp found
    exact if_neg fun through => starts ((List.prefix_append dir [c]).trans through)

/-- How far the paths below `dir` go on, and one more. -/
def below (paths : List (List κ)) (dir : List κ) : Nat :=
  1 + (paths.map fun p => if dir <+: p then p.length - dir.length else 0).sum

omit [DecidableEq κ] in
theorem sum_swap (names : List κ) (f : κ → List κ → Nat) :
    (names.map fun c => (paths.map (f c)).sum).sum = (paths.map fun p => (names.map fun c => f c p).sum).sum := by
  induction paths with
  | nil => simp
  | cons p paths ih =>
      simp only [List.map_cons, List.sum_cons]
      rw [List.sum_map_add, ih]

/-- There are no more children than paths that go on. -/
theorem length_childrenOf_le (paths : List (List κ)) (dir : List κ) :
    (childrenOf paths dir).length ≤ (paths.map fun p => if (nextName dir p).isSome then 1 else 0).sum := by
  refine (List.dedup_sublist _).length_le.trans (Nat.le_of_eq ?_)
  induction paths with
  | nil => rfl
  | cons p paths ih =>
      rw [List.map_cons, List.sum_cons]
      cases next : nextName dir p with
      | none => simpa [next] using ih
      | some c => simp [next, ih]; omega

/-- The children are nearer to the ends of the paths. -/
theorem sum_below_childrenOf :
    ((childrenOf paths dir).map fun c => below paths (dir ++ [c])).sum < below paths dir := by
  have split : ((childrenOf paths dir).map fun c => below paths (dir ++ [c])).sum =
      (childrenOf paths dir).length + (paths.map fun p =>
        ((childrenOf paths dir).map fun c => if dir ++ [c] <+: p then p.length - (dir ++ [c]).length else 0).sum).sum := by
    simp only [below]
    rw [List.sum_map_add, sum_swap]
    simp
  have each : ∀ p ∈ paths, (if (nextName dir p).isSome then 1 else 0) +
      ((childrenOf paths dir).map fun c => if dir ++ [c] <+: p then p.length - (dir ++ [c]).length else 0).sum ≤
        if dir <+: p then p.length - dir.length else 0 := by
    intro p mem
    have equal : (fun c => if dir ++ [c] <+: p then p.length - (dir ++ [c]).length else 0) =
        fun c => if dir ++ [c] <+: p then p.length - (dir.length + 1) else 0 := by
      funext c
      rw [List.length_append, List.length_singleton]
    rw [equal]
    by_cases same : p = dir
    · subst same
      have none_ : nextName p p = none := by simp [nextName]
      have nothing : ∀ n ∈ (childrenOf paths p).map fun c => if p ++ [c] <+: p then p.length - (p.length + 1) else 0,
          n = 0 := by
        intro n found
        obtain ⟨c, _, rfl⟩ := List.mem_map.mp found
        split <;> omega
      rw [none_, List.sum_eq_zero nothing]
      exact Nat.zero_le _
    · rw [sum_childrenOf mem same]
      by_cases starts : dir <+: p
      · obtain ⟨c, through⟩ := exists_child starts same
        have longer := through.length_le
        rw [List.length_append, List.length_singleton] at longer
        rw [if_pos starts, if_pos starts, nextName_eq_some_iff.mpr through]
        simp only [Option.isSome_some, if_true]
        omega
      · have none_ : nextName dir p = none := if_neg starts
        rw [if_neg starts, if_neg starts, none_]
        exact Nat.le_refl _
  have all := List.sum_le_sum each
  rw [List.sum_map_add] at all
  rw [split, below]
  have few := length_childrenOf_le paths dir
  omega

end Paths

end OpenCargo.Lib
