/-
Module: OpenCargo.Lib.Sorted
Purpose: Maps as lists of members in ascending keys: a member is put in its place, over the one of its key, and
  related members make related maps; JSON values whose objects are such maps.
Trusted boundary: none
Main exports: ofMembers_pairs, ascending_setAt, Json.Everywhere, Json.InOrder
-/
import Mathlib
import OpenCargo.Lib.Entries

namespace OpenCargo.Lib

section Places

variable {κ α : Type*} [Preorder κ] {k : κ} {a : α} {map : List (κ × α)}

def KeysAscend (map : List (κ × α)) : Prop := map.Pairwise fun m n => m.1 < n.1

/-- A member that is there is set in its place. -/
theorem ascending_setAt [DecidableEq κ] (there : (valueAt k map).isSome) (sorted : KeysAscend map) :
    KeysAscend (setAt k a map) := by
  obtain ⟨held, found⟩ := Option.isSome_iff_exists.mp there
  rw [valueAt, Option.map_eq_some_iff] at found
  obtain ⟨old, found, _⟩ := found
  have listed : map.any (fun row => row.1 = k) = true :=
    List.any_eq_true.mpr ⟨old, List.mem_of_find?_eq_some found, by simpa using List.find?_some found⟩
  rw [setAt, upsert, if_pos listed, updateAt]
  refine List.pairwise_map.mpr (sorted.imp fun {m n} less => ?_)
  by_cases first : m.1 = k
  · by_cases second : n.1 = k
    · exact absurd less (by rw [first, second]; exact lt_irrefl k)
    · rw [if_pos first, if_neg second, ← first]
      exact less
  · by_cases second : n.1 = k
    · rw [if_neg first, if_pos second, ← second]
      exact less
    · rw [if_neg first, if_neg second]
      exact less

end Places

variable {κ α β : Type*} [LinearOrder κ] {k : κ} {a : α} {m : κ × α} {map members : List (κ × α)}

/-- A member in its place. -/
def put (k : κ) (a : α) : List (κ × α) → List (κ × α)
  | [] => [(k, a)]
  | (k', a') :: rest =>
      if k < k' then (k, a) :: (k', a') :: rest
      else if k = k' then (k, a) :: rest
      else (k', a') :: put k a rest

/-- The members put one after the other: the last of a key stays. -/
def ofMembers (members : List (κ × α)) : List (κ × α) := members.foldl (fun map m => put m.1 m.2 map) []

theorem mem_put (mem : m ∈ put k a map) : m = (k, a) ∨ m ∈ map := by
  induction map with
  | nil => exact .inl (List.mem_singleton.mp mem)
  | cons n map ih =>
      rw [put] at mem
      split_ifs at mem
      · exact List.mem_cons.mp mem
      · exact (List.mem_cons.mp mem).imp_right (List.mem_cons_of_mem _)
      · rcases List.mem_cons.mp mem with rfl | mem
        · exact .inr List.mem_cons_self
        · exact (ih mem).imp_right (List.mem_cons_of_mem _)

theorem ascending_put (sorted : KeysAscend map) : KeysAscend (put k a map) := by
  induction map with
  | nil => exact List.pairwise_singleton _ _
  | cons n map ih =>
      obtain ⟨first, rest⟩ := List.pairwise_cons.mp sorted
      rw [put]
      split_ifs with less same
      · refine List.pairwise_cons.mpr ⟨fun m mem => ?_, sorted⟩
        rcases List.mem_cons.mp mem with rfl | mem
        · exact less
        · exact less.trans (first m mem)
      · subst same
        exact List.pairwise_cons.mpr ⟨first, rest⟩
      · refine List.pairwise_cons.mpr ⟨fun m mem => ?_, ih rest⟩
        rcases mem_put mem with rfl | mem
        · exact lt_of_le_of_ne (not_lt.mp less) (Ne.symm same)
        · exact first m mem

theorem foldl_put_induction (P : List (κ × α) → Prop) (step : ∀ map, P map → ∀ m ∈ members, P (put m.1 m.2 map))
    (start : P map) : P (members.foldl (fun map m => put m.1 m.2 map) map) := by
  induction members generalizing map with
  | nil => exact start
  | cons m members ih =>
      exact ih (fun map held n mem => step map held n (List.mem_cons_of_mem _ mem))
        (step map start m List.mem_cons_self)

theorem ascending_ofMembers (members : List (κ × α)) : KeysAscend (ofMembers members) :=
  foldl_put_induction KeysAscend (fun _ sorted _ _ => ascending_put sorted) List.Pairwise.nil

theorem mem_ofMembers (mem : m ∈ ofMembers members) : m ∈ members := by
  have inside : ∀ n ∈ ofMembers members, n ∈ members := by
    refine foldl_put_induction (fun map => ∀ n ∈ map, n ∈ members) (fun map held n listed p there => ?_)
      fun n none_ => absurd none_ List.not_mem_nil
    rcases mem_put there with rfl | there
    · exact listed
    · exact held p there
  exact inside m mem

/-- A key after all the others comes last. -/
theorem put_last (after : ∀ m ∈ map, m.1 < k) : put k a map = map ++ [(k, a)] := by
  induction map with
  | nil => rfl
  | cons n map ih =>
      obtain ⟨less, after⟩ := List.forall_mem_cons.mp after
      rw [put, if_neg (not_lt.mpr less.le), if_neg less.ne', ih after, List.cons_append]

/-- What is in ascending keys is a map already. -/
theorem ofMembers_of_ascending (sorted : KeysAscend members) : ofMembers members = members := by
  have onto : ∀ map : List (κ × α), KeysAscend (map ++ members) →
      members.foldl (fun map m => put m.1 m.2 map) map = map ++ members := by
    clear sorted
    induction members with
    | nil => simp
    | cons m members ih =>
        intro map sorted
        have after : ∀ n ∈ map, n.1 < m.1 := fun n mem =>
          (List.pairwise_append.mp sorted).2.2 n mem m List.mem_cons_self
        rw [List.foldl_cons, put_last after, ih (map ++ [m]) (by simpa using sorted)]
        simp
  exact onto [] sorted

section Values

variable {R : α → β → Prop} {b : β} {n : κ × β} {map' members' : List (κ × β)} (f : κ → α → β)

/-- Members of one key, their values related. -/
def Pairs (R : α → β → Prop) (m : κ × α) (n : κ × β) : Prop := m.1 = n.1 ∧ R m.2 n.2

theorem put_pairs (value : R a b) (held : List.Forall₂ (Pairs R) map map') :
    List.Forall₂ (Pairs R) (put k a map) (put k b map') := by
  induction held with
  | nil => exact .cons ⟨rfl, value⟩ .nil
  | @cons m n map map' pair held ih =>
      obtain ⟨key, a'⟩ := m
      obtain ⟨key', b'⟩ := n
      have same : key = key' := pair.1
      subst same
      rw [put, put]
      split_ifs
      · exact .cons ⟨rfl, value⟩ (.cons pair held)
      · exact .cons ⟨rfl, value⟩ held
      · exact .cons pair ih

/-- Related members make related maps. -/
theorem ofMembers_pairs (held : List.Forall₂ (Pairs R) members members') :
    List.Forall₂ (Pairs R) (ofMembers members) (ofMembers members') := by
  have onto : ∀ (map : List (κ × α)) (map' : List (κ × β)), List.Forall₂ (Pairs R) map map' →
      List.Forall₂ (Pairs R) (members.foldl (fun map m => put m.1 m.2 map) map)
        (members'.foldl (fun map m => put m.1 m.2 map) map') := by
    induction held with
    | nil => exact fun map map' made => made
    | @cons m n members members' pair _ ih =>
        intro map map' made
        rw [List.foldl_cons, List.foldl_cons]
        refine ih _ _ ?_
        rw [← pair.1]
        exact put_pairs pair.2 made
  exact onto [] [] .nil

/-- A value is changed in its place. -/
def onValue (m : κ × α) : κ × β := (m.1, f m.1 m.2)

theorem ascending_map (sorted : KeysAscend members) : KeysAscend (members.map (onValue f)) :=
  List.pairwise_map.mpr sorted

end Values

/-! ### JSON -/

namespace Json

/-- The values right inside one. -/
def children : Json → List Json
  | array items => items
  | object members => members.map Prod.snd
  | _ => []

/-- What holds of a value and of every value inside it. -/
inductive Everywhere (P : Json → Prop) : Json → Prop
  | intro (j : Json) : P j → (∀ child ∈ j.children, Everywhere P child) → Everywhere P j

/-- An object is a map. -/
def InOrder (j : Json) : Prop := ∀ members, j = object members → KeysAscend members

variable {P Q : Json → Prop} {j value : Json} {name : List Char}

theorem Everywhere.here (holds : Everywhere P j) : P j := by
  obtain ⟨_, here, _⟩ := holds
  exact here

theorem Everywhere.leaf (here : P j) (alone : j.children = []) : Everywhere P j :=
  .intro j here fun child mem => by
    rw [alone] at mem
    cases mem

theorem Everywhere.inside (holds : Everywhere P j) : ∀ child ∈ j.children, Everywhere P child := by
  obtain ⟨_, _, inside⟩ := holds
  exact inside

theorem Everywhere.and (left : Everywhere P j) (right : Everywhere Q j) : Everywhere (fun j => P j ∧ Q j) j := by
  induction left with
  | intro j here _ ih => exact .intro j ⟨here, right.here⟩ fun child mem => ih child mem (right.inside child mem)

theorem Everywhere.get (holds : Everywhere P j) (there : j.get name = some value) : Everywhere P value := by
  cases j with
  | object members =>
      obtain ⟨⟨key, value'⟩, found, rfl⟩ := Option.map_eq_some_iff.mp there
      exact holds.inside _ (List.mem_map_of_mem (List.mem_of_find?_eq_some found))
  | null => cases there
  | bool _ => cases there
  | number _ => cases there
  | string _ => cases there
  | array _ => cases there

/-- A member that is there is set to what holds. -/
theorem Everywhere.insert (holds : Everywhere InOrder j) (there : (j.get name).isSome)
    (new : Everywhere InOrder value) : Everywhere InOrder (j.insert name value) := by
  cases j with
  | object members =>
      refine .intro _ (fun members' same => ?_) fun child mem => ?_
      · obtain rfl := object.inj same
        exact @ascending_setAt _ _ _ name value members _ there (holds.here members rfl)
      · obtain ⟨m, listed, rfl⟩ := List.mem_map.mp mem
        rcases (@mem_upsert_over _ _ _ Prod.fst members (name, value) m).mp listed with rfl | ⟨old, _⟩
        · exact new
        · exact holds.inside _ (List.mem_map_of_mem old)
  | null => cases there
  | bool _ => cases there
  | number _ => cases there
  | string _ => cases there
  | array _ => cases there

end Json

end OpenCargo.Lib
