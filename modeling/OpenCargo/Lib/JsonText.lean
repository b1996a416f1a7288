/-
Module: OpenCargo.Lib.JsonText
Purpose: JSON texts at their tokens, read into a value and written from one: what was read is in order, and a value
  in order is read back as it was written.
Trusted boundary: how numbers and strings are spelled
Main exports: tree_object, inOrder_of_tree, PrintsBack, tree_write
-/
import OpenCargo.Lib.Fallible
import OpenCargo.Lib.Numerals
import OpenCargo.Lib.Sorted

namespace OpenCargo.Lib.JsonText

/-! ### JSON texts -/

/-- A JSON text at its tokens, blanks left out: numbers, strings and keys as they are spelled. -/
inductive Raw where
  | null
  | bool (b : Bool)
  | number (spelled : List Char)
  | string (spelled : List Char)
  | array (items : List Raw)
  | object (members : List (List Char × Raw))
deriving Inhabited

/-- How numbers and strings are read, a number as it is printed, and how strings are printed. -/
structure Spelling where
  number : List Char → Option (List Char)
  string : List Char → Option (List Char)
  quote : List Char → List Char
  string_quote : ∀ text, string (quote text) = some text
  number_u64 : ∀ n < 2 ^ 64, number (Nat.toDigits 10 n) = some (Nat.toDigits 10 n)

section Texts

variable (lib : Spelling)

mutual

/-- `from_str::<Value>`: the last of a key stays, and a map is in the order of its keys. -/
def tree : Raw → Option Json
  | .null => some .null
  | .bool b => some (.bool b)
  | .number spelled => (lib.number spelled).map .number
  | .string spelled => (lib.string spelled).map .string
  | .array items => (treeItems items).map .array
  | .object members => (treeMembers members).map fun members => .object (ofMembers members)

def treeItems : List Raw → Option (List Json)
  | [] => some []
  | item :: items => do
      let item ← tree item
      let items ← treeItems items
      pure (item :: items)

def treeMembers : List (List Char × Raw) → Option (List (List Char × Json))
  | [] => some []
  | (key, value) :: members => do
      let key ← lib.string key
      let value ← tree value
      let members ← treeMembers members
      pure ((key, value) :: members)

end

mutual

/-- `to_writer`. -/
def write : Json → Raw
  | .null => .null
  | .bool b => .bool b
  | .number text => .number text
  | .string text => .string (lib.quote text)
  | .array items => .array (writeItems items)
  | .object members => .object (writeMembers members)

def writeItems : List Json → List Raw
  | [] => []
  | item :: items => write item :: writeItems items

def writeMembers : List (List Char × Json) → List (List Char × Raw)
  | [] => []
  | (key, value) :: members => (lib.quote key, write value) :: writeMembers members

end

end Texts

/-! ### Reading what was written -/

/-- What holds of a text holds by what it is made of. -/
theorem Raw.induction {P : Raw → Prop} (null : P .null) (bool : ∀ b, P (.bool b))
    (number : ∀ text, P (.number text)) (string : ∀ text, P (.string text))
    (array : ∀ items, (∀ item ∈ items, P item) → P (.array items))
    (object : ∀ members : List (List Char × Raw), (∀ m ∈ members, P m.2) → P (.object members)) (raw : Raw) :
    P raw :=
  @Raw.rec P (fun items => ∀ item ∈ items, P item) (fun members => ∀ m ∈ members, P m.2) (fun m => P m.2)
    null bool number string array object (fun _ mem => absurd mem List.not_mem_nil)
    (fun _ _ first rest => List.forall_mem_cons.mpr ⟨first, rest⟩) (fun _ mem => absurd mem List.not_mem_nil)
    (fun _ _ first rest => List.forall_mem_cons.mpr ⟨first, rest⟩) (fun _ _ value => value) raw

section Reading

variable {lib : Spelling} {raw : Raw} {j : Json} {items : List Raw} {values : List Json}
  {members : List (List Char × Raw)} {map : List (List Char × Json)}

/-- A member as it is read. -/
def ReadsAs (lib : Spelling) (m : List Char × Raw) (n : List Char × Json) : Prop :=
  lib.string m.1 = some n.1 ∧ tree lib m.2 = some n.2

theorem treeItems_eq_some_iff :
    treeItems lib items = some values ↔
      List.Forall₂ (fun item value => tree lib item = some value) items values := by
  have each : treeItems lib items = items.mapM (tree lib) := by
    induction items with
    | nil => rfl
    | cons item items ih => rw [treeItems, List.mapM_cons, ih]
  rw [each, mapM_eq_some_iff]

theorem treeMembers_eq_some_iff :
    treeMembers lib members = some map ↔ List.Forall₂ (ReadsAs lib) members map := by
  induction members generalizing map with
  | nil => simp [treeMembers, eq_comm]
  | cons m members ih =>
      obtain ⟨key, value⟩ := m
      simp only [treeMembers, Option.bind_eq_bind, Option.bind_eq_some_iff, List.forall₂_cons_left_iff, ← ih]
      constructor
      · rintro ⟨key', first, value', second, map', rest, same⟩
        exact ⟨(key', value'), map', ⟨first, second⟩, rest, (Option.some.inj same).symm⟩
      · rintro ⟨⟨key', value'⟩, map', ⟨first, second⟩, rest, rfl⟩
        exact ⟨key', first, value', second, map', rest, rfl⟩

theorem writeItems_eq : writeItems lib values = values.map (write lib) := by
  induction values with
  | nil => rfl
  | cons value values ih => rw [writeItems, List.map_cons, ih]

theorem writeMembers_eq : writeMembers lib map = map.map fun m => (lib.quote m.1, write lib m.2) := by
  induction map with
  | nil => rfl
  | cons m map ih => rw [writeMembers, List.map_cons, ih]

/-- Members in the order of their keys are read as they stand. -/
theorem tree_object (read : List.Forall₂ (ReadsAs lib) members map) (sorted : KeysAscend map) :
    tree lib (.object members) = some (.object map) := by
  rw [tree, treeMembers_eq_some_iff.mpr read, Option.map_some, ofMembers_of_ascending sorted]

/-- What is read is in order. -/
theorem inOrder_of_tree (read : tree lib raw = some j) : j.Everywhere Json.InOrder := by
  induction raw using Raw.induction generalizing j with
  | null | bool b =>
      obtain rfl := Option.some.inj read
      exact .leaf (fun _ same => by cases same) rfl
  | number text | string text =>
      rw [tree, Option.map_eq_some_iff] at read
      obtain ⟨_, _, rfl⟩ := read
      exact .leaf (fun _ same => by cases same) rfl
  | array items ih =>
      rw [tree, Option.map_eq_some_iff] at read
      obtain ⟨values, each, rfl⟩ := read
      refine .intro _ (fun _ same => by cases same) fun child mem => ?_
      obtain ⟨item, listed, reads⟩ := exists_of_mem_right (treeItems_eq_some_iff.mp each) mem
      exact ih item listed reads
  | object members ih =>
      rw [tree, Option.map_eq_some_iff] at read
      obtain ⟨map, each, rfl⟩ := read
      refine .intro _ (fun members' same => ?_) fun child mem => ?_
      · obtain rfl := Json.object.inj same
        exact ascending_ofMembers map
      · obtain ⟨n, kept, rfl⟩ := List.mem_map.mp mem
        obtain ⟨m, listed, reads⟩ := exists_of_mem_right (treeMembers_eq_some_iff.mp each) (mem_ofMembers kept)
        exact ih m listed reads.2

/-- A number that is read as it is printed. -/
def PrintsBack (lib : Spelling) (j : Json) : Prop := ∀ text, j = .number text → lib.number text = some text

/-- A tree in order is read back as it was written, if its numbers are. -/
theorem tree_write (sound : j.Everywhere fun j => j.InOrder ∧ PrintsBack lib j) :
    tree lib (write lib j) = some j := by
  induction sound with
  | intro j here _ ih =>
      cases j with
      | null => rfl
      | bool b => rfl
      | number text => rw [write, tree, here.2 text rfl, Option.map_some]
      | string text => rw [write, tree, lib.string_quote, Option.map_some]
      | array items =>
          have each : treeItems lib (items.map (write lib)) = some items := by
            rw [treeItems_eq_some_iff, List.forall₂_map_left_iff, List.forall₂_same]
            exact ih
          rw [write, tree, writeItems_eq, each, Option.map_some]
      | object members =>
          rw [write, writeMembers_eq]
          refine tree_object ?_ (here.1 members rfl)
          rw [List.forall₂_map_left_iff, List.forall₂_same]
          exact fun m mem => ⟨lib.string_quote m.1, ih m.2 (List.mem_map_of_mem mem)⟩

end Reading

/-- Whole numbers, and texts none of whose letters is escaped. -/
def bare : Spelling where
  number text := if text.all Char.isDigit then some text else none
  string spelled := some spelled.tail.dropLast
  quote text := '"' :: (text ++ ['"'])
  string_quote text := by rw [List.tail_cons, List.dropLast_concat]
  number_u64 n _ := if_pos (List.all_eq_true.mpr fun _ mem => digit_of_mem_toDigits mem)

/-- A text as `bare` spells it. -/
def spelled (text : String) : List Char := bare.quote text.toList

end OpenCargo.Lib.JsonText
