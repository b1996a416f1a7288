/-
Module: OpenCargo.Backup.Snapshot
Purpose: What a snapshot directory holds of the store (`backup/mod.rs`, `backup/manifest.rs`): the copied objects, a
  line of `keys.sha256` for each, and the restore that reads them back.
Trusted boundary: SHA-256 is a parameter; the filesystem of the snapshot keeps its files, and a name of one is a key
Main exports: prune, Snapshot.Made, restoreStorage_empty, mem_prune_iff
-/
import OpenCargo.Lib.Fallible
import OpenCargo.Lib.Lines
import OpenCargo.Lib.Numerals
import OpenCargo.Lib.Orders
import OpenCargo.Storage

namespace OpenCargo.Backup

open OpenCargo.Lib

/-- The bytes of an object, as many as a `u64` counts. -/
abbrev Body := { bytes : Bytes // bytes.length < 2 ^ 64 }

def hex (bytes : List UInt8) : Text :=
  bytes.flatMap fun b => [Nat.digitChar (b.toNat / 16), Nat.digitChar (b.toNat % 16)]

/-! ### `keys.sha256` -/

structure KeyLine where
  sha256 : Text
  bytes : Nat
  key : Text
deriving Repr, DecidableEq, Inhabited

/-- A line without its end. -/
def KeyLine.text (line : KeyLine) : Text := line.sha256 ++ ' ' :: (Nat.toDigits 10 line.bytes ++ ' ' :: line.key)

def KeyLine.render (line : KeyLine) : Text := line.text ++ ['\n']

/-- `splitn(3, ' ')`: a key keeps its spaces. -/
def KeyLine.parse (line : Text) : Option KeyLine := do
  let (sha256, rest) ← splitOnce ' ' line
  let (bytes, key) ← splitOnce ' ' rest
  let bytes ← parseU64 bytes
  if Keys.byteLength sha256 = 64 ∧ key ≠ [] then some ⟨sha256, bytes, key⟩ else none

/-! ### The directory -/

/-- `object_path`, refusing what would leave the directory. -/
def objectPath (key : Text) : Option Text :=
  if (key.splitOn '/').any (fun s => s.isEmpty || s == ['.'] || s == ['.', '.']) || key.head? == some '/' then none
  else some key

/-- `storage/` by key, and `keys.sha256`. -/
structure Snapshot where
  files : Objects Bytes
  index : Text
deriving Repr, DecidableEq, Inhabited

def Snapshot.empty : Snapshot := ⟨[], []⟩

/-- A file is in the way of a directory, or a directory of a file. -/
def Snapshot.blocked (snap : Snapshot) (key : Text) : Bool :=
  snap.files.keys.any fun other => Layout.sqlWithin key other || Layout.sqlWithin other key

section Sha

variable (sha256 : Bytes → Vector UInt8 32)

def lineOf (key : Text) (bytes : Bytes) : KeyLine := ⟨hex (sha256 bytes).toList, bytes.length, key⟩

/-- One turn of `copy_storage`. -/
def Snapshot.copy (snap : Snapshot) (key : Text) (bytes : Bytes) : Option Snapshot := do
  let key ← objectPath key
  if snap.blocked key then none
  else some ⟨snap.files.put key bytes, snap.index ++ (lineOf sha256 key bytes).render⟩

/-- `key_lines`. -/
def keyLines (index : Text) : Option (List KeyLine) :=
  ((lines index).filter fun l => !l.isEmpty).mapM KeyLine.parse

/-- One object written back, once it is what the index says. `budget` is the store's. -/
def restoreLine (budget : Nat) (snap : Snapshot) (store : Objects Bytes) (line : KeyLine) : Option (Objects Bytes) := do
  let path ← objectPath line.key
  let bytes ← snap.files.get path
  if Keys.validate line.key budget ≠ .ok () then none
  else if hex (sha256 bytes).toList ≠ line.sha256 then none
  else some (store.put line.key bytes)

/-- How many objects were restored, and the store. -/
def restoreStorage (budget : Nat) (snap : Snapshot) (store : Objects Bytes) : Option (Nat × Objects Bytes) := do
  let index ← keyLines snap.index
  let store ← index.foldlM (restoreLine sha256 budget snap) store
  return (index.length, store)

end Sha

/-- Keeps the newest `keep` complete snapshots: what is left of their names. -/
def prune (names : List Text) (keep : Nat) : List Text :=
  (names.mergeSort fun a b => decide (a ≤ b)).drop (names.length - keep)

/-! ### Lines -/

theorem digitChar_plain : ∀ n < 16, Nat.digitChar n ≠ ' ' ∧ Nat.digitChar n ≠ '\n' ∧ Nat.digitChar n ≠ '\r' ∧
    (Nat.digitChar n).utf8Size = 1 := by
  decide

theorem hex_plain {bytes : List UInt8} {c : Char} (mem : c ∈ hex bytes) :
    c ≠ ' ' ∧ c ≠ '\n' ∧ c ≠ '\r' ∧ c.utf8Size = 1 := by
  obtain ⟨b, -, mem⟩ := List.mem_flatMap.mp mem
  have small := b.toNat_lt
  rcases List.mem_cons.mp mem with rfl | last
  · exact digitChar_plain _ (by omega)
  · rw [List.mem_singleton.mp last]
    exact digitChar_plain _ (by omega)

theorem byteLength_hex (bytes : List UInt8) : Keys.byteLength (hex bytes) = 2 * bytes.length := by
  have ones : (hex bytes).map Char.utf8Size = List.replicate (hex bytes).length 1 :=
    List.eq_replicate_iff.mpr ⟨List.length_map _, fun n mem => by
      obtain ⟨c, inside, rfl⟩ := List.mem_map.mp mem
      exact (hex_plain inside).2.2.2⟩
  have long : (hex bytes).length = 2 * bytes.length := by
    rw [hex, List.length_flatMap]
    simp [Nat.mul_comm]
  rw [Keys.byteLength, ones, long]
  simp

theorem plain_of_validate {key : Text} {budget : Nat} (valid : Keys.validate key budget = .ok ()) :
    key ≠ [] ∧ '\n' ∉ key ∧ '\r' ∉ key := by
  rw [Keys.validate] at valid
  split at valid
  · cases valid
  · rename_i some_
    rw [Keys.validatePrefix, if_neg some_] at valid
    split at valid
    · cases valid
    · split at valid
      · cases valid
      · split at valid
        · cases valid
        · rename_i clean
          have clean : ∀ c ∈ key, Keys.refusedChar c = false := by simpa using clean
          refine ⟨by simpa using some_, fun mem => ?_, fun mem => ?_⟩
          · exact absurd (clean _ mem) (by decide)
          · exact absurd (clean _ mem) (by decide)

theorem objectPath_eq_some {key path : Text} (kept : objectPath key = some path) : path = key := by
  rw [objectPath] at kept
  split at kept
  · cases kept
  · exact (Option.some.inj kept).symm

section Sha

variable {sha256 : Bytes → Vector UInt8 32} {key : Text} {bytes : Bytes} {budget : Nat}

theorem digits_plain {n : Nat} {c : Char} (mem : c ∈ Nat.toDigits 10 n) : c ≠ ' ' ∧ c ≠ '\n' ∧ c ≠ '\r' := by
  have digit := digit_of_mem_toDigits mem
  refine ⟨?_, ?_, ?_⟩ <;> rintro rfl <;> revert digit <;> decide

theorem parse_text (some_ : key ≠ []) (short : bytes.length < 2 ^ 64) :
    KeyLine.parse (lineOf sha256 key bytes).text = some (lineOf sha256 key bytes) := by
  have first : ' ' ∉ hex (sha256 bytes).toList := fun mem => (hex_plain mem).1 rfl
  have second : ' ' ∉ Nat.toDigits 10 bytes.length := fun mem => (digits_plain mem).1 rfl
  have long : Keys.byteLength (hex (sha256 bytes).toList) = 64 := by rw [byteLength_hex, Vector.length_toList]
  rw [KeyLine.parse, KeyLine.text, lineOf]
  simp only [splitOnce_append first, splitOnce_append second, parseU64_toDigits short, Option.bind_eq_bind,
    Option.bind_some, long, some_, ne_eq, not_false_eq_true, and_self, if_true]

theorem text_flat (valid : Keys.validate key budget = .ok ()) :
    '\n' ∉ (lineOf sha256 key bytes).text ∧ '\r' ∉ (lineOf sha256 key bytes).text := by
  obtain ⟨-, newline, return_⟩ := plain_of_validate valid
  have hexN : '\n' ∉ hex (sha256 bytes).toList := fun mem => (hex_plain mem).2.1 rfl
  have hexR : '\r' ∉ hex (sha256 bytes).toList := fun mem => (hex_plain mem).2.2.1 rfl
  have digitsN : '\n' ∉ Nat.toDigits 10 bytes.length := fun mem => (digits_plain mem).2.1 rfl
  have digitsR : '\r' ∉ Nat.toDigits 10 bytes.length := fun mem => (digits_plain mem).2.2 rfl
  rw [KeyLine.text, lineOf]
  simp [hexN, hexR, digitsN, digitsR, newline, return_]

/-! ### A snapshot that was made object by object -/

/-- An object's line. -/
def lineFor (sha256 : Bytes → Vector UInt8 32) (object : Text × Bytes) : KeyLine := lineOf sha256 object.1 object.2

structure Snapshot.Made (sha256 : Bytes → Vector UInt8 32) (budget : Nat) (snap : Snapshot) : Prop where
  nodup : snap.files.keys.Nodup
  valid : ∀ object ∈ snap.files, Keys.validate object.1 budget = .ok () ∧ objectPath object.1 = some object.1
  short : ∀ object ∈ snap.files, object.2.length < 2 ^ 64
  index : snap.index = snap.files.reverse.flatMap fun object => (lineFor sha256 object).render

theorem Snapshot.made_empty : Snapshot.empty.Made sha256 budget where
  nodup := .nil
  valid _ mem := absurd mem List.not_mem_nil
  short _ mem := absurd mem List.not_mem_nil
  index := rfl

theorem put_fresh {objects : Objects Bytes} (fresh : key ∉ objects.keys) :
    objects.put key bytes = (key, bytes) :: objects := by
  rw [Objects.put, List.filter_eq_self.mpr]
  intro object mem
  have apart : object.1 ≠ key := fun same => fresh (same ▸ List.mem_map_of_mem mem)
  simpa using apart

theorem get_of_mem {objects : Objects Bytes} (nodup : objects.keys.Nodup) {object : Text × Bytes}
    (mem : object ∈ objects) : objects.get object.1 = some object.2 := by
  obtain ⟨bytes, held⟩ := Objects.mem_keys_iff.mp (List.mem_map_of_mem mem)
  obtain ⟨other, found, rfl⟩ := Option.map_eq_some_iff.mp held
  have same : other = object := List.inj_on_of_nodup_map nodup (List.mem_of_find?_eq_some found) mem
    (by simpa using List.find?_some found)
  rw [held, same]

theorem Snapshot.Made.copy {snap after : Snapshot} (made : snap.Made sha256 budget) (fresh : key ∉ snap.files.keys)
    (valid : Keys.validate key budget = .ok ()) (short : bytes.length < 2 ^ 64)
    (copied : snap.copy sha256 key bytes = some after) :
    after.Made sha256 budget ∧ after.files = (key, bytes) :: snap.files := by
  obtain ⟨path, placed, copied⟩ := Option.bind_eq_some_iff.mp copied
  cases objectPath_eq_some placed
  split at copied
  · cases copied
  · cases copied
    refine ⟨⟨?_, ?_, ?_, ?_⟩, put_fresh fresh⟩
    · rw [put_fresh fresh]
      exact List.nodup_cons.mpr ⟨fresh, made.nodup⟩
    · rw [put_fresh fresh]
      exact List.forall_mem_cons.mpr ⟨⟨valid, placed⟩, made.valid⟩
    · rw [put_fresh fresh]
      exact List.forall_mem_cons.mpr ⟨short, made.short⟩
    · rw [put_fresh fresh, made.index, List.reverse_cons, List.flatMap_append, List.flatMap_singleton]
      rfl

theorem Snapshot.Made.keyLines_index {snap : Snapshot} (made : snap.Made sha256 budget) :
    keyLines snap.index = some (snap.files.reverse.map (lineFor sha256)) := by
  have texts : snap.index = ((snap.files.reverse.map fun object => (lineFor sha256 object).text).flatMap
      (· ++ ['\n'])) := by
    rw [made.index, List.flatMap_map]
    rfl
  have flat : ∀ l ∈ snap.files.reverse.map fun object => (lineFor sha256 object).text, '\n' ∉ l ∧ '\r' ∉ l := by
    intro l mem
    obtain ⟨object, inside, rfl⟩ := List.mem_map.mp mem
    exact text_flat (made.valid object (List.mem_reverse.mp inside)).1
  have some_ : ∀ l ∈ snap.files.reverse.map fun object => (lineFor sha256 object).text, (!l.isEmpty) = true := by
    intro l mem
    obtain ⟨object, -, rfl⟩ := List.mem_map.mp mem
    simp [KeyLine.text]
  rw [keyLines, texts, lines_flatMap (fun l mem => (flat l mem).1) (fun l mem => (flat l mem).2),
    List.filter_eq_self.mpr some_, mapM_eq_some_iff, List.forall₂_map_left_iff, List.forall₂_map_right_iff,
    List.forall₂_same]
  intro object inside
  have mem := List.mem_reverse.mp inside
  exact parse_text (plain_of_validate (made.valid object mem).1).1 (made.short object mem)

/-- Lines of distinct objects of the snapshot, none of which is in the store yet. -/
theorem restore_lines {snap : Snapshot} (made : snap.Made sha256 budget) (todo : List (Text × Bytes))
    (inside : ∀ object ∈ todo, object ∈ snap.files) (store : Objects Bytes)
    (apart : (Objects.keys (todo ++ store)).Nodup) :
    (todo.map (lineFor sha256)).foldlM (restoreLine sha256 budget snap) store = some (todo.reverse ++ store) := by
  induction todo generalizing store with
  | nil => rfl
  | cons object todo ih =>
      have mem := inside object List.mem_cons_self
      obtain ⟨valid, placed⟩ := made.valid object mem
      have held := get_of_mem made.nodup mem
      obtain ⟨fresh, rest⟩ := List.nodup_cons.mp apart
      have new : object.1 ∉ Objects.keys store := by
        intro there
        have fresh : object.1 ∉ (todo ++ store).map Prod.fst := fresh
        rw [List.map_append] at fresh
        exact fresh (List.mem_append_right _ there)
      have line : restoreLine sha256 budget snap store (lineFor sha256 object) = some (object :: store) := by
        simp only [restoreLine, lineFor, lineOf, placed, held, Option.bind_eq_bind, Option.bind_some, valid, ne_eq,
          not_true_eq_false, if_false, put_fresh new]
      rw [List.map_cons, List.foldlM_cons, line, Option.bind_eq_bind, Option.bind_some,
        ih (fun other later => inside other (List.mem_cons_of_mem _ later)), List.reverse_cons, List.append_assoc]
      · rfl
      · exact (List.perm_middle.map Prod.fst).nodup_iff.mpr apart

theorem restoreStorage_empty {snap : Snapshot} (made : snap.Made sha256 budget) :
    restoreStorage sha256 budget snap [] = some (snap.files.length, snap.files) := by
  have back := restore_lines made snap.files.reverse (fun object mem => List.mem_reverse.mp mem) [] (by
    rw [List.append_nil, Objects.keys, List.map_reverse, List.nodup_reverse]
    exact made.nodup)
  simp only [restoreStorage, made.keyLines_index, back, Option.bind_eq_bind, Option.bind_some, List.length_map,
    List.length_reverse, List.reverse_reverse, List.append_nil]
  rfl

end Sha

/-! ### Which snapshots are kept -/

theorem mem_prune_iff {names : List Text} {dir : Text} (nodup : names.Nodup) (mem : dir ∈ names) (keep : Nat) :
    dir ∈ prune names keep ↔ names.countP (fun name => dir < name) < keep := by
  have perm := List.mergeSort_perm names fun a b => decide (a ≤ b)
  have ordered : (names.mergeSort fun a b => decide (a ≤ b)).Pairwise (· ≤ ·) :=
    (List.pairwise_mergeSort (fun a b c one two => by simpa using le_trans (by simpa using one) (by simpa using two))
      (fun a b => by simpa using le_total a b) names).imp fun less => by simpa using less
  have sorted : (names.mergeSort fun a b => decide (a ≤ b)).Pairwise (· < ·) :=
    (ordered.and (perm.nodup_iff.mpr nodup)).imp fun both => lt_of_le_of_ne both.1 both.2
  rw [prune, ← perm.countP_eq, ← perm.length_eq]
  convert mem_drop_sorted sorted (perm.mem_iff.mpr mem) keep

end OpenCargo.Backup
