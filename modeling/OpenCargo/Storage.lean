/-
Module: OpenCargo.Storage
Purpose: The artifact store as the use cases see it (`storage/mod.rs`): objects by key, whatever their
  bodies are, written, deleted and listed.
Trusted boundary: none
Main exports: Objects.get, Objects.delete, Objects.list, Objects.gather
-/
import OpenCargo.Layout

namespace OpenCargo

/-- The bytes of an object. -/
abbrev Bytes := List UInt8

/-- The objects of a store, by key. -/
abbrev Objects (β : Type) := List (Text × β)

namespace Objects

variable {β : Type}

def put (objects : Objects β) (key : Text) (body : β) : Objects β :=
  (key, body) :: objects.filter fun object => object.1 != key

def get (objects : Objects β) (key : Text) : Option β :=
  (objects.find? fun object => object.1 == key).map Prod.snd

def delete (objects : Objects β) (key : Text) : Objects β :=
  objects.filter fun object => object.1 != key

/-- `delete_batch`. -/
def deleteBatch (objects : Objects β) (keys : List Text) : Objects β :=
  objects.filter fun object => !keys.contains object.1

def keys (objects : Objects β) : List Text := objects.map Prod.fst

/-- The trees a backend keeps for itself, and never lists. -/
def reserved (key : Text) : Bool :=
  let first := (key.splitOn '/').headD []
  first == Keys.scratch || first == Keys.backend

/-- `list`: a prefix that is not a key prefix is refused before any I/O. -/
def list (objects : Objects β) (budget : Nat) (root : Text) : Except StorageError (List Text) := do
  Keys.validatePrefix root budget
  return objects.keys.filter fun key => Keys.under key root && !reserved key

/-- The bodies of some objects, one after the other. -/
def gather (objects : Objects Bytes) : List Text → Option Bytes
  | [] => some []
  | key :: keys => (objects.get key).bind fun body => (gather objects keys).map (body ++ ·)

/-- Write what another object holds, if it is there. -/
def writeFrom (objects : Objects Bytes) (body : Option Bytes) (target : Text) :
    Except StorageError Unit × Objects Bytes :=
  match body with
  | some body => (.ok (), objects.put target body)
  | none => (.error .notFound, objects)

theorem mem_list {objects : Objects β} {budget : Nat} {root key : Text} {found : List Text}
    (listed : objects.list budget root = .ok found) (mem : key ∈ found) :
    key ∈ objects.keys ∧ Keys.under key root = true := by
  unfold list at listed
  cases valid : Keys.validatePrefix root budget with
  | error e => simp [valid, bind, Except.bind] at listed
  | ok _ =>
      simp only [valid, bind, Except.bind, pure, Except.pure, Except.ok.injEq] at listed
      rw [← listed] at mem
      simp only [List.mem_filter, Bool.and_eq_true] at mem
      exact ⟨mem.1, mem.2.1⟩

theorem mem_keys_put {objects : Objects β} {key other : Text} {body : β} :
    other ∈ (objects.put key body).keys ↔ other = key ∨ other ∈ objects.keys := by
  simp only [put, keys, List.map_cons, List.mem_cons, List.mem_map, List.mem_filter, bne_iff_ne]
  constructor
  · rintro (same | ⟨object, ⟨mem, _⟩, rfl⟩)
    · exact .inl same
    · exact .inr ⟨object, mem, rfl⟩
  · rintro (same | ⟨object, mem, rfl⟩)
    · exact .inl same
    · by_cases same : object.1 = key
      · exact .inl same
      · exact .inr ⟨object, ⟨mem, same⟩, rfl⟩

theorem mem_keys_delete {objects : Objects β} {key other : Text} :
    other ∈ (objects.delete key).keys ↔ other ∈ objects.keys ∧ other ≠ key := by
  simp only [delete, keys, List.mem_map, List.mem_filter, bne_iff_ne]
  constructor
  · rintro ⟨object, ⟨mem, apart⟩, rfl⟩
    exact ⟨⟨object, mem, rfl⟩, apart⟩
  · rintro ⟨⟨object, mem, rfl⟩, apart⟩
    exact ⟨object, ⟨mem, apart⟩, rfl⟩

theorem mem_keys_deleteBatch {objects : Objects β} {gone : List Text} {other : Text} :
    other ∈ (objects.deleteBatch gone).keys ↔ other ∈ objects.keys ∧ other ∉ gone := by
  simp only [deleteBatch, keys, List.mem_map, List.mem_filter, Bool.not_eq_true',
    List.contains_eq_mem, decide_eq_false_iff_not]
  constructor
  · rintro ⟨object, ⟨mem, apart⟩, rfl⟩
    exact ⟨⟨object, mem, rfl⟩, apart⟩
  · rintro ⟨⟨object, mem, rfl⟩, apart⟩
    exact ⟨object, ⟨mem, apart⟩, rfl⟩

theorem list_complete {objects : Objects β} {budget : Nat} {root key : Text} {found : List Text}
    (listed : objects.list budget root = .ok found) (there : key ∈ objects.keys)
    (under : Keys.under key root = true) (open_ : reserved key = false) : key ∈ found := by
  unfold list at listed
  cases valid : Keys.validatePrefix root budget with
  | error e => simp [valid, bind, Except.bind] at listed
  | ok _ =>
      simp only [valid, bind, Except.bind, pure, Except.pure, Except.ok.injEq] at listed
      rw [← listed, List.mem_filter]
      exact ⟨there, by simp [under, open_]⟩

/-! ### The object of a key -/

@[simp] theorem get_put_self {objects : Objects β} {key : Text} {body : β} :
    (objects.put key body).get key = some body := by
  simp [put, get]

theorem get_filter {objects : Objects β} {key : Text} (test : Text → Bool)
    (stays : test key = true) :
    get (objects.filter fun object => test object.1) key = objects.get key := by
  unfold get
  rw [List.find?_filter]
  congr 2
  funext object
  by_cases same : object.1 = key
  · simp [same, stays]
  · simp [same]

theorem get_put_ne {objects : Objects β} {key other : Text} {body : β} (apart : other ≠ key) :
    (objects.put key body).get other = objects.get other := by
  have rest : get (objects.filter fun object => object.1 != key) other = objects.get other :=
    get_filter (fun k => k != key) (by simpa using apart)
  rw [← rest]
  simp [put, get, apart.symm]

theorem get_delete_ne {objects : Objects β} {key other : Text} (apart : other ≠ key) :
    (objects.delete key).get other = objects.get other :=
  get_filter (fun k => k != key) (by simpa using apart)

theorem get_deleteBatch {objects : Objects β} {gone : List Text} {other : Text} (apart : other ∉ gone) :
    (objects.deleteBatch gone).get other = objects.get other :=
  get_filter (fun k => !gone.contains k) (by simpa using apart)

theorem mem_keys_iff {objects : Objects β} {key : Text} :
    key ∈ objects.keys ↔ ∃ body, objects.get key = some body := by
  simp only [keys, get, List.mem_map, Option.map_eq_some_iff]
  constructor
  · rintro ⟨object, mem, rfl⟩
    cases found : objects.find? fun other => other.1 == object.1 with
    | none =>
        rw [List.find?_eq_none] at found
        exact absurd (found object mem) (by simp)
    | some other => exact ⟨other.2, other, rfl, rfl⟩
  · rintro ⟨body, object, found, rfl⟩
    exact ⟨object, List.mem_of_find?_eq_some found, by simpa using List.find?_some found⟩

theorem get_eq_none_iff {objects : Objects β} {key : Text} :
    objects.get key = none ↔ key ∉ objects.keys := by
  rw [mem_keys_iff, not_exists, Option.eq_none_iff_forall_ne_some]

theorem get_delete_self {objects : Objects β} {key : Text} : (objects.delete key).get key = none := by
  rw [get_eq_none_iff, mem_keys_delete]
  exact fun both => both.2 rfl

theorem get_deleteBatch_self {objects : Objects β} {gone : List Text} {key : Text}
    (mem : key ∈ gone) : (objects.deleteBatch gone).get key = none := by
  rw [get_eq_none_iff, mem_keys_deleteBatch]
  exact fun both => both.2 mem

end Objects

end OpenCargo
