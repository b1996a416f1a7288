/-
Module: OpenCargo.S3.Cache
Purpose: The positive-existence cache of the S3 backend (`adapters/s3/cache.rs`): the sizes of some
  objects by key, and beside them the keys in the order they came in, of which the oldest goes first.
Trusted boundary: none
Main exports: ExistsCache.get, ExistsCache.fill, ExistsCache.forget, ExistsCache.Ordered
-/
import OpenCargo.Storage

namespace OpenCargo.S3

structure ExistsCache where
  capacity : Nat
  /-- The map, from key to size. -/
  entries : Objects Nat
  /-- The queue. -/
  order : List Text
deriving Repr, DecidableEq, Inhabited

namespace ExistsCache

def new (capacity : Nat) : ExistsCache := ⟨capacity, [], []⟩

def get (cache : ExistsCache) (key : Text) : Option Nat := cache.entries.get key

/-- The loop of `fill`: the oldest go for as long as there are too many. -/
def evict (capacity : Nat) (entries : Objects Nat) : List Text → Objects Nat × List Text
  | [] => (entries, [])
  | oldest :: order =>
      if capacity < entries.length then evict capacity (entries.delete oldest) order
      else (entries, oldest :: order)

def fill (cache : ExistsCache) (key : Text) (size : Nat) : ExistsCache :=
  let order := if cache.get key = none then cache.order ++ [key] else cache.order
  let kept := evict cache.capacity (cache.entries.put key size) order
  { cache with entries := kept.1, order := kept.2 }

def forget (cache : ExistsCache) (key : Text) : ExistsCache :=
  if cache.get key = none then cache
  else
    { cache with
      entries := cache.entries.delete key
      order := cache.order.filter (· != key) }

/-! ### The queue -/

/-- The queue holds exactly the keys of the map, each once, and no more than the capacity. -/
structure Ordered (cache : ExistsCache) : Prop where
  same : cache.order.Perm cache.entries.keys
  once : cache.order.Nodup
  bounded : cache.entries.length ≤ cache.capacity

section Queue

variable {cache : ExistsCache} {key : Text} {size : Nat}

theorem keys_delete {entries : Objects Nat} :
    (entries.delete key).keys = entries.keys.filter (· != key) := by
  rw [Objects.keys, Objects.keys, Objects.delete, List.filter_map]
  rfl

theorem keys_put {entries : Objects Nat} :
    (entries.put key size).keys = key :: entries.keys.filter (· != key) := by
  change key :: (entries.delete key).keys = _
  rw [keys_delete]

/-- The eviction ends with no more than the capacity, for the queue names all there is. -/
theorem evict_ordered (capacity : Nat) {entries : Objects Nat} {order : List Text}
    (same : order.Perm entries.keys) (once : order.Nodup) :
    (evict capacity entries order).2.Perm (evict capacity entries order).1.keys ∧
      (evict capacity entries order).2.Nodup ∧
      (evict capacity entries order).1.length ≤ capacity := by
  induction order generalizing entries with
  | nil =>
      have empty : entries = [] := List.map_eq_nil_iff.mp (List.nil_perm.mp same)
      exact ⟨same, once, by simp [evict, empty]⟩
  | cons oldest order ih =>
      obtain ⟨fresh, rest⟩ := List.nodup_cons.mp once
      rw [evict]
      split
      case isTrue =>
        refine ih ?_ rest
        have left := same.filter (· != oldest)
        rw [← keys_delete, List.filter_cons_of_neg (by simp)] at left
        rwa [List.filter_eq_self.mpr] at left
        intro other mem
        exact bne_iff_ne.mpr fun here => fresh (here ▸ mem)
      case isFalse fits => exact ⟨same, once, Nat.le_of_not_lt fits⟩

theorem Ordered.new (capacity : Nat) : (new capacity).Ordered :=
  ⟨.refl _, .nil, Nat.zero_le _⟩

theorem Ordered.fill (ordered : cache.Ordered) : (cache.fill key size).Ordered := by
  have grown : (if cache.get key = none then cache.order ++ [key] else cache.order).Perm
      (cache.entries.put key size).keys ∧
      (if cache.get key = none then cache.order ++ [key] else cache.order).Nodup := by
    have known : cache.get key = none ↔ key ∉ cache.order := by
      rw [ordered.same.mem_iff]
      exact Objects.get_eq_none_iff
    rw [keys_put]
    split
    case isTrue absent =>
      have new := known.mp absent
      have rest : cache.entries.keys.filter (· != key) = cache.entries.keys := by
        rw [List.filter_eq_self]
        intro other mem
        exact bne_iff_ne.mpr fun here => new (ordered.same.mem_iff.mpr (here ▸ mem))
      rw [rest]
      exact ⟨(List.perm_append_singleton key _).trans (ordered.same.cons key),
        List.nodup_append.mpr ⟨ordered.once, List.nodup_singleton key, by
          intro other mem k here
          cases List.mem_singleton.mp here
          exact fun e => new (e ▸ mem)⟩⟩
    case isFalse present =>
      have there : key ∈ cache.order := not_not.mp (mt known.mpr present)
      refine ⟨?_, ordered.once⟩
      have front := List.perm_cons_erase there
      rw [ordered.once.erase_eq_filter] at front
      exact front.trans ((ordered.same.filter _).cons key)
  obtain ⟨same, once, bounded⟩ := evict_ordered cache.capacity grown.1 grown.2
  exact ⟨same, once, bounded⟩

theorem Ordered.forget (ordered : cache.Ordered) : (cache.forget key).Ordered := by
  rw [ExistsCache.forget]
  split
  case isTrue => exact ordered
  case isFalse =>
    refine ⟨?_, ordered.once.filter _, ?_⟩
    · change (cache.order.filter _).Perm (cache.entries.delete key).keys
      rw [keys_delete]
      exact ordered.same.filter _
    · exact Nat.le_trans (List.length_filter_le _ _) ordered.bounded

end Queue

/-! ### What is remembered -/

section Get

variable {cache : ExistsCache} {key other : Text} {size n : Nat}

theorem get_of_delete {entries : Objects Nat} (held : (entries.delete key).get other = some n) :
    other ≠ key ∧ entries.get other = some n := by
  by_cases same : other = key
  · subst same
    rw [Objects.get_delete_self] at held
    cases held
  · exact ⟨same, Objects.get_delete_ne same ▸ held⟩

theorem get_of_evict {capacity : Nat} {entries : Objects Nat} {order : List Text}
    (held : (evict capacity entries order).1.get key = some n) : entries.get key = some n := by
  induction order generalizing entries with
  | nil => exact held
  | cons oldest order ih =>
      rw [evict] at held
      split at held
      case isTrue => exact (get_of_delete (ih held)).2
      case isFalse => exact held

theorem get_of_fill (held : (cache.fill key size).get other = some n) :
    other = key ∧ n = size ∨ other ≠ key ∧ cache.get other = some n := by
  have before := get_of_evict held
  by_cases same : other = key
  · subst same
    rw [Objects.get_put_self] at before
    exact .inl ⟨rfl, (Option.some.inj before).symm⟩
  · rw [Objects.get_put_ne same] at before
    exact .inr ⟨same, before⟩

theorem get_of_forget (held : (cache.forget key).get other = some n) :
    other ≠ key ∧ cache.get other = some n := by
  rw [ExistsCache.forget] at held
  split at held
  case isTrue absent =>
    refine ⟨fun same => ?_, held⟩
    rw [same, absent] at held
    cases held
  case isFalse => exact get_of_delete held

end Get

end ExistsCache

end OpenCargo.S3
