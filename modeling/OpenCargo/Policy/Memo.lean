/-
Module: OpenCargo.Policy.Memo
Purpose: The bounded map that evicts the entry whose last use is longest ago (`policy/memo.rs`), against the list that
  such a cache is.
Trusted boundary: a memo is used fewer than `2 ^ 64` times, so that its ticks are numbers
Main exports: Call, lru, latest, memo_is_lru
-/
import OpenCargo.Domain
import OpenCargo.Lib.Recency
import OpenCargo.Lib.Run

namespace OpenCargo.Policy.Recency

open OpenCargo.Lib

variable {κ α : Type} [DecidableEq κ]

/-! ### The memo -/

/-- A bounded map evicting the least recently touched entry when full. -/
structure Memo (κ α : Type) where
  cap : Nat
  tick : Nat
  map : Entries κ (α × Nat)

namespace Memo

omit [DecidableEq κ] in
/-- A memo has room for one entry at least. -/
def new (cap : Nat) : Memo κ α := ⟨max cap 1, 0, ⟨[], List.nodup_nil⟩⟩

/-- What is answered, and the memo once the caller has written through the reference it was given. -/
def getMut (m : Memo κ α) (key : κ) (write : α → α) : Option α × Memo κ α :=
  let tick := m.tick + 1
  match m.map.get key with
  | some (value, _) => (some value, { m with tick, map := m.map.set key (write value, tick) })
  | none => (none, { m with tick })

/-- The map is walked for the entry with the least tick. -/
def insert (m : Memo κ α) (walk : List (κ × α × Nat)) (key : κ) (value : α) (write : α → α) : Memo κ α :=
  let map :=
    if m.cap ≤ m.map.toList.length && !m.map.hasKey key then
      match walk.argmin fun entry => entry.2.2 with
      | some oldest => m.map.erase oldest.1
      | none => m.map
    else m.map
  let tick := m.tick + 1
  { m with tick, map := map.set key (write value, tick) }

end Memo

/-- A call, with what its caller writes through the reference; an insertion with the order in which the map is
walked. -/
inductive Call (κ α : Type) where
  | getMut (key : κ) (write : α → α)
  | insert (key : κ) (value : α) (write : α → α) (walk : List (κ × α × Nat))

def step (m : Memo κ α) : Call κ α → Option (Memo κ α)
  | .getMut key write => some (m.getMut key write).2
  | .insert key value write walk => some (m.insert walk key value write)

/-- A walk meets each entry of the map once. -/
def Walks (m : Memo κ α) : Call κ α → Memo κ α → Prop
  | .getMut _ _, _ => True
  | .insert _ _ _ walk, _ => walk.Perm m.map.toList

instance [DecidableEq α] (m : Memo κ α) (call : Call κ α) (m' : Memo κ α) : Decidable (Walks m call m') :=
  match call with
  | .getMut _ _ => .isTrue trivial
  | .insert _ _ _ walk => inferInstanceAs (Decidable (walk.Perm m.map.toList))

/-! ### What it is for -/

/-- The keys that the list of the last used ones holds after some calls. -/
def lru (cap : Nat) (calls : List (Call κ α)) : List κ :=
  calls.foldl (fun keys call =>
    match call with
    | .getMut key _ => used key keys
    | .insert key _ _ _ => admitted cap key keys) []

/-- The value that was inserted last for a key, with what was written to it since. -/
def latest (key : κ) (calls : List (Call κ α)) : Option α :=
  calls.foldl (fun value call =>
    match call with
    | .getMut other write => if other = key then value.map write else value
    | .insert other value' write _ => if other = key then some (write value') else value) none

section Follows

variable {m m' : Memo κ α} {cap : Nat} {calls : List (Call κ α)} {call : Call κ α}

/-- A memo after some calls: its entries by their last use are the list's keys, each with the value written last. -/
structure Follows (cap : Nat) (calls : List (Call κ α)) (m : Memo κ α) (es : List (κ × α × Nat)) : Prop where
  recent : Latest m.map m.tick es
  keys : es.map Prod.fst = lru cap calls
  values : ∀ e ∈ es, Recency.latest e.1 calls = some e.2.1
  capacity : m.cap = cap
  ticks : m.tick = calls.length
  fits : (lru cap calls).length ≤ cap

theorem lru_snoc_getMut (key : κ) (write : α → α) :
    lru cap (calls ++ [.getMut key write]) = used key (lru cap calls) := List.foldl_concat ..

theorem lru_snoc_insert (key : κ) (value : α) (write : α → α) (walk : List (κ × α × Nat)) :
    lru cap (calls ++ [.insert key value write walk]) = admitted cap key (lru cap calls) := List.foldl_concat ..

theorem latest_snoc_getMut (key key' : κ) (write : α → α) : latest key' (calls ++ [.getMut key write]) =
    if key = key' then (latest key' calls).map write else latest key' calls := List.foldl_concat ..

theorem latest_snoc_insert (key key' : κ) (value : α) (write : α → α) (walk : List (κ × α × Nat)) :
    latest key' (calls ++ [.insert key value write walk]) =
      if key = key' then some (write value) else latest key' calls := List.foldl_concat ..

theorem Follows.mem_iff {es : List (κ × α × Nat)} (follows : Follows cap calls m es) {key : κ} :
    key ∈ lru cap calls ↔ ∃ v, m.map.get key = some v := by
  rw [← follows.keys, ← follows.recent.mem_keys, Entries.mem_keys_iff]

/-- The entries after a key is written; before that, the entries `kept` may lack the one that was driven out. -/
theorem Follows.written {es kept : List (κ × α × Nat)} (follows : Follows cap calls m es) {map : Entries κ (α × Nat)}
    {key : κ} {value : α} (before : Latest map m.tick kept) (less : ∀ e ∈ kept, e ∈ es)
    (moved : lru cap (calls ++ [call]) = key :: (kept.map Prod.fst).erase key)
    (own : Recency.latest key (calls ++ [call]) = some value)
    (others : ∀ key' ≠ key, Recency.latest key' (calls ++ [call]) = Recency.latest key' calls)
    (fits : (lru cap (calls ++ [call])).length ≤ cap) :
    Follows cap (calls ++ [call]) { m with tick := m.tick + 1, map := map.set key (value, m.tick + 1) }
      ((key, value, m.tick + 1) :: kept.filter fun e => e.1 ≠ key) where
  recent := before.use key value
  keys := by rw [List.map_cons, before.keys_use, moved]
  values := by
    intro e mem
    rcases List.mem_cons.mp mem with rfl | mem
    · exact own
    · obtain ⟨there, other⟩ := List.mem_filter.mp mem
      rw [others e.1 (by simpa using other)]
      exact follows.values e (less e there)
  capacity := follows.capacity
  ticks := by rw [List.length_append, List.length_singleton, ← follows.ticks]
  fits := fits

theorem Follows.getMut {es : List (κ × α × Nat)} (follows : Follows cap calls m es) (key : κ) (write : α → α) :
    ∃ es', Follows cap (calls ++ [.getMut key write]) (m.getMut key write).2 es' := by
  have fits : (lru cap (calls ++ [.getMut key write])).length ≤ cap := by
    rw [lru_snoc_getMut, length_used]
    exact follows.fits
  have others (key' : κ) (other : key' ≠ key) :
      Recency.latest key' (calls ++ [.getMut key write]) = Recency.latest key' calls := by
    rw [latest_snoc_getMut, if_neg (Ne.symm other)]
  rw [Memo.getMut]
  cases held : m.map.get key with
  | some v =>
      have there : key ∈ lru cap calls := follows.mem_iff.mpr ⟨v, held⟩
      have value := follows.values _ (follows.recent.get_eq_some.mp held)
      refine ⟨_, follows.written follows.recent (fun _ mem => mem) ?_ ?_ others fits⟩
      · rw [lru_snoc_getMut, used, if_pos there, follows.keys]
      · rw [latest_snoc_getMut, if_pos rfl, value, Option.map_some]
  | none =>
      have absent : key ∉ lru cap calls := fun mem => by
        obtain ⟨v, there⟩ := follows.mem_iff.mp mem
        rw [held] at there
        cases there
      have same : lru cap (calls ++ [.getMut key write]) = lru cap calls := by
        rw [lru_snoc_getMut, used, if_neg absent]
      refine ⟨es, follows.recent.later, by rw [same, follows.keys], fun e mem => ?_, follows.capacity, ?_, fits⟩
      · have listed : e.1 ∈ lru cap calls := follows.keys ▸ List.mem_map_of_mem mem
        rw [others e.1 fun own => absent (own ▸ listed)]
        exact follows.values e mem
      · rw [List.length_append, List.length_singleton, ← follows.ticks]

theorem Follows.insert {es : List (κ × α × Nat)} (follows : Follows cap calls m es) (room : 0 < cap)
    {walk : List (κ × α × Nat)} (walked : walk.Perm m.map.toList) (key : κ) (value : α) (write : α → α) :
    ∃ es', Follows cap (calls ++ [.insert key value write walk]) (m.insert walk key value write) es' := by
  have fits : (lru cap (calls ++ [.insert key value write walk])).length ≤ cap := by
    rw [lru_snoc_insert]
    exact length_admitted_le follows.fits
  have own : Recency.latest key (calls ++ [.insert key value write walk]) = some (write value) := by
    rw [latest_snoc_insert, if_pos rfl]
  have others (key' : κ) (other : key' ≠ key) :
      Recency.latest key' (calls ++ [.insert key value write walk]) = Recency.latest key' calls := by
    rw [latest_snoc_insert, if_neg (Ne.symm other)]
  have long : m.map.toList.length = (lru cap calls).length := by
    rw [← follows.keys, List.length_map, follows.recent.length_eq]
  rw [Memo.insert]
  by_cases there : key ∈ lru cap calls
  · have held : m.map.hasKey key = true := by
      rw [Entries.hasKey_iff, Entries.mem_keys_iff]
      exact follows.mem_iff.mp there
    rw [if_neg (by simp [held])]
    refine ⟨_, follows.written follows.recent (fun _ mem => mem) ?_ own others fits⟩
    rw [lru_snoc_insert, admitted, if_pos there, follows.keys]
  · have absent : m.map.hasKey key = false := by
      rw [Bool.eq_false_iff, Ne, Entries.hasKey_iff, Entries.mem_keys_iff]
      exact fun mem => there (follows.mem_iff.mpr mem)
    by_cases full : m.cap ≤ m.map.toList.length
    · -- the last of the list is the entry with the least tick
      obtain ⟨kept, last, rfl⟩ : ∃ kept last, es = kept ++ [last] := by
        have some_ : es ≠ [] := List.ne_nil_of_length_pos (by rw [follows.recent.length_eq]; have := follows.capacity; omega)
        exact ⟨es.dropLast, es.getLast some_, (List.dropLast_append_getLast some_).symm⟩
      have keys : lru cap calls = kept.map Prod.fst ++ [last.1] := by rw [← follows.keys, List.map_append]; rfl
      rw [if_pos (by simp [full, absent]), follows.recent.oldest walked]
      refine ⟨_, follows.written follows.recent.dropLast (fun e mem => List.mem_append_left _ mem) ?_ own others fits⟩
      have size : kept.length + 1 = cap := by
        have most := follows.fits
        rw [long, follows.capacity] at full
        rw [keys, List.length_append, List.length_map, List.length_singleton] at most full
        omega
      rw [lru_snoc_insert, admitted, if_neg there, keys, ← size, List.take_succ_cons,
        List.take_left' (List.length_map _), List.erase_of_not_mem]
      exact fun mem => there (keys ▸ List.mem_append_left _ mem)
    · rw [if_neg (by simp [full])]
      refine ⟨_, follows.written follows.recent (fun _ mem => mem) ?_ own others fits⟩
      have short : (key :: lru cap calls).length ≤ cap := by
        rw [long, follows.capacity] at full
        rw [List.length_cons]
        omega
      rw [lru_snoc_insert, admitted, if_neg there, List.take_of_length_le short, follows.keys,
        List.erase_of_not_mem there]

theorem follows_of_run (room : 0 < cap) (run : Run step Walks (Memo.new cap) calls m) :
    ∃ es, Follows cap calls m es := by
  induction run with
  | nil =>
      refine ⟨[], ⟨.refl _, .nil, by simp⟩, rfl, by simp, Nat.max_eq_left room, rfl, Nat.zero_le _⟩
  | @snoc calls m call m' _ taken walks ih =>
      obtain ⟨es, follows⟩ := ih
      cases call with
      | getMut key write =>
          obtain rfl := Option.some.inj taken
          exact follows.getMut key write
      | insert key value write walk =>
          obtain rfl := Option.some.inj taken
          exact follows.insert room walks key value write

end Follows

/-- A memo holds no more than it has room for, which is one entry at least: exactly the keys of the list of that
length, and for each of them the value that was written last. -/
theorem memo_is_lru (cap : Nat) (calls : List (Call κ α)) (m : Memo κ α)
    (run : Run step Walks (Memo.new cap) calls m) :
    m.map.toList.length ≤ max cap 1 ∧ (∀ key, key ∈ m.map.keys ↔ key ∈ lru (max cap 1) calls) ∧
      ∀ key write, (m.getMut key write).1 = if key ∈ lru (max cap 1) calls then latest key calls else none := by
  have same : (Memo.new cap : Memo κ α) = Memo.new (max cap 1) := by simp [Memo.new]
  obtain ⟨es, follows⟩ := follows_of_run (Nat.lt_of_lt_of_le Nat.one_pos (Nat.le_max_right cap 1)) (same ▸ run)
  refine ⟨?_, fun key => ?_, fun key write => ?_⟩
  · have fits := follows.fits
    rw [← follows.keys, List.length_map, follows.recent.length_eq] at fits
    exact fits
  · rw [follows.recent.mem_keys, follows.keys]
  · rw [Memo.getMut]
    cases held : m.map.get key with
    | some v =>
        have value := follows.values _ (follows.recent.get_eq_some.mp held)
        rw [if_pos (follows.mem_iff.mpr ⟨v, held⟩), value]
    | none =>
        rw [if_neg]
        intro mem
        obtain ⟨v, there⟩ := follows.mem_iff.mp mem
        rw [held] at there
        cases there

/-- The third key drives out the second, as the first was read in between; what is answered is what the reader has
written. -/
def threeKeys : List (Call Text Nat) :=
  [.insert "a".toList 1 id [], .insert "b".toList 2 id [("a".toList, 1, 1)], .getMut "a".toList (· + 5),
    .insert "c".toList 3 id [("b".toList, 2, 2), ("a".toList, 6, 3)]]

theorem memo_of_two_keeps_the_last_used :
    ∃ m : Memo Text Nat, Run step Walks (Memo.new 2) threeKeys m ∧ m.map.toList.length ≤ 2 ∧
      (∀ key, key ∈ m.map.keys ↔ key ∈ ["c".toList, "a".toList]) ∧ (m.getMut "a".toList id).1 = some 6 := by
  obtain ⟨m, run, _⟩ := Run.of_test step Walks (Memo.new 2) threeKeys (fun _ => true) (by decide)
  obtain ⟨fits, keys, values⟩ := memo_is_lru 2 threeKeys m run
  exact ⟨m, run, fits, keys, values "a".toList id⟩

/-- A memo of capacity zero holds an entry. -/
theorem capacity_zero_holds_an_entry :
    ¬∀ (cap : Nat) (calls : List (Call Text Nat)) (m : Memo Text Nat), Run step Walks (Memo.new cap) calls m →
      m.map.toList.length ≤ cap ∧ ∀ key, key ∈ m.map.keys ↔ key ∈ lru cap calls := by
  intro claim
  obtain ⟨m, run, one⟩ := Run.of_test step Walks (Memo.new 0) [.insert "a".toList 1 id []]
    (fun m => m.map.toList.length == 1) (by decide)
  have none_ := (claim 0 _ m run).1
  rw [eq_of_beq one] at none_
  cases none_

end OpenCargo.Policy.Recency
