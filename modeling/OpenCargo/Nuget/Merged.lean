/-
Module: OpenCargo.Nuget.Merged
Purpose: The books of the merge cache (`Memo` of `registry/nuget/merged.rs`), for any keys and values: calls of
  `get_or_compute` that run side by side, one step for each critical section between two awaits; its table of
  slots beside its table of weights.
Trusted boundary: an `Arc` is told by its key and a number no other slot has; weights and ticks do not reach 2^64
Main exports: Books, books_are_kept, forget_tableOf, keep_tableOf
-/
import OpenCargo.Nuget.Documents

namespace OpenCargo.Nuget.Merged

open OpenCargo.Lib

variable {K V E : Type} [DecidableEq K]

/-! ### The two tables -/

structure Table (K : Type) where
  slots : Entries K Nat
  kept : Entries K (Nat × Nat)
  weight : Nat
  tick : Nat

namespace Table

def empty : Table K := ⟨⟨[], .nil⟩, ⟨[], .nil⟩, 0, 0⟩

/-- `weight -= w`: `none` where it underflows. -/
def lighten (table : Table K) (w : Nat) : Option (Table K) :=
  if w ≤ table.weight then some { table with weight := table.weight - w } else none

/-- A key is removed from what is kept, and its weight with it. -/
def unkeep (table : Table K) (key : K) : Option (Table K) :=
  match table.kept.get key with
  | some (w, _) => lighten { table with kept := table.kept.erase key } w
  | none => some table

/-- Only the very slot is removed, but whatever is kept. -/
def forget (table : Table K) (key : K) (slot : Nat) : Option (Table K) :=
  let slots := if table.slots.get key = some slot then table.slots.erase key else table.slots
  unkeep { table with slots } key

/-- The key that was kept longest ago, but for one. -/
def oldest (table : Table K) (key : K) : Option K :=
  ((table.kept.toList.filter fun entry => entry.1 ≠ key).argmin fun entry => entry.2.2).map Prod.fst

/-- The loop of `keep`: each round removes a key, so that there are no more rounds than keys. -/
def evict (budget : Nat) (key : K) : Nat → Table K → Option (Table K)
  | 0, table => some table
  | rounds + 1, table =>
      if table.weight ≤ budget then some table
      else match table.oldest key with
        | none => some table
        | some old => (table.unkeep old).bind fun table =>
            evict budget key rounds { table with slots := table.slots.erase old }

def keep (budget : Nat) (table : Table K) (key : K) (weight : Nat) : Option (Table K) :=
  let tick := table.tick + 1
  let kept := table.kept.set key (weight, tick)
  let lightened := match table.kept.get key with
    | some (w, _) => lighten { table with tick, kept } w
    | none => some { table with tick, kept }
  lightened.bind fun table =>
    evict budget key table.kept.toList.length { table with weight := table.weight + weight }

end Table

/-! ### Calls -/

structure Stored (V : Type) where
  value : V
  sources : Sources
  at_ : Nat
deriving Repr, DecidableEq, Inhabited

/-- A slot's mutex, and what it guards. -/
structure Slot (V : Type) where
  held : Bool
  stored : Option (Stored V)
deriving Repr, DecidableEq, Inhabited

structure Memo (V : Type) where
  budget : Nat
  maxAge : Nat
  wait : Nat
  weigh : V → Nat

def documentBudget : Nat := 64 * 1024 * 1024

/-- Rendered documents, by their `DocKey`. Times are in seconds. -/
def documents : Memo Bytes := ⟨documentBudget, 60, 10, List.length⟩

/-- Upstream documents, by the sha256 of the body they were parsed from, each with that body's length. -/
def parsed : Memo (Json × Nat) := ⟨documentBudget, 600, 10, Prod.snd⟩

def Memo.fresh (memo : Memo V) (now : Nat) (stored : Stored V) (sources : Sources) : Bool :=
  stored.sources = sources && (!sources.upstream || decide (now - stored.at_ < memo.maxAge))

/-- Where a call of `get_or_compute` stands. -/
inductive Phase (K V E : Type) where
  /-- It awaits its slot's lock, since then. -/
  | waiting (key : K) (slot : Nat) (sources : Sources) (since : Nat)
  /-- It holds the guard and awaits its computation. -/
  | computing (key : K) (slot : Nat) (sources : Sources)
  /-- It has waited long enough, and awaits a computation of its own. -/
  | alone
  /-- The guard is dropped; `keep`, or `forget`, comes next. -/
  | keeping (key : K) (value : V)
  | forgetting (key : K) (slot : Nat) (answer : Except E V)
  | answered (answer : Except E V)
  | cancelled

def Phase.inProgress : Phase K V E → Bool
  | .answered _ => false
  | .cancelled => false
  | _ => true

structure Cache (K V E : Type) where
  table : Table K
  /-- Every slot there ever was: a call may hold on to one that is no longer in the table. -/
  slots : K → Nat → Slot V
  made : Nat
  calls : List (Phase K V E)
  now : Nat
  underflowed : Bool

inductive Act (K V E : Type) where
  | call (key : K) (sources : Sources)
  /-- A waiting call gets its slot's lock. -/
  | acquire (id : Nat)
  | expire (id : Nat)
  /-- A call's computation ends. -/
  | computed (id : Nat) (outcome : Except E (V × Bool))
  /-- A call's last critical section. -/
  | record (id : Nat)
  /-- A call's future is dropped at an await, or its computation panics. -/
  | cancel (id : Nat)
  | pass (seconds : Nat)

namespace Cache

def start : Cache K V E := ⟨.empty, fun _ _ => ⟨false, none⟩, 0, [], 0, false⟩

def put (c : Cache K V E) (key : K) (slot : Nat) (cell : Slot V) : Cache K V E :=
  { c with slots := Function.update c.slots key (Function.update (c.slots key) slot cell) }

def move (c : Cache K V E) (id : Nat) (phase : Phase K V E) : Cache K V E :=
  { c with calls := c.calls.set id phase }

/-- `slot`: the key's slot, made where there is none. -/
def slot (c : Cache K V E) (key : K) : Nat × Cache K V E :=
  match c.table.slots.get key with
  | some slot => (slot, c)
  | none =>
      (c.made, { c with
        table := { c.table with slots := c.table.slots.set key c.made }
        made := c.made + 1 }.put key c.made ⟨false, none⟩)

/-- The table after a critical section, or that its arithmetic underflowed. -/
def recorded (c : Cache K V E) : Option (Table K) → Cache K V E
  | some table => { c with table }
  | none => { c with underflowed := true }

variable (memo : Memo V)

def acquire (c : Cache K V E) (id : Nat) : Phase K V E → Option (Cache K V E)
  | .waiting key slot sources _ =>
      let cell := c.slots key slot
      if cell.held then none
      else match cell.stored.filter fun stored => memo.fresh c.now stored sources with
        | some stored => some (c.move id (.answered (.ok stored.value)))
        | none => some ((c.put key slot { cell with held := true }).move id (.computing key slot sources))
  | _ => none

/-- A wait comes to its end. The lock is handed on in turn, and so may be free and still not this call's. -/
def expire (c : Cache K V E) (id : Nat) : Phase K V E → Option (Cache K V E)
  | .waiting _ _ _ since => if since + memo.wait ≤ c.now then some (c.move id .alone) else none
  | _ => none

def computed (c : Cache K V E) (id : Nat) (outcome : Except E (V × Bool)) : Phase K V E → Option (Cache K V E)
  | .alone => some (c.move id (.answered (outcome.map Prod.fst)))
  | .computing key slot sources =>
      some (match outcome with
        | .ok (value, true) => (c.put key slot ⟨false, some ⟨value, sources, c.now⟩⟩).move id (.keeping key value)
        | .ok (value, false) => (c.put key slot ⟨false, none⟩).move id (.forgetting key slot (.ok value))
        | .error e => (c.put key slot ⟨false, none⟩).move id (.forgetting key slot (.error e)))
  | _ => none

def record (c : Cache K V E) (id : Nat) : Phase K V E → Option (Cache K V E)
  | .keeping key value =>
      let weight := memo.weigh value + overhead
      some ((c.recorded (c.table.keep memo.budget key weight)).move id (.answered (.ok value)))
  | .forgetting key slot answer => some ((c.recorded (c.table.forget key slot)).move id (.answered answer))
  | _ => none

/-- What is stored stays; the guard goes. -/
def cancel (c : Cache K V E) (id : Nat) : Phase K V E → Option (Cache K V E)
  | .waiting .. => some (c.move id .cancelled)
  | .computing key slot _ =>
      some ((c.put key slot { c.slots key slot with held := false }).move id .cancelled)
  | .alone => some (c.move id .cancelled)
  | _ => none

end Cache

def step (memo : Memo V) (c : Cache K V E) : Act K V E → Option (Cache K V E)
  | .call key sources =>
      let (slot, c) := c.slot key
      some { c with calls := c.calls ++ [.waiting key slot sources c.now] }
  | .acquire id => c.calls[id]?.bind (c.acquire memo id)
  | .expire id => c.calls[id]?.bind (c.expire memo id)
  | .computed id outcome => c.calls[id]?.bind (c.computed id outcome)
  | .record id => c.calls[id]?.bind (c.record memo id)
  | .cancel id => c.calls[id]?.bind (c.cancel id)
  | .pass seconds => some { c with now := c.now + seconds }

/-! ### What is asked of a run -/

/-- Whether a call will still settle this slot of its key. -/
def Phase.attached (key : K) (slot : Nat) : Phase K V E → Bool
  | .waiting k s _ _ => k = key ∧ s = slot
  | .computing k s _ => k = key ∧ s = slot
  | .keeping k _ => k = key
  | .forgetting k s _ => k = key ∧ s = slot
  | _ => false

/-- A call may leave its slot as it is: the slot is no longer in the table, or the key is kept, or another
call will settle it. -/
def Cache.MayLeave (c : Cache K V E) (id : Nat) (key : K) (slot : Nat) : Prop :=
  c.table.slots.get key ≠ some slot ∨ (c.table.kept.get key).isSome ∨
    (c.calls.eraseIdx id).any (Phase.attached key slot)

instance (c : Cache K V E) (id : Nat) (key : K) (slot : Nat) : Decidable (c.MayLeave id key slot) :=
  inferInstanceAs (Decidable (_ ∨ _ ∨ _))

/-- A call that is to be kept finds a slot of its key in the table; one that is to be forgotten finds no other
slot there of a key that is kept; and one that goes at an await may leave its slot. -/
def Cache.Tidy (c : Cache K V E) (id : Nat) : Phase K V E → Prop
  | .keeping key _ => (c.table.slots.get key).isSome
  | .forgetting key slot _ =>
      c.table.slots.get key = none ∨ c.table.slots.get key = some slot ∨ c.table.kept.get key = none
  | .waiting key slot _ _ => c.MayLeave id key slot
  | .computing key slot _ => c.MayLeave id key slot
  | _ => True

instance (c : Cache K V E) (id : Nat) : DecidablePred (c.Tidy id)
  | .waiting key slot _ _ => inferInstanceAs (Decidable (c.MayLeave id key slot))
  | .computing key slot _ => inferInstanceAs (Decidable (c.MayLeave id key slot))
  | .keeping _ _ => inferInstanceAs (Decidable (_ = true))
  | .forgetting _ _ _ => inferInstanceAs (Decidable (_ ∨ _ ∨ _))
  | .alone => .isTrue trivial
  | .answered _ => .isTrue trivial
  | .cancelled => .isTrue trivial

/-- The steps by which a call comes to its end. -/
def Act.ends : Act K V E → Option Nat
  | .expire id => some id
  | .record id => some id
  | .cancel id => some id
  | _ => none

/-- No call ends, of itself or not, where it would leave its key in one of the tables alone. -/
def Orderly (c : Cache K V E) (a : Act K V E) (_ : Cache K V E) : Prop :=
  ∀ id ∈ a.ends, ∀ phase ∈ c.calls[id]?, c.Tidy id phase

instance (c : Cache K V E) (a : Act K V E) (c' : Cache K V E) : Decidable (Orderly c a c') :=
  inferInstanceAs (Decidable (∀ _ ∈ _, ∀ _ ∈ _, _))

/-! ### The weights -/

/-- The recorded weight is that of what is kept, and within the budget unless all of it is one entry. -/
structure Weighed (budget : Nat) (table : Table K) : Prop where
  sum : table.weight = table.kept.total Prod.fst
  bounded : table.weight ≤ budget ∨ ∃ entry, table.kept.toList = [entry]

namespace Table

variable {table after : Table K} {key k old : K} {budget rounds slot w : Nat}

/-- A key and its weight are gone from what was kept. -/
structure Unkept (key : K) (table after : Table K) : Prop where
  sum : after.weight = after.kept.total Prod.fst
  lighter : after.weight ≤ table.weight
  slots : after.slots = table.slots
  get : ∀ k, after.kept.get k = if k = key then none else table.kept.get k
  fewer : after.kept.toList.Sublist table.kept.toList

theorem unkeep_eq (table : Table K) (sum : table.weight = table.kept.total Prod.fst) (key : K) :
    ∃ after, table.unkeep key = some after ∧ Unkept key table after := by
  rw [unkeep]
  cases held : table.kept.get key with
  | none =>
      refine ⟨table, rfl, sum, Nat.le_refl _, rfl, fun k => ?_, List.Sublist.refl _⟩
      split
      · next own => rw [own, held]
      · rfl
  | some entry =>
      obtain ⟨w, t⟩ := entry
      have split : table.kept.total Prod.fst = w + (table.kept.erase key).total Prod.fst :=
        Entries.total_erase Prod.fst held
      have fits : w ≤ table.weight := by omega
      refine ⟨_, if_pos fits, ?_, Nat.sub_le _ _, rfl, fun _ => Entries.get_erase, List.filter_sublist⟩
      change table.weight - w = (table.kept.erase key).total Prod.fst
      omega

theorem Unkept.bounded (gone : Unkept key table after) (weighed : Weighed budget table) :
    Weighed budget after where
  sum := gone.sum
  bounded := by
    rcases weighed.bounded with within | ⟨entry, alone⟩
    · exact .inl (gone.lighter.trans within)
    · have less := gone.fewer
      rw [alone, List.sublist_singleton] at less
      rcases less with none_ | same
      · left
        rw [gone.sum, Entries.total, none_]
        exact Nat.zero_le _
      · exact .inr ⟨entry, same⟩

theorem forget_eq (weighed : Weighed budget table) (key : K) (slot : Nat) :
    ∃ after, table.forget key slot = some after ∧ Weighed budget after ∧
      (∀ k, after.kept.get k = if k = key then none else table.kept.get k) ∧
      ∀ k, after.slots.get k =
        if k = key ∧ table.slots.get key = some slot then none else table.slots.get k := by
  rw [forget]
  obtain ⟨after, made, gone⟩ := unkeep_eq
    { table with slots := if table.slots.get key = some slot then table.slots.erase key else table.slots }
    weighed.sum key
  refine ⟨after, made, ?_, gone.get, fun k => ?_⟩
  · exact gone.bounded ⟨weighed.sum, weighed.bounded⟩
  · rw [gone.slots]
    by_cases own : table.slots.get key = some slot
    · simp only [own, and_true, if_true]
      exact Entries.get_erase
    · simp only [own, and_false, if_false]

/-! ### The loop of `keep` -/

theorem oldest_mem (found : table.oldest key = some old) :
    old ≠ key ∧ ∃ entry, table.kept.get old = some entry := by
  rw [oldest, Option.map_eq_some_iff] at found
  obtain ⟨entry, least, rfl⟩ := found
  have mem := List.argmin_mem least
  rw [List.mem_filter] at mem
  exact ⟨by simpa using mem.2, entry.2, Entries.get_eq_some_iff.mpr mem.1⟩

theorem alone_of_oldest (last : table.oldest key = none) (held : (table.kept.get key).isSome) :
    ∃ entry, table.kept.toList = [entry] := by
  rw [oldest, Option.map_eq_none_iff, List.argmin_eq_none, List.filter_eq_nil_iff] at last
  have own : ∀ entry ∈ table.kept.toList, entry.1 = key := fun entry mem => by simpa using last entry mem
  obtain ⟨entry, found⟩ := Option.isSome_iff_exists.mp held
  have mem := Entries.get_eq_some_iff.mp found
  have unique := table.kept.unique
  cases listed : table.kept.toList with
  | nil => rw [listed] at mem; cases mem
  | cons one others =>
      rw [listed] at own unique
      cases others with
      | nil => exact ⟨one, rfl⟩
      | cons two others =>
          have same : one.1 = two.1 := (own one (by simp)).trans (own two (by simp)).symm
          simp [same] at unique

/-- What a run of the loop leaves: each key as it was, or in neither table. -/
structure Evicted (budget : Nat) (key : K) (table after : Table K) : Prop where
  weighed : Weighed budget after
  each : ∀ k, after.kept.get k = table.kept.get k ∧ after.slots.get k = table.slots.get k ∨
    k ≠ key ∧ after.kept.get k = none ∧ after.slots.get k = none

/-- The induction is on the rounds: a round removes an entry, and the key's own is never removed. -/
theorem evict_eq (budget rounds : Nat) (table : Table K) (sum : table.weight =
    table.kept.total Prod.fst) (held : (table.kept.get key).isSome)
    (enough : table.kept.toList.length ≤ rounds) :
    ∃ after, evict budget key rounds table = some after ∧ Evicted budget key table after := by
  induction rounds generalizing table with
  | zero =>
      obtain ⟨entry, found⟩ := Option.isSome_iff_exists.mp held
      have mem := Entries.get_eq_some_iff.mp found
      rw [List.length_eq_zero_iff.mp (Nat.le_zero.mp enough)] at mem
      cases mem
  | succ rounds ih =>
      rw [evict]
      by_cases within : table.weight ≤ budget
      · rw [if_pos within]
        exact ⟨table, rfl, ⟨sum, .inl within⟩, fun _ => .inl ⟨rfl, rfl⟩⟩
      · rw [if_neg within]
        cases found : table.oldest key with
        | none => exact ⟨table, rfl, ⟨sum, .inr (alone_of_oldest found held)⟩, fun _ => .inl ⟨rfl, rfl⟩⟩
        | some old =>
            obtain ⟨other, entry, there⟩ := oldest_mem found
            obtain ⟨less, made, gone⟩ := unkeep_eq table sum old
            have still : (less.kept.get key).isSome := by
              rw [gone.get, if_neg (Ne.symm other)]
              exact held
            have shorter : less.kept.toList.length < table.kept.toList.length := by
              refine lt_of_le_of_ne gone.fewer.length_le fun same => ?_
              have here := Entries.get_eq_some_iff.mp there
              rw [← gone.fewer.eq_of_length same, ← Entries.get_eq_some_iff, gone.get, if_pos rfl] at here
              cases here
            obtain ⟨after, looped, evicted⟩ := ih { less with slots := less.slots.erase old }
              gone.sum still (by change less.kept.toList.length ≤ rounds; omega)
            have rounds_left : ((table.unkeep old).bind fun table =>
                evict budget key rounds { table with slots := table.slots.erase old }) = some after := by
              rw [made]
              exact looped
            refine ⟨after, rounds_left, evicted.weighed, fun k => ?_⟩
            rcases evicted.each k with ⟨kept, slots⟩ | away
            · change after.kept.get k = less.kept.get k at kept
              change after.slots.get k = (less.slots.erase old).get k at slots
              rw [gone.get] at kept
              rw [Entries.get_erase, gone.slots] at slots
              by_cases own : k = old
              · rw [if_pos own] at kept slots
                exact .inr ⟨own ▸ other, kept, slots⟩
              · rw [if_neg own] at kept slots
                exact .inl ⟨kept, slots⟩
            · exact .inr away

/-- A kept key is in the weights, its slot is left as it is, and each other key is as it was or in neither
table. -/
theorem keep_eq (budget : Nat) (sum : table.weight = table.kept.total Prod.fst) (key : K) (w : Nat) :
    ∃ after, table.keep budget key w = some after ∧ Weighed budget after ∧ (after.kept.get key).isSome ∧
      after.slots.get key = table.slots.get key ∧
      ∀ k ≠ key, after.kept.get k = table.kept.get k ∧ after.slots.get k = table.slots.get k ∨
        after.kept.get k = none ∧ after.slots.get k = none := by
  let written : Table K :=
    { table with tick := table.tick + 1, kept := table.kept.set key (w, table.tick + 1) }
  have total : written.kept.total Prod.fst = w + (table.kept.erase key).total Prod.fst :=
      Entries.total_set Prod.fst
  -- what is subtracted is what the entry weighed that is written over
  have lightened : ∃ weight, table.keep budget key w =
      evict budget key written.kept.toList.length { written with weight := weight + w } ∧
      weight = (table.kept.erase key).total Prod.fst := by
    rw [keep]
    cases held : table.kept.get key with
    | none => exact ⟨_, rfl, by rw [Entries.total_erase_of_absent Prod.fst held]; exact sum⟩
    | some entry =>
        obtain ⟨old, t⟩ := entry
        have split : table.kept.total Prod.fst = old + (table.kept.erase key).total Prod.fst :=
          Entries.total_erase Prod.fst held
        have fits : old ≤ table.weight := by omega
        refine ⟨table.weight - old, ?_, by omega⟩
        simp only [lighten, if_pos fits]
        rfl
  obtain ⟨weight, looped, light⟩ := lightened
  have here : written.kept.get key = some (w, table.tick + 1) := by
    change (table.kept.set key _).get key = _
    rw [Entries.get_set, if_pos rfl]
  obtain ⟨after, made, evicted⟩ := evict_eq budget written.kept.toList.length
    { written with weight := weight + w } (by change weight + w = written.kept.total Prod.fst; omega)
    (by change (written.kept.get key).isSome; rw [here]; rfl) (Nat.le_refl _)
  have own := evicted.each key
  simp only [ne_eq, not_true_eq_false, false_and, or_false] at own
  refine ⟨after, by rw [looped, made], evicted.weighed, ?_, own.2, fun k other => ?_⟩
  · rw [own.1]
    rw [here]
    rfl
  · rcases evicted.each k with ⟨kept, slots⟩ | ⟨-, away⟩
    · change after.kept.get k = (table.kept.set key _).get k at kept
      rw [Entries.get_set, if_neg other] at kept
      exact .inl ⟨kept, slots⟩
    · exact .inr away

end Table

/-! ### What a step can do -/

inductive Did (memo : Memo V) (c : Cache K V E) : Act K V E → Cache K V E → Prop
  | found {key : K} {slot : Nat} (sources : Sources) (there : c.table.slots.get key = some slot) :
      Did memo c (.call key sources) { c with calls := c.calls ++ [.waiting key slot sources c.now] }
  | made {key : K} (sources : Sources) (absent : c.table.slots.get key = none) :
      Did memo c (.call key sources) { (c.put key c.made ⟨false, none⟩) with
        table := { c.table with slots := c.table.slots.set key c.made }
        made := c.made + 1
        calls := c.calls ++ [.waiting key c.made sources c.now] }
  | served {id key slot sources since} {stored : Stored V} (own : c.calls[id]? =
      some (.waiting key slot sources since))
      (there : (c.slots key slot).stored = some stored) :
      Did memo c (.acquire id) (c.move id (.answered (.ok stored.value)))
  | locked {id key slot sources since} (own : c.calls[id]? = some (.waiting key slot sources since)) :
      Did memo c (.acquire id)
        ((c.put key slot { c.slots key slot with held := true }).move id (.computing key slot sources))
  | expired {id key slot sources since} (own : c.calls[id]? = some (.waiting key slot sources since)) :
      Did memo c (.expire id) (c.move id .alone)
  | answered {id} {outcome : Except E (V × Bool)} (own : c.calls[id]? = some .alone) :
      Did memo c (.computed id outcome) (c.move id (.answered (outcome.map Prod.fst)))
  | stored {id key slot sources} {value : V} (own : c.calls[id]? = some (.computing key slot sources)) :
      Did memo c (.computed id (.ok (value, true)))
        ((c.put key slot ⟨false, some ⟨value, sources, c.now⟩⟩).move id (.keeping key value))
  | cleared {id key slot sources} {outcome : Except E (V × Bool)} {answer : Except E V} (own : c.calls[id]? =
      some (.computing key slot sources)) :
      Did memo c (.computed id outcome) ((c.put key slot ⟨false, none⟩).move id (.forgetting key slot answer))
  | kept {id key value} (own : c.calls[id]? = some (.keeping key value)) :
      Did memo c (.record id)
        ((c.recorded (c.table.keep memo.budget key (memo.weigh value + overhead))).move id (.answered (.ok value)))
  | forgot {id key slot answer} (own : c.calls[id]? = some (.forgetting key slot answer)) :
      Did memo c (.record id) ((c.recorded (c.table.forget key slot)).move id (.answered answer))
  | left {id key slot sources since} (own : c.calls[id]? = some (.waiting key slot sources since)) :
      Did memo c (.cancel id) (c.move id .cancelled)
  | dropped {id key slot sources} (own : c.calls[id]? = some (.computing key slot sources)) :
      Did memo c (.cancel id)
        ((c.put key slot { c.slots key slot with held := false }).move id .cancelled)
  | gone {id} (own : c.calls[id]? = some .alone) : Did memo c (.cancel id) (c.move id .cancelled)
  | passed {seconds : Nat} : Did memo c (.pass seconds) { c with now := c.now + seconds }

section Runs

variable {memo : Memo V} {c c' : Cache K V E} {a : Act K V E} {id : Nat} {old phase : Phase K V E}
  {key k : K} {slot : Nat} {budget : Nat}

theorem did_of_step (taken : step memo c a = some c') : Did memo c a c' := by
  cases a with
  | call key sources =>
      simp only [step, Cache.slot, Option.some.injEq] at taken
      split at taken
      · next slot there => exact taken ▸ .found sources there
      · next absent => exact taken ▸ .made sources absent
  | acquire id =>
      obtain ⟨phase, own, taken⟩ := Option.bind_eq_some_iff.mp taken
      cases phase with
      | waiting key slot sources since =>
          simp only [Cache.acquire] at taken
          split at taken
          · cases taken
          · split at taken
            · next stored there =>
                cases taken
                exact .served own (Option.filter_eq_some_iff.mp there).1
            · cases taken
              exact .locked own
      | _ => cases taken
  | expire id =>
      obtain ⟨phase, own, taken⟩ := Option.bind_eq_some_iff.mp taken
      cases phase with
      | waiting key slot sources since =>
          simp only [Cache.expire, Option.ite_none_right_eq_some] at taken
          cases taken.2
          exact .expired own
      | _ => cases taken
  | computed id outcome =>
      obtain ⟨phase, own, taken⟩ := Option.bind_eq_some_iff.mp taken
      cases phase with
      | alone =>
          cases taken
          exact .answered own
      | computing key slot sources =>
          simp only [Cache.computed, Option.some.injEq] at taken
          split at taken
          · exact taken ▸ .stored own
          · exact taken ▸ .cleared own
          · exact taken ▸ .cleared own
      | _ => cases taken
  | record id =>
      obtain ⟨phase, own, taken⟩ := Option.bind_eq_some_iff.mp taken
      cases phase with
      | keeping key value =>
          cases taken
          exact .kept own
      | forgetting key slot answer =>
          cases taken
          exact .forgot own
      | _ => cases taken
  | cancel id =>
      obtain ⟨phase, own, taken⟩ := Option.bind_eq_some_iff.mp taken
      cases phase with
      | waiting key slot sources since =>
          cases taken
          exact .left own
      | computing key slot sources =>
          cases taken
          exact .dropped own
      | alone =>
          cases taken
          exact .gone own
      | _ => cases taken
  | pass seconds =>
      cases taken
      exact .passed

/-! ### The weights, in every run -/

/-- The weights are right, within the budget unless one entry is all there is, and no subtraction underflowed. -/
structure Balanced (budget : Nat) (c : Cache K V E) : Prop where
  weighed : Weighed budget c.table
  whole : c.underflowed = false

theorem Balanced.recorded_keep (balanced : Balanced budget c) (key : K) (w : Nat) :
    Balanced budget (c.recorded (c.table.keep budget key w)) := by
  obtain ⟨after, made, weighed, -⟩ := Table.keep_eq budget balanced.weighed.sum key w
  rw [made]
  exact ⟨weighed, balanced.whole⟩

theorem Balanced.recorded_forget (balanced : Balanced budget c) (key : K) (slot : Nat) :
    Balanced budget (c.recorded (c.table.forget key slot)) := by
  obtain ⟨after, made, weighed, -⟩ := Table.forget_eq balanced.weighed key slot
  rw [made]
  exact ⟨weighed, balanced.whole⟩

theorem Balanced.step (balanced : Balanced memo.budget c) (taken : step memo c a = some c') :
    Balanced memo.budget c' := by
  cases did_of_step taken with
  | @kept id key value own =>
      have after := balanced.recorded_keep key (memo.weigh value + overhead)
      exact ⟨after.weighed, after.whole⟩
  | @forgot id key slot answer own =>
      have after := balanced.recorded_forget key slot
      exact ⟨after.weighed, after.whole⟩
  | _ => exact ⟨⟨balanced.weighed.sum, balanced.weighed.bounded⟩, balanced.whole⟩

/-! ### The two tables, in orderly runs -/

def Phase.keeps (key : K) : Phase K V E → Bool
  | .keeping k _ => k = key
  | _ => false

/-- What is kept has a slot; and a slot whose key is not kept has a call that will settle it, which is about to
keep the key where the slot is already filled. -/
structure Paired (c : Cache K V E) : Prop where
  slotted : ∀ key, c.table.slots.get key = none → c.table.kept.get key = none
  settled : ∀ key slot, c.table.slots.get key = some slot → c.table.kept.get key = none →
    ∃ phase ∈ c.calls, phase.attached key slot
  filled : ∀ key slot, c.table.slots.get key = some slot → (c.slots key slot).stored.isSome →
    c.table.kept.get key = none → ∃ phase ∈ c.calls, phase.keeps key

omit [DecidableEq K] in
theorem exists_after_move {p : Phase K V E → Prop} (new : Phase K V E) (own : c.calls[id]? = some old)
    (some_ : ∃ phase ∈ c.calls, p phase) (moved : p old → ∃ phase ∈ c.calls.set id new, p phase) :
    ∃ phase ∈ c.calls.set id new, p phase := by
  obtain ⟨phase, mem, holds⟩ := some_
  obtain ⟨other, found⟩ := List.mem_iff_getElem?.mp mem
  by_cases same : id = other
  · subst same
    obtain rfl : old = phase := Option.some.inj (own.symm.trans found)
    exact moved holds
  · refine ⟨phase, List.mem_iff_getElem?.mpr ⟨other, ?_⟩, holds⟩
    rw [List.getElem?_set_ne same]
    exact found

omit [DecidableEq K] in
theorem mem_set_own (own : c.calls[id]? = some old) (new : Phase K V E) : new ∈ c.calls.set id new := by
  obtain ⟨bound, -⟩ := List.getElem?_eq_some_iff.mp own
  exact List.mem_set bound new

omit [DecidableEq K] in
theorem mem_set_of_others {new : Phase K V E} (other : phase ∈ c.calls.eraseIdx id) :
    phase ∈ c.calls.set id new := by
  obtain ⟨i, ne, found⟩ := List.mem_eraseIdx_iff_getElem?.mp other
  refine List.mem_iff_getElem?.mpr ⟨i, ?_⟩
  rw [List.getElem?_set_ne (Ne.symm ne)]
  exact found

theorem attached_of_keeps (keeps : phase.keeps key) (slot : Nat) : phase.attached key slot := by
  cases phase with
  | keeping k value => exact keeps
  | _ => cases keeps

theorem Paired.move {new : Phase K V E} {slots : K → Nat → Slot V} (paired : Paired c)
    (own : c.calls[id]? = some old) (idle : ∀ key, old.keeps key = false)
    (fills : ∀ key slot, (slots key slot).stored.isSome → (c.slots key slot).stored.isSome ∨ new.keeps key)
    (leaves : ∀ key slot, old.attached key slot → c.table.slots.get key = some slot →
      c.table.kept.get key = none → ∃ phase ∈ c.calls.set id new, phase.attached key slot) :
    Paired ({ c with slots }.move id new) where
  slotted := paired.slotted
  settled := by
    intro key slot there absent
    exact exists_after_move new own (paired.settled key slot there absent)
      fun was => leaves key slot was there absent
  filled := by
    intro key slot there full absent
    rcases fills key slot full with before | keeps
    · refine exists_after_move new own (paired.filled key slot there before absent) fun was => ?_
      rw [idle key] at was
      cases was
    · exact ⟨new, mem_set_own own new, keeps⟩

theorem slots_put {cell : Slot V} {slot' : Nat} :
    (c.put key slot cell).slots k slot' = if k = key ∧ slot' = slot then cell else c.slots k slot' := by
  change Function.update c.slots key (Function.update (c.slots key) slot cell) k slot' = _
  by_cases same : k = key
  · subst same
    rw [Function.update_self, Function.update_apply]
    simp
  · rw [Function.update_of_ne same]
    simp [same]

theorem stored_put_held {held : Bool} {slot' : Nat} :
    ((c.put key slot { c.slots key slot with held }).slots k slot').stored = (c.slots k slot').stored := by
  rw [slots_put]
  split
  · next own => rw [own.1, own.2]
  · rfl

theorem attached_of_may (may : c.MayLeave id key slot) (there : c.table.slots.get key = some slot)
    (absent : c.table.kept.get key = none) (new : Phase K V E) :
    ∃ phase ∈ c.calls.set id new, phase.attached key slot := by
  rcases may with elsewhere | kept | others
  · exact absurd there elsewhere
  · rw [absent] at kept
    cases kept
  · obtain ⟨phase, mem, attached⟩ := List.any_eq_true.mp others
    exact ⟨phase, mem_set_of_others mem, attached⟩

/-- A new call, where the tables are as they were but for a slot that is made for it. -/
theorem Paired.call {slots : K → Nat → Slot V} {table : Table K} {made : Nat} {sources : Sources}
    (paired : Paired c) (kept : table.kept = c.table.kept) (own : table.slots.get key = some slot)
    (empty : c.table.slots.get key = some slot ∨ c.table.slots.get key = none ∧ (slots key slot).stored = none)
    (others : ∀ k ≠ key, table.slots.get k = c.table.slots.get k)
    (same : ∀ k slot', c.table.slots.get k = some slot' → (slots k slot').stored = (c.slots k slot').stored) :
    Paired { c with table, slots, made, calls := c.calls ++ [.waiting key slot sources c.now] } where
  slotted := by
    intro k none_
    change table.slots.get k = none at none_
    change table.kept.get k = none
    rw [kept]
    by_cases mine : k = key
    · subst mine
      rw [own] at none_
      cases none_
    · exact paired.slotted k (others k mine ▸ none_)
  settled := by
    intro k slot' there absent
    change table.slots.get k = some slot' at there
    change table.kept.get k = none at absent
    by_cases mine : k = key
    · subst mine
      obtain rfl : slot = slot' := Option.some.inj (own.symm.trans there)
      exact ⟨_, List.mem_append_right _ (List.mem_singleton_self _), by simp [Phase.attached]⟩
    · rw [others k mine] at there
      rw [kept] at absent
      obtain ⟨phase, mem, attached⟩ := paired.settled k slot' there absent
      exact ⟨phase, List.mem_append_left _ mem, attached⟩
  filled := by
    intro k slot' there full absent
    change table.slots.get k = some slot' at there
    change (slots k slot').stored.isSome at full
    change table.kept.get k = none at absent
    have before : c.table.slots.get k = some slot' := by
      by_cases mine : k = key
      · subst mine
        obtain rfl : slot = slot' := Option.some.inj (own.symm.trans there)
        rcases empty with before | ⟨-, nothing⟩
        · exact before
        · rw [nothing] at full
          cases full
      · rw [← others k mine]
        exact there
    rw [same k slot' before] at full
    rw [kept] at absent
    obtain ⟨phase, mem, keeps⟩ := paired.filled k slot' before full absent
    exact ⟨phase, List.mem_append_left _ mem, keeps⟩

/-- A call's last critical section: each key is left to the other calls, or is in both tables, or in neither. -/
theorem Paired.retable {after : Table K} {new : Phase K V E} (paired : Paired c) (own : c.calls[id]? = some old)
    (each : ∀ k,
      (after.kept.get k = c.table.kept.get k ∧ after.slots.get k = c.table.slots.get k ∧
        ∀ slot, c.table.slots.get k = some slot → old.attached k slot = false) ∨
      (after.kept.get k = none ∧ after.slots.get k = none) ∨
      ((after.kept.get k).isSome ∧ (after.slots.get k).isSome)) :
    Paired ({ c with table := after }.move id new) where
  slotted := by
    intro k none_
    change after.slots.get k = none at none_
    change after.kept.get k = none
    rcases each k with ⟨kept, slots, -⟩ | ⟨kept, -⟩ | ⟨-, there⟩
    · rw [kept]
      exact paired.slotted k (slots ▸ none_)
    · exact kept
    · rw [none_] at there
      cases there
  settled := by
    intro k slot' there absent
    change after.slots.get k = some slot' at there
    change after.kept.get k = none at absent
    rcases each k with ⟨kept, slots, other⟩ | ⟨-, none_⟩ | ⟨held, -⟩
    · rw [slots] at there
      rw [kept] at absent
      refine exists_after_move new own (paired.settled k slot' there absent) fun was => ?_
      rw [other slot' there] at was
      cases was
    · rw [there] at none_
      cases none_
    · rw [absent] at held
      cases held
  filled := by
    intro k slot' there full absent
    change after.slots.get k = some slot' at there
    change after.kept.get k = none at absent
    rcases each k with ⟨kept, slots, other⟩ | ⟨-, none_⟩ | ⟨held, -⟩
    · rw [slots] at there
      rw [kept] at absent
      refine exists_after_move new own (paired.filled k slot' there full absent) fun was => ?_
      have attached := attached_of_keeps was slot'
      rw [other slot' there] at attached
      cases attached
    · rw [there] at none_
      cases none_
    · rw [absent] at held
      cases held

theorem Paired.kept {value : V} {new : Phase K V E} (paired : Paired c) (sum : c.table.weight =
    c.table.kept.total Prod.fst)
    (own : c.calls[id]? = some (.keeping key value)) (tidy : (c.table.slots.get key).isSome) (w : Nat) :
    Paired ((c.recorded (c.table.keep budget key w)).move id new) := by
  obtain ⟨after, made, -, held, slots, others⟩ := Table.keep_eq budget sum key w
  rw [made]
  refine paired.retable own fun k => ?_
  by_cases mine : k = key
  · subst mine
    rw [slots]
    exact .inr (.inr ⟨held, tidy⟩)
  · rcases others k mine with ⟨same, there⟩ | away
    · exact .inl ⟨same, there, fun _ _ => by simp [Phase.attached, Ne.symm mine]⟩
    · exact .inr (.inl away)

theorem Paired.forgot {answer : Except E V} {new : Phase K V E} (paired : Paired c)
    (weighed : Weighed budget c.table) (own : c.calls[id]? = some (.forgetting key slot answer))
    (tidy : c.Tidy id (.forgetting key slot answer)) :
    Paired ((c.recorded (c.table.forget key slot)).move id new) := by
  obtain ⟨after, made, -, kept, slots⟩ := Table.forget_eq weighed key slot
  rw [made]
  refine paired.retable own fun k => ?_
  rw [kept, slots]
  by_cases mine : k = key
  · subst mine
    by_cases same : c.table.slots.get k = some slot
    · simp [same]
    · rcases tidy with none_ | own_ | absent
      · simp [none_]
      · exact absurd own_ same
      · refine .inl ⟨by simp [absent], by simp [same], fun slot' there => ?_⟩
        have ne : slot ≠ slot' := fun eq => same (eq ▸ there)
        simp [Phase.attached, ne]
  · refine .inl ⟨by simp [mine], by simp [mine], fun _ _ => ?_⟩
    simp [Phase.attached, Ne.symm mine]

theorem tidy_of_orderly (orderly : Orderly c a c') (ends : a.ends = some id) (own : c.calls[id]? = some phase) :
    c.Tidy id phase := orderly id ends phase own

theorem Paired.step (paired : Paired c) (balanced : Balanced memo.budget c) (taken : step memo c a = some c')
    (orderly : Orderly c a c') : Paired c' := by
  cases did_of_step taken with
  | found sources there =>
      exact paired.call rfl there (.inl there) (fun _ _ => rfl) fun _ _ _ => rfl
  | @made key sources absent =>
      refine paired.call rfl (by simp [Entries.get_set]) (.inr ⟨absent, by simp [slots_put]⟩)
        (fun k other => by simp [Entries.get_set, other]) fun k slot' there => ?_
      rw [slots_put, if_neg]
      rintro ⟨rfl, -⟩
      rw [absent] at there
      cases there
  | @served id key slot sources since stored own there =>
      refine paired.move own (fun _ => rfl) (fun _ _ full => .inl full) fun k slot' was held absent => ?_
      -- the slot is filled, so that the call that filled it has yet to keep it
      obtain ⟨rfl, rfl⟩ : key = k ∧ slot = slot' := by simpa [Phase.attached] using was
      have keeper := exists_after_move (.answered (.ok stored.value)) own
        (paired.filled key slot held (by rw [there]; rfl) absent) (by simp [Phase.keeps])
      obtain ⟨phase, mem, keeps⟩ := keeper
      exact ⟨phase, mem, attached_of_keeps keeps slot⟩
  | @locked id key slot sources since own =>
      refine paired.move own (fun _ => rfl) (fun _ _ full => .inl ?_) fun k slot' was _ _ => ?_
      · rw [← stored_put_held]
        exact full
      · exact ⟨_, mem_set_own own _, was⟩
  | expired own =>
      have tidy := tidy_of_orderly orderly rfl own
      refine paired.move own (fun _ => rfl) (fun _ _ full => .inl full) fun k slot' was held absent => ?_
      obtain ⟨rfl, rfl⟩ : _ = k ∧ _ = slot' := by simpa [Phase.attached] using was
      exact attached_of_may tidy held absent _
  | answered own => exact paired.move own (fun _ => rfl) (fun _ _ full => .inl full) (by simp [Phase.attached])
  | @stored id key slot sources value own =>
      refine paired.move own (fun _ => rfl) (fun k slot' full => ?_) fun k slot' was _ _ => ?_
      · change ((c.put key slot _).slots k slot').stored.isSome at full
        rw [slots_put] at full
        split at full
        · next mine => exact .inr (by simp [Phase.keeps, mine.1])
        · exact .inl full
      · obtain ⟨rfl, rfl⟩ : key = k ∧ slot = slot' := by simpa [Phase.attached] using was
        exact ⟨_, mem_set_own own _, by simp [Phase.attached]⟩
  | @cleared id key slot sources outcome answer own =>
      refine paired.move own (fun _ => rfl) (fun k slot' full => .inl ?_) fun k slot' was _ _ => ?_
      · change ((c.put key slot _).slots k slot').stored.isSome at full
        rw [slots_put] at full
        split at full
        · cases full
        · exact full
      · exact ⟨_, mem_set_own own _, was⟩
  | kept own => exact paired.kept balanced.weighed.sum own (tidy_of_orderly orderly rfl own) _
  | forgot own => exact paired.forgot balanced.weighed own (tidy_of_orderly orderly rfl own)
  | left own =>
      have tidy := tidy_of_orderly orderly rfl own
      refine paired.move own (fun _ => rfl) (fun _ _ full => .inl full) fun k slot' was held absent => ?_
      obtain ⟨rfl, rfl⟩ : _ = k ∧ _ = slot' := by simpa [Phase.attached] using was
      exact attached_of_may tidy held absent _
  | dropped own =>
      have tidy := tidy_of_orderly orderly rfl own
      refine paired.move own (fun _ => rfl) (fun _ _ full => .inl ?_) fun k slot' was held absent => ?_
      · rw [← stored_put_held]
        exact full
      · obtain ⟨rfl, rfl⟩ : _ = k ∧ _ = slot' := by simpa [Phase.attached] using was
        exact attached_of_may tidy held absent _
  | gone own => exact paired.move own (fun _ => rfl) (fun _ _ full => .inl full) (by simp [Phase.attached])
  | passed => exact ⟨paired.slotted, paired.settled, paired.filled⟩

/-! ### The books -/

def Cache.Idle (c : Cache K V E) : Prop := ∀ phase ∈ c.calls, phase.inProgress = false

def Table.Matched (table : Table K) : Prop := ∀ key, key ∈ table.slots.keys ↔ key ∈ table.kept.keys

theorem matched_iff {table : Table K} :
    table.Matched ↔ ∀ key, (table.slots.get key).isSome = (table.kept.get key).isSome := by
  refine forall_congr' fun key => ?_
  rw [← Entries.hasKey_iff, ← Entries.hasKey_iff, Entries.hasKey, Entries.hasKey, ← Bool.eq_iff_iff]

/-- What the tables are to be where no call is in progress. -/
structure Books (budget : Nat) (c : Cache K V E) : Prop where
  matched : c.table.Matched
  weight : c.table.weight = c.table.kept.total Prod.fst
  bounded : c.table.weight ≤ budget ∨ ∃ entry ∈ c.table.kept.toList, budget < entry.2.1
  whole : c.underflowed = false

theorem Phase.not_attached (ended : phase.inProgress = false) : phase.attached key slot = false := by
  cases phase with
  | answered _ => rfl
  | cancelled => rfl
  | _ => cases ended

theorem Paired.matched (paired : Paired c) (idle : c.Idle) : c.table.Matched := by
  rw [matched_iff]
  intro key
  cases there : c.table.slots.get key with
  | none =>
      rw [paired.slotted key there]
      rfl
  | some slot =>
      cases held : c.table.kept.get key with
      | some _ => rfl
      | none =>
          obtain ⟨phase, mem, attached⟩ := paired.settled key slot there held
          rw [Phase.not_attached (idle phase mem)] at attached
          cases attached

omit [DecidableEq K] in
theorem Weighed.above {table : Table K} (weighed : Weighed budget table) :
    table.weight ≤ budget ∨ ∃ entry ∈ table.kept.toList, budget < entry.2.1 := by
  by_cases within : table.weight ≤ budget
  · exact .inl within
  · obtain ⟨entry, alone⟩ := weighed.bounded.resolve_left within
    refine .inr ⟨entry, by simp [alone], ?_⟩
    have own : table.weight = entry.2.1 := by
      rw [weighed.sum, Entries.total, alone]
      simp
    omega

theorem balanced_of_run {as : List (Act K V E)} {R : Cache K V E → Act K V E → Cache K V E → Prop}
    (run : Run (step memo) R .start as c) : Balanced memo.budget c := by
  have begins : Balanced memo.budget (.start : Cache K V E) := ⟨⟨rfl, .inl (Nat.zero_le _)⟩, rfl⟩
  exact run.invariant _ begins fun _ _ _ balanced taken _ => balanced.step taken

theorem paired_of_run {as : List (Act K V E)} (run : Run (step memo) Orderly .start as c) : Paired c := by
  have begins : Paired (.start : Cache K V E) := ⟨fun _ _ => rfl, nofun, nofun⟩
  have both : Paired c ∧ Balanced memo.budget c := by
    refine run.invariant (fun c => Paired c ∧ Balanced memo.budget c)
      ⟨begins, balanced_of_run (R := Orderly) .nil⟩ fun _ _ _ inv taken orderly => ?_
    exact ⟨inv.1.step inv.2 taken orderly, inv.2.step taken⟩
  exact both.1

theorem parted_of_disorderly (balanced : Balanced memo.budget c) (taken : step memo c a = some c')
    (disorderly : ¬ Orderly c a c') : ¬ c'.table.Matched := by
  have untidy : ∃ id phase, a.ends = some id ∧ c.calls[id]? = some phase ∧ ¬ c.Tidy id phase := by
    simpa [Orderly] using disorderly
  obtain ⟨id, phase, ends, own, untidy⟩ := untidy
  -- a call that goes at an await leaves a slot whose key is not kept
  have left : ∀ {key slot}, ¬ c.MayLeave id key slot → ¬ c.table.Matched := by
    intro key slot stuck matched
    simp only [Cache.MayLeave, not_or, not_not] at stuck
    obtain ⟨there, absent, -⟩ := stuck
    rw [← matched_iff.mp matched key, there] at absent
    exact absent rfl
  cases did_of_step taken with
  | expired own' =>
      cases ends
      cases own.symm.trans own'
      exact left untidy
  | left own' =>
      cases ends
      cases own.symm.trans own'
      exact left untidy
  | dropped own' =>
      cases ends
      cases own.symm.trans own'
      exact left untidy
  | gone own' =>
      cases ends
      cases own.symm.trans own'
      exact absurd trivial untidy
  | @kept _ key value own' =>
      cases ends
      cases own.symm.trans own'
      obtain ⟨after, made, -, held, slots, -⟩ := Table.keep_eq memo.budget balanced.weighed.sum key
        (memo.weigh value + overhead)
      intro matched
      have same := matched_iff.mp matched key
      rw [made] at same
      change (after.slots.get key).isSome = (after.kept.get key).isSome at same
      rw [slots, held] at same
      exact untidy same
  | @forgot _ key slot answer own' =>
      cases ends
      cases own.symm.trans own'
      obtain ⟨after, made, -, kept, slots⟩ := Table.forget_eq balanced.weighed key slot
      simp only [Cache.Tidy, not_or] at untidy
      obtain ⟨there, other, -⟩ := untidy
      intro matched
      have same := matched_iff.mp matched key
      rw [made] at same
      change (after.slots.get key).isSome = (after.kept.get key).isSome at same
      rw [kept, slots, if_neg (fun both => other both.2), if_pos rfl] at same
      exact there (Option.not_isSome_iff_eq_none.mp (by rw [same]; exact Bool.false_ne_true))
  | _ => cases ends

end Runs

/-- The weights are right in every run. The two tables hold the same keys whenever no call is in progress, in every
run whose steps are orderly; a step that is not leaves a key in one of them alone. -/
theorem books_are_kept (memo : Memo V) :
    (∀ as (c : Cache K V E), Run (step memo) Any .start as c → Balanced memo.budget c) ∧
      (∀ as (c : Cache K V E), Run (step memo) Orderly .start as c → c.Idle → Books memo.budget c) ∧
      ∀ as (c : Cache K V E) a c', Run (step memo) Any .start as c → step memo c a = some c' →
        ¬ Orderly c a c' → ¬ c'.table.Matched := by
  refine ⟨fun as c run => balanced_of_run run, fun as c run idle => ?_, fun as c a c' run taken disorderly => ?_⟩
  · have balanced := balanced_of_run run
    have paired := paired_of_run run
    exact ⟨paired.matched idle, balanced.weighed.sum, balanced.weighed.above, balanced.whole⟩
  · exact parted_of_disorderly (balanced_of_run run) taken disorderly

/-! ### The memo of rendered documents

Its books are these, where the weights are right. -/

def tableOf (m : Nuget.Memo) : Table DocKey := ⟨m.slots, m.kept, m.weight, m.tick⟩

section Documents

variable {m : Nuget.Memo} {key : DocKey}

theorem erase_of_absent {kept : Entries DocKey (Nat × Nat)} (absent : kept.get key = none) :
    kept.eraseAll [key] = kept := by
  have others : ∀ entry ∈ kept.toList, (!([key].contains entry.1)) = true := by
    rintro ⟨k, entry⟩ mem
    have held := Entries.get_eq_some_iff.mpr mem
    have other : k ≠ key := by
      rintro rfl
      rw [absent] at held
      cases held
    simpa using other
  rw [Entries.eraseAll]
  congr 1
  exact List.filter_eq_self.mpr others

theorem unkeep_tableOf (sum : m.weight = m.kept.total Prod.fst) (key : DocKey) :
    (tableOf m).unkeep key = some (tableOf { m with
      kept := m.kept.eraseAll [key]
      weight := m.weight - ((m.kept.get key).map Prod.fst).getD 0 }) := by
  rw [Table.unkeep]
  change (match m.kept.get key with
    | some (w, _) => Table.lighten { tableOf m with kept := m.kept.erase key } w
    | none => some (tableOf m)) = _
  cases held : m.kept.get key with
  | none => rw [erase_of_absent held]; rfl
  | some entry =>
      have split : m.kept.total Prod.fst = entry.1 + (m.kept.erase key).total Prod.fst :=
        Entries.total_erase Prod.fst held
      have fits : entry.1 ≤ m.weight := by omega
      exact if_pos fits

theorem forget_tableOf (sum : m.weight = m.kept.total Prod.fst) (key : DocKey) (slot : Nat) :
    (tableOf m).forget key slot = some (tableOf (m.forget key slot)) :=
  unkeep_tableOf (m := { m with
    slots := if m.slots.get key = some slot then m.slots.erase key else m.slots }) sum key

theorem evict_tableOf (budget rounds : Nat) (key : DocKey) (sum : m.weight = m.kept.total Prod.fst) :
    Table.evict budget key rounds (tableOf m) = some (tableOf (Nuget.Memo.evict budget key rounds m)) := by
  induction rounds generalizing m with
  | zero => rfl
  | succ rounds ih =>
      rw [Table.evict, Nuget.Memo.evict]
      change (if m.weight ≤ budget then _ else _) = _
      split
      · rfl
      · have same : (tableOf m).oldest key = m.oldest key := rfl
        rw [same]
        cases m.oldest key with
        | none => rfl
        | some old =>
            obtain ⟨less, made, gone⟩ := Table.unkeep_eq (tableOf m) sum old
            have same := unkeep_tableOf sum old
            rw [made, Option.some.injEq] at same
            simp only [made, Option.bind_some]
            subst same
            exact ih (m := { m with
              slots := m.slots.eraseAll [old]
              kept := m.kept.eraseAll [old]
              weight := m.weight - ((m.kept.get old).map Prod.fst).getD 0 }) gone.sum

theorem keep_tableOf (budget : Nat) (sum : m.weight = m.kept.total Prod.fst) (key : DocKey) (w : Nat) :
    (tableOf m).keep budget key w = some (tableOf (m.keep budget key w)) := by
  let kept := m.kept.set key (w, m.tick + 1)
  let before := ((m.kept.get key).map Prod.fst).getD 0
  have total : kept.total Prod.fst = w + (m.kept.erase key).total Prod.fst := Entries.total_set Prod.fst
  have light : before ≤ m.weight ∧ m.weight - before = (m.kept.erase key).total Prod.fst := by
    cases held : m.kept.get key with
    | none =>
        have same := Entries.total_erase_of_absent Prod.fst held
        simp only [before, held, Option.map_none, Option.getD_none]
        omega
    | some entry =>
        have split := Entries.total_erase Prod.fst held
        simp only [before, held, Option.map_some, Option.getD_some]
        omega
  have looped := evict_tableOf (m := { m with kept, tick := m.tick + 1, weight := m.weight - before + w })
    budget kept.keys.length key (by change m.weight - before + w = kept.total Prod.fst; omega)
  rw [Entries.keys, List.length_map] at looped
  rw [Nuget.Memo.keep, Table.keep, Entries.keys, List.length_map]
  change (match m.kept.get key with
    | some (v, _) => Table.lighten { tableOf m with tick := m.tick + 1, kept } v
    | none => some { tableOf m with tick := m.tick + 1, kept }).bind _ = _
  cases held : m.kept.get key with
  | none =>
      simp only [before, held, Option.map_none, Option.getD_none] at looped
      exact looped
  | some entry =>
      simp only [before, held, Option.map_some, Option.getD_some] at looped light
      have made : Table.lighten { tableOf m with tick := m.tick + 1, kept } entry.1 =
          some { tableOf m with tick := m.tick + 1, kept, weight := m.weight - entry.1 } := if_pos light.1
      change (Table.lighten { tableOf m with tick := m.tick + 1, kept } entry.1).bind _ = _
      rw [made]
      exact looped

end Documents

/-! ### Runs of the parsed documents -/

section Samples

def body : Json × Nat := (.null, 100)

def hosted : Sources := ⟨["a".toList], false⟩

/-- A call that is cancelled while it computes. -/
def cancelledRun : List (Act Text (Json × Nat) Text) := [.call "k".toList hosted, .acquire 0, .cancel 0]

/-- A call fails while another waits for its slot, and that one succeeds. -/
def retriedRun : List (Act Text (Json × Nat) Text) :=
  [.call "k".toList hosted, .call "k".toList hosted, .acquire 0, .computed 0 (.error []), .record 0, .acquire 1,
    .computed 1 (.ok (body, true)), .record 1]

/-- Two calls of one key, the second of which joins the first; and a partial answer of another key. -/
def orderlyRun : List (Act Text (Json × Nat) Text) :=
  [.call "k".toList hosted, .call "k".toList hosted, .acquire 0, .computed 0 (.ok (body, true)), .acquire 1,
    .record 0, .call "j".toList hosted, .acquire 2, .computed 2 (.ok (body, false)), .record 2]

end Samples

theorem orderly_run_keeps_books :
    ∃ c, Run (step parsed) Orderly .start orderlyRun c ∧ c.Idle ∧ c.table.weight = 356 ∧ Books parsed.budget c :=
        by
  obtain ⟨c, run, tested⟩ := Run.of_test (step parsed) Orderly .start orderlyRun
    (fun c => c.calls.all (fun phase => !phase.inProgress) && c.table.weight == 356) (by decide +kernel)
  simp only [Bool.and_eq_true, List.all_eq_true, Bool.not_eq_true', beq_iff_eq] at tested
  exact ⟨c, run, tested.1, tested.2, (books_are_kept parsed).2.1 _ c run tested.1⟩

/-- A slot without an entry, and an entry without a slot. -/
theorem tables_part_without_calls :
    (¬ ∀ as (c : Cache Text (Json × Nat) Text),
        Run (step parsed) Any .start as c → c.Idle → Books parsed.budget c) ∧
      ∀ as ∈ [cancelledRun, retriedRun], ∃ c, Run (step parsed) Any .start as c ∧ c.Idle ∧ ¬ c.table.Matched := by
  have parts : ∀ as ∈ [cancelledRun, retriedRun], ∃ c, Run (step parsed) Any .start as c ∧ c.Idle ∧
      ¬ c.table.Matched := by
    intro as mem
    obtain ⟨c, run, tested⟩ := Run.of_test (step parsed) Any .start as
      (fun c => c.calls.all (fun phase => !phase.inProgress) &&
        (c.table.slots.get "k".toList).isSome != (c.table.kept.get "k".toList).isSome)
      (by revert as; decide +kernel)
    simp only [Bool.and_eq_true, List.all_eq_true, Bool.not_eq_true', bne_iff_ne] at tested
    exact ⟨c, run, tested.1, fun matched => tested.2 (matched_iff.mp matched _)⟩
  refine ⟨fun kept => ?_, parts⟩
  obtain ⟨c, run, idle, parted⟩ := parts cancelledRun (by simp)
  exact parted (kept _ c run idle).matched

end OpenCargo.Nuget.Merged
