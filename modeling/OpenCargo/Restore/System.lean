/-
Module: OpenCargo.Restore.System
Purpose: The reclaimer and its high-water mark together (`app/reclaim.rs` over `app/mark.rs`): a batch
  is permitted, and then it claims and deletes. The database of any moment can be kept and put back
  later, under a store that has moved on.
Trusted boundary: none
Main exports: step, snapshot, restore, guard
-/
import OpenCargo.HighWater.Safety
import OpenCargo.Reclaim.Safety

namespace OpenCargo.Restore

open OpenCargo.Lib
open OpenCargo.Reclaim (Ref Tables Referenced)

variable {β : Type}

/-- A batch under way, and the counter its permit recorded. `later` is history: it was permitted after
the snapshot was taken. -/
structure Batch where
  counter : Nat
  later : Bool
deriving Repr, DecidableEq, Inhabited

/-- The mark's side, the reclamation's side, and the batches, by who runs them. `deletions` is history:
the keys whose object a batch deleted since the snapshot was taken. -/
structure World (β : Type) where
  water : HighWater.World
  state : Reclaim.State β
  batches : Nat → Option Batch
  deletions : List Text

inductive Act (β : Type) where
  | mark (act : HighWater.Act)
  | reclaim (act : Reclaim.Act β)
  /-- A batch that holds no claim ends. -/
  | done (id : Nat)

/-- A call of `permit` that is granted its counter is the start of a batch. -/
def permitted (before after : HighWater.World) (act : HighWater.Act) (batches : Nat → Option Batch) :
    Nat → Option Batch :=
  match act with
  | .next id =>
      if after.granted.length > before.granted.length then
        Function.update batches id (after.granted.head?.map fun grant => ⟨grant.counter, true⟩)
      else batches
  | _ => batches

def markStep (w : World β) (act : HighWater.Act) : Option (World β) :=
  (HighWater.step w.water act).map fun water =>
    { w with
      water := water
      state := { w.state with epoch := water.row.epoch }
      batches := permitted w.water water act w.batches }

/-- Who runs a batch does not ask for another permit meanwhile. -/
def free (w : World β) : HighWater.Act → Bool
  | .call id => (w.batches id).isNone
  | _ => true

/-- The keys an action of a reclaimer deletes the objects of. -/
def deletes (state : Reclaim.State β) : Reclaim.Act β → List Text
  | .delete id => ((state.holder id).map Reclaim.Holder.key).toList
  | .deleteBatch _ keys => keys
  | _ => []

def reclaimStep (w : World β) (act : Reclaim.Act β) : Option (World β) :=
  (Reclaim.step w.state act).map fun state =>
    { w with state := state, deletions := deletes w.state act ++ w.deletions }

/-- Only a batch claims; the epoch moves with the mark's side. -/
def enabled (w : World β) : Reclaim.Act β → Bool
  | .claim id _ _ _ _ _ => (w.batches id).isSome
  | .newEpoch _ => false
  | _ => true

def step (w : World β) : Act β → Option (World β)
  | .mark act => if free w act then markStep w act else none
  | .reclaim act => if enabled w act then reclaimStep w act else none
  | .done id =>
      if (w.state.holder id).isNone then some { w with batches := Function.update w.batches id none }
      else none

/-- Any database and any store, with nobody at work. -/
def start (row : HighWater.Epoch) (mark : Option HighWater.Mark) (rows : List Ref) (tables : Tables)
    (objects : Objects β) : World β where
  water := HighWater.start row mark
  state := Reclaim.start rows tables row.epoch objects
  batches := fun _ => none
  deletions := []

/-! ### Keeping a database, and putting it back -/

/-- A moment whose database is kept: the history begins here. -/
def snapshot (w : World β) : World β :=
  { w with
    batches := fun id => (w.batches id).map fun batch => { batch with later := false }
    deletions := [] }

/-- The database of `kept` under the store of `now`: nobody is at work. -/
def restore (kept now : World β) : World β where
  water := { now.water with row := kept.water.row, calls := fun _ => none }
  state := { now.state with
    rows := kept.state.rows
    tables := kept.state.tables
    epoch := kept.water.row.epoch
    handed := []
    holders := []
    placed := []
    uploads := [] }
  batches := fun _ => none
  deletions := []

/-- What `guard` reports. -/
def guard (w : World β) : Except HighWater.MarkError HighWater.Standing :=
  HighWater.compare w.water.row w.water.mark

/-- What a database needs of the store: what its rows reference, and what they can still come to
reuse. -/
def Needed (kept : World β) (key : Text) : Prop :=
  Referenced kept.state.rows key ∨ ∃ logical,
    Reclaim.reusable kept.state.rows kept.state.tables.claimed logical kept.water.row.epoch = some key

end OpenCargo.Restore
