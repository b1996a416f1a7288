/-
Module: OpenCargo.HighWater.Calls
Purpose: The high-water mark (`app/mark.rs`): the database's `reclaim_epoch` row, the mark object in the
  artifact store, and any number of calls of `permit` over the two, one step for each statement and
  each object access. A call that is never moved again has stopped between two of its steps; a call of
  `guard` alone is a call of `permit` that stops where `guard` returns.
Trusted boundary: a drawn epoch (`randomblob(16)`) is one that was never drawn before
Main exports: Call, World, Act, step
-/
import OpenCargo.Domain
import OpenCargo.Lib.Run

namespace OpenCargo.HighWater

open OpenCargo.Lib

/-! ### The two sides -/

/-- The `reclaim_epoch` row. -/
structure Epoch where
  installation : Text
  epoch : Text
  counter : Nat
  verifyPending : Bool
deriving Repr, DecidableEq, Inhabited

/-- What the store holds about the database that wrote it. -/
structure Mark where
  installation : Text
  epoch : Text
  counter : Nat
deriving Repr, DecidableEq, Inhabited

/-- How the database stands against the mark. -/
inductive Standing where
  | level
  | databaseBehind
  | storageBehind
deriving Repr, DecidableEq, Inhabited

inductive MarkError where
  | foreign (installation : Text)
deriving Repr, DecidableEq, Inhabited

/-- Read-only: what the two sides say of each other. -/
def compare (state : Epoch) : Option Mark → Except MarkError Standing
  | none => .ok (if state.counter = 0 then .level else .storageBehind)
  | some mark =>
      if mark.installation ≠ state.installation then .error (.foreign mark.installation)
      else if mark.epoch ≠ state.epoch ∨ mark.counter > state.counter then .ok .databaseBehind
      else if mark.counter < state.counter then .ok .storageBehind
      else .ok .level

/-- The mark as a database row stands, its counter moved `ahead`: `write` puts the row's own counter,
`reserve` the next one. -/
def Epoch.mark (state : Epoch) (ahead : Nat) : Mark where
  installation := state.installation
  epoch := state.epoch
  counter := state.counter + ahead

/-- A counter crosses into SQLite as an `i64`. -/
def bindCounter (counter : Nat) : Nat := min counter (2 ^ 63 - 1)

/-- `new_epoch`, with the epoch `randomblob` gave. -/
def Epoch.newEpoch (row : Epoch) (drawn : Text) (counter : Nat) : Epoch :=
  { row with epoch := drawn, counter := max row.counter (bindCounter counter), verifyPending := true }

def Epoch.requireVerify (row : Epoch) : Epoch := { row with verifyPending := true }

def Epoch.verified (row : Epoch) (epoch : Text) : Epoch :=
  if row.epoch = epoch then { row with verifyPending := false } else row

/-- `advance`: the row it leaves, when the statement affects it. -/
def Epoch.advance (row : Epoch) (epoch : Text) (counter : Nat) : Option Epoch :=
  if row.epoch = epoch ∧ row.counter < bindCounter counter ∧ row.verifyPending = false then
    some { row with counter := bindCounter counter }
  else none

/-! ### The calls -/

/-- Where a call of `permit` stands, and what it holds there. -/
inductive Phase where
  /-- `guard` has read the row. -/
  | opened (state : Epoch)
  /-- `compare` answered `DatabaseBehind`. -/
  | behind
  /-- The counter of the mark is read again. -/
  | drawing (seen : Nat)
  /-- `new_epoch` has answered, and its row is about to be written as the mark. -/
  | drawn (state : Epoch)
  /-- `compare` answered `StorageBehind`. -/
  | ahead
  /-- The verify is owed. -/
  | owing
  /-- The row is read again, and about to be written as the mark. -/
  | rewriting (state : Epoch)
  /-- `guard` answered `Level`. -/
  | level
  /-- `permit` has read the row again and calls `reserve` on it. -/
  | reserving (state : Epoch)
  /-- The mark is written one ahead of `state`. -/
  | advancing (state : Epoch)
deriving Repr, DecidableEq, Inhabited

/-- A call under way. `undisturbed` is history: since this call last read the mark, no other call has
written the mark, advanced the counter or drawn an epoch. -/
structure Call where
  phase : Phase
  undisturbed : Bool
deriving Repr, DecidableEq, Inhabited

/-- The right to delete that a call of `permit` was granted: the epoch and the counter it recorded. -/
structure Grant where
  epoch : Text
  counter : Nat
deriving Repr, DecidableEq, Inhabited

/-- The row, the mark object and the calls. `used` (the epochs drawn so far) and `granted` (what the
calls that returned `true` recorded) are history. -/
structure World where
  row : Epoch
  mark : Option Mark
  calls : Nat → Option Call
  used : List Text
  granted : List Grant

/-- Any row and any mark, and no call yet. -/
def start (row : Epoch) (mark : Option Mark) : World where
  row := row
  mark := mark
  calls := fun _ => none
  used := row.epoch :: mark.toList.map Mark.epoch
  granted := []

namespace World

/-- Move one call; `none` ends it. -/
def set (world : World) (id : Nat) (call : Option Call) : World :=
  { world with calls := Function.update world.calls id call }

/-- What the mark, the counter and the epoch moving under the other calls leaves of them. -/
def disturb (world : World) (id : Nat) : World :=
  { world with
    calls := fun other =>
      if other = id then world.calls other
      else (world.calls other).map fun call => { call with undisturbed := false } }

/-- `storage.put(layout::MARK, …)` by one call. -/
def put (world : World) (id : Nat) (mark : Mark) : World :=
  { world.disturb id with mark := some mark }

end World

inductive Act where
  /-- `permit` is called, and its guard reads the row. -/
  | call (id : Nat)
  /-- The call takes its next step. -/
  | next (id : Nat)
  /-- The call draws this fresh epoch. -/
  | draw (id : Nat) (epoch : Text)
  /-- A verify that ended lifts the refusal. -/
  | verified (epoch : Text)
deriving Repr, DecidableEq, Inhabited

/-- What reading the mark makes of a call that holds `state`. -/
def compared (world : World) (id : Nat) (state : Epoch) : World :=
  match compare state world.mark with
  | .ok .level => world.set id (some ⟨.level, true⟩)
  | .ok .databaseBehind => world.set id (some ⟨.behind, true⟩)
  | .ok .storageBehind => world.set id (some ⟨.ahead, true⟩)
  | .error _ => world.set id none

/-- `reserve`, up to its write. -/
def reserve (world : World) (id : Nat) (state : Epoch) (undisturbed : Bool) : World :=
  if state.verifyPending then world.set id none
  else (world.put id (state.mark 1)).set id (some ⟨.advancing state, undisturbed⟩)

/-- The last statement of `reserve`. -/
def advance (world : World) (id : Nat) (state : Epoch) : World :=
  match world.row.advance state.epoch (state.counter + 1) with
  | some row =>
      { (world.disturb id).set id none with
        row := row, granted := ⟨state.epoch, state.counter + 1⟩ :: world.granted }
  | none => world.set id none

/-- The next step of a call, by its phase. A drawing call moves by `Act.draw`. -/
def next (world : World) (id : Nat) (undisturbed : Bool) : Phase → Option World
  | .opened state => some (compared world id state)
  | .behind =>
      some (world.set id (some ⟨.drawing ((world.mark.map Mark.counter).getD 0), true⟩))
  | .drawing _ => none
  | .drawn state => some ((world.put id (state.mark 0)).set id none)
  | .ahead =>
      some ({ world with row := world.row.requireVerify }.set id (some ⟨.owing, undisturbed⟩))
  | .owing => some (world.set id (some ⟨.rewriting world.row, undisturbed⟩))
  | .rewriting state => some ((world.put id (state.mark 0)).set id none)
  | .level => some (world.set id (some ⟨.reserving world.row, undisturbed⟩))
  | .reserving state => some (reserve world id state undisturbed)
  | .advancing state => some (advance world id state)

def step (world : World) : Act → Option World
  | .call id =>
      if world.calls id = none then some (world.set id (some ⟨.opened world.row, true⟩)) else none
  | .next id =>
      match world.calls id with
      | some ⟨phase, undisturbed⟩ => next world id undisturbed phase
      | none => none
  | .draw id epoch =>
      match world.calls id with
      | some ⟨.drawing seen, undisturbed⟩ =>
          if epoch ∉ world.used then
            let row := world.row.newEpoch epoch seen
            some ({ world.disturb id with row := row, used := epoch :: world.used }.set id
              (some ⟨.drawn row, undisturbed⟩))
          else none
      | _ => none
  | .verified epoch => some { world with row := world.row.verified epoch }

end OpenCargo.HighWater
