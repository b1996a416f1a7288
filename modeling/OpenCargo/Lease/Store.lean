/-
Module: OpenCargo.Lease.Store
Purpose: The writer lease (`app/lease.rs`, `adapters/sqlite/leases.rs`): the one row of the lease table,
  and the instances that take it, renew it and give it up, each with the flag its handle reads and the
  cleanup run that asks the handle before it begins.
Trusted boundary: that a statement on the row is atomic, and that the clock a call reads is the clock when
  its statement reaches the store; the name of the holder that a refused attempt reads is read with it
Main exports: Instance, System, Act, step
-/
import OpenCargo.Domain
import OpenCargo.Lib.Run

namespace OpenCargo.Lease

open OpenCargo.Lib

/-! ### The row -/

variable {ω : Type} [DecidableEq ω]

structure LeaseRow (ω : Type) where
  owner : ω
  version : Text
  acquiredAt : Int
  renewedAt : Int
deriving Repr, DecidableEq

inductive Acquired (ω : Type) where
  | taken (row : LeaseRow ω)
  | heldBy (holder : Option (LeaseRow ω))
deriving Repr, DecidableEq

/-- Whether the `INSERT … ON CONFLICT … WHERE` of an attempt writes the row. -/
def free (row : Option (LeaseRow ω)) (owner : ω) (now : Instant) (staleAfter : Nat) : Bool :=
  match row with
  | none => true
  | some held => held.owner = owner || held.renewedAt < bindTs (now - staleAfter)

def acquire (row : Option (LeaseRow ω)) (owner : ω) (version : Text) (now : Instant) (staleAfter : Nat) :
    Acquired ω × Option (LeaseRow ω) :=
  if free row owner now staleAfter then
    let taken : LeaseRow ω := ⟨owner, version, bindTs now, bindTs now⟩
    (.taken taken, some taken)
  else (.heldBy row, row)

/-- `Ok(false)`: the lease is someone else's now. -/
def renew (row : Option (LeaseRow ω)) (owner : ω) (now : Instant) : Bool × Option (LeaseRow ω) :=
  match row with
  | some held =>
      if held.owner = owner then (true, some { held with renewedAt := bindTs now }) else (false, row)
  | none => (false, none)

def release (row : Option (LeaseRow ω)) (owner : ω) : Option (LeaseRow ω) :=
  row.filter fun held => held.owner ≠ owner

/-! ### The instances -/

inductive LeaseError (ω : Type) where
  | held (owner : ω) (version : Text) (renewedAt : Int)
  | store
deriving Repr, DecidableEq

/-- What a refused attempt is refused with. A holder that vanished is a retry, not a refusal. -/
def refusal : Option (LeaseRow ω) → LeaseError ω
  | some row => .held row.owner row.version row.renewedAt
  | none => .store

inductive Phase (ω : Type) where
  /-- In `LeaseGuard::take`. -/
  | waiting
  | refused (why : LeaseError ω)
  /-- With its guard, whose renewals are running. -/
  | guarding
  /-- Its guard was released or dropped, and the process goes on. -/
  | givenUp
  /-- The process has ended, in whatever way. -/
  | ended
deriving Repr, DecidableEq

structure Instance (ω : Type) where
  version : Text
  phase : Phase ω
  /-- What the handle reads; false where there is no handle. -/
  held : Bool
  /-- A run of `RunCleanup` that found the lease held is in progress. -/
  running : Bool
  /-- When the instance last wrote the row. -/
  reached : Int
deriving Repr, DecidableEq

def Instance.new (version : Text) : Instance ω := ⟨version, .waiting, false, false, 0⟩

/-- Every instance has an owner name of its own. -/
structure System (ω : Type) where
  now : Int
  row : Option (LeaseRow ω)
  instances : ω → Instance ω

/-- Before any instance takes the lease: the row may be what an earlier process left. -/
def begin_ (now : Instant) (row : Option (LeaseRow ω)) (versions : ω → Text) : System ω :=
  ⟨now, row, fun i => .new (versions i)⟩

/-- How a statement goes. -/
inductive Fate where
  | served
  /-- It is not carried out, and answered with an error. -/
  | refused
  /-- It is carried out, and answered with an error. -/
  | lost
deriving Repr, DecidableEq

inductive Act (ω : Type) where
  | pass (time : Nat)
  /-- `last`: the time to wait is over after it. -/
  | attempt (i : ω) (fate : Fate) (last : Bool)
  | renewal (i : ω) (fate : Fate)
  | release (i : ω) (fate : Fate)
  | drop (i : ω)
  | exit (i : ω)
  | beginRun (i : ω)
  | endRun (i : ω)
deriving Repr, DecidableEq

namespace System

def set (s : System ω) (i : ω) (self : Instance ω) : System ω :=
  { s with instances := fun j => if j = i then self else s.instances j }

theorem set_self {s : System ω} {i : ω} {self : Instance ω} : (s.set i self).instances i = self := if_pos rfl

theorem set_ne {s : System ω} {i j : ω} {self : Instance ω} (other : j ≠ i) :
    (s.set i self).instances j = s.instances j := if_neg other

/-- One round of `take`. -/
def attempt (staleAfter : Nat) (s : System ω) (i : ω) (fate : Fate) (last : Bool) : System ω :=
  let self := s.instances i
  let wrote := free s.row i s.now staleAfter
  let answer := acquire s.row i self.version s.now staleAfter
  let refuse (why : LeaseError ω) : Phase ω := if last then .refused why else .waiting
  match fate, answer.1 with
  | .refused, _ => s.set i { self with phase := refuse .store }
  | .lost, _ =>
      { s with row := answer.2 }.set i
        { self with phase := refuse .store, reached := if wrote then s.now else self.reached }
  | .served, .taken _ =>
      { s with row := answer.2 }.set i { self with phase := .guarding, held := true, reached := s.now }
  | .served, .heldBy holder => s.set i { self with phase := refuse (refusal holder) }

/-- One round of `renew`: a failed renewal never clears the flag, and one that finds the lease foreign
clears it and goes on to win it back. -/
def renewal (staleAfter : Nat) (s : System ω) (i : ω) (fate : Fate) : System ω :=
  let self := s.instances i
  if self.held then
    let answer := renew s.row i s.now
    let reached := if answer.1 then s.now else self.reached
    match fate with
    | .refused => s
    | .lost => { s with row := answer.2 }.set i { self with reached }
    | .served => { s with row := answer.2 }.set i { self with held := answer.1, reached }
  else
    let answer := acquire s.row i self.version s.now staleAfter
    let wrote := free s.row i s.now staleAfter
    let reached := if wrote then s.now else self.reached
    match fate with
    | .refused => s
    | .lost => { s with row := answer.2 }.set i { self with reached }
    | .served => { s with row := answer.2 }.set i { self with held := wrote, reached }

/-- The renewals are stopped, and the lease is given back. The flag is left as it is. -/
def giveBack (s : System ω) (i : ω) (fate : Fate) : System ω :=
  let row := if fate = .refused then s.row else Lease.release s.row i
  { s with row }.set i { s.instances i with phase := .givenUp }

end System

def step (staleAfter : Nat) (s : System ω) : Act ω → Option (System ω)
  | .pass time => some { s with now := s.now + time }
  | .attempt i fate last =>
      if (s.instances i).phase = .waiting then some (s.attempt staleAfter i fate last) else none
  | .renewal i fate =>
      if (s.instances i).phase = .guarding then some (s.renewal staleAfter i fate) else none
  | .release i fate => if (s.instances i).phase = .guarding then some (s.giveBack i fate) else none
  | .drop i =>
      if (s.instances i).phase = .guarding then
        some (s.set i { s.instances i with phase := .givenUp })
      else none
  | .exit i =>
      some (s.set i { s.instances i with phase := .ended, held := false, running := false })
  | .beginRun i =>
      if (s.instances i).held then some (s.set i { s.instances i with running := true }) else none
  | .endRun i => some (s.set i { s.instances i with running := false })

end OpenCargo.Lease
