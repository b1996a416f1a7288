/-
Module: OpenCargo.Nuget.Documents
Purpose: The memo of rendered NuGet documents (`registry/nuget/merged.rs`) and the requests that go through it
  (`rendered` of `registry/nuget/read.rs`), step by step: the stamps of the members, the slot and its lock, the
  entries of the members, what is stored under the stamps that were read; among changes of the rows.
Trusted boundary: as Nuget.Rows; the renderer and an upstream's answers (parameters); which members a request
  sees is that of its key throughout
Main exports: Served, State, Act, step
-/
import Mathlib.Data.List.MinMax
import OpenCargo.Lib.Entries
import OpenCargo.Lib.Run
import OpenCargo.Nuget.Rows
import OpenCargo.Repository
import OpenCargo.Storage

namespace OpenCargo.Nuget

open OpenCargo.Lib

/-! ### The memo -/

/-- What a stored answer was derived from: the stamps of its hosted sources, in view order, and whether an
upstream document was one of them. -/
structure Sources where
  stamps : List Text
  upstream : Bool
deriving Repr, DecidableEq, Inhabited

/-- A rendered document of one repository, for one permission view. -/
structure DocKey where
  repo : Int
  repoName : Text
  id : Text
  view : List Int
  doc : Text
  routes : Nat
deriving Repr, DecidableEq, Inhabited

structure Stored where
  value : Bytes
  sources : Sources
  at_ : Int
deriving Repr, DecidableEq, Inhabited

/-- A slot: the key it was made for, what is stored in it, and the request that holds its lock. -/
structure Slot where
  key : DocKey
  stored : Option Stored
  owner : Option Nat
deriving Repr, DecidableEq, Inhabited

/-- Every slot there ever was, as a request may hold on to one that is no longer in the table; the table; and
what is kept: its weight and when it was stored. -/
structure Memo where
  cells : List Slot
  slots : Entries DocKey Nat
  kept : Entries DocKey (Nat × Nat)
  weight : Nat
  tick : Nat

namespace Memo

def empty : Memo := ⟨[], ⟨[], .nil⟩, ⟨[], .nil⟩, 0, 0⟩

/-- The slot of a key, made where there is none. -/
def slot (m : Memo) (key : DocKey) : Nat × Memo :=
  match m.slots.get key with
  | some c => (c, m)
  | none =>
      (m.cells.length,
        { m with cells := m.cells ++ [⟨key, none, none⟩], slots := m.slots.set key m.cells.length })

def forget (m : Memo) (key : DocKey) (c : Nat) : Memo :=
  { m with
    slots := if m.slots.get key = some c then m.slots.eraseAll [key] else m.slots
    kept := m.kept.eraseAll [key]
    weight := m.weight - ((m.kept.get key).map Prod.fst).getD 0 }

/-- The key that was stored longest ago, but for one. -/
def oldest (m : Memo) (key : DocKey) : Option DocKey :=
  ((m.kept.toList.filter fun e => e.1 ≠ key).argmin fun e => e.2.2).map Prod.fst

/-- The loop of `keep`; each round forgets a key. -/
def evict (budget : Nat) (key : DocKey) : Nat → Memo → Memo
  | 0, m => m
  | n + 1, m =>
      if m.weight ≤ budget then m
      else match m.oldest key with
        | none => m
        | some old =>
            evict budget key n
              { m with
                slots := m.slots.eraseAll [old]
                kept := m.kept.eraseAll [old]
                weight := m.weight - ((m.kept.get old).map Prod.fst).getD 0 }

def keep (m : Memo) (budget : Nat) (key : DocKey) (weight : Nat) : Memo :=
  let tick := m.tick + 1
  let before := ((m.kept.get key).map Prod.fst).getD 0
  let kept := m.kept.set key (weight, tick)
  evict budget key kept.keys.length { m with kept, tick, weight := m.weight - before + weight }

/-- What is in a slot, and who holds it. -/
def put (m : Memo) (c : Nat) (stored : Option Stored) (owner : Option Nat) : Memo :=
  { m with cells := m.cells.modify c fun cell => { cell with stored, owner } }

def hold (m : Memo) (c : Nat) (owner : Option Nat) : Memo :=
  { m with cells := m.cells.modify c fun cell => { cell with owner } }

end Memo

/-! ### Requests -/

/-- What a server's documents depend on: which repositories are hosted, how a row's metadata and how a document
are read and written, and the bounds of its memo. -/
structure Site where
  hosted : Int → Bool
  decode : Text → Option HostedFacts
  render : DocKey → List Entry → Except ResolveError Bytes
  budget : Nat
  maxAge : Nat

/-- `OVERHEAD`. -/
def overhead : Nat := 256

def fresh (site : Site) (stored : Stored) (sources : Sources) (now : Int) : Bool :=
  stored.sources = sources && (!sources.upstream || decide (now - stored.at_ < site.maxAge))

/-- What an upstream member answers. -/
inductive Answer where
  | found (entries : List Entry)
  | notFound
  | failed (why : Text)
deriving Repr, DecidableEq, Inhabited

/-- The document of what the members answered, the first failure among them kept. -/
def compose (site : Site) (key : DocKey) (hits : List (List Entry)) (degraded : Option Text) :
    Except ResolveError Bytes :=
  match hits, degraded with
  | [], some why => .error (.upstream ("group ".toList ++ key.repoName ++ ": ".toList ++ why))
  | _, _ =>
      let merged := merge hits
      if merged.isEmpty then .error (.notFound ("package not found: ".toList ++ key.id))
      else site.render key merged

inductive Phase where
  /-- The stamps of these members are still to be read. -/
  | stamping (left : List Int) (sources : Sources)
  /-- It waits for its slot. -/
  | asking (sources : Sources) (slot : Nat)
  /-- The entries of these members are still to be read; where it holds no slot, nothing is to be stored. -/
  | collecting (sources : Sources) (slot : Option Nat) (left : List Int) (hits : List (List Entry))
      (degraded : Option Text)
  | ended
deriving Repr, DecidableEq, Inhabited

/-- A request of a document. Its last field is history: the states of the rows since it began, the last first. -/
structure Request where
  key : DocKey
  phase : Phase
  moments : List Tables
deriving Repr, DecidableEq, Inhabited

/-- A document that was served, and the states of the rows during its request. -/
structure Served where
  key : DocKey
  body : Bytes
  moments : List Tables
deriving Repr, DecidableEq, Inhabited

structure State where
  tables : Tables
  now : Int
  memo : Memo
  requests : List Request
  served : List Served
  /-- Every state of the rows, the last first. -/
  past : List Tables

def begin_ (now : Int) : State := ⟨.empty, now, .empty, [], [], [.empty]⟩

inductive Act where
  | change (c : Change)
  | clock (now : Int)
  | start (key : DocKey)
  /-- The next step of a request; a store call in it fails or not, an upstream answers. -/
  | next (i : Nat) (fails : Bool) (answer : Answer)
  /-- A request has waited for its slot long enough. -/
  | giveUp (i : Nat)
  /-- A request's client is gone. -/
  | cancel (i : Nat)
deriving Repr, DecidableEq

namespace State

def change (s : State) (c : Change) : State :=
  let tables := s.tables.change c
  { s with
    tables
    requests := s.requests.map fun r => { r with moments := tables :: r.moments }
    past := tables :: s.past }

def serve (s : State) (r : Request) (body : Bytes) : State :=
  { s with served := ⟨r.key, body, r.moments⟩ :: s.served }

/-- A computation comes to its end: what it is to be stored as, or that nothing is. -/
def finish (site : Site) (s : State) (r : Request) (sources : Sources) (slot : Option Nat)
    (hits : List (List Entry)) (degraded : Option Text) : State :=
  let composed := compose site r.key hits degraded
  let s := match composed with
    | .ok body => s.serve r body
    | .error _ => s
  match slot with
  | none => s
  | some c =>
      match composed, degraded with
      | .ok body, none =>
          let memo := (s.memo.put c (some ⟨body, sources, s.now⟩) none).keep site.budget r.key (body.length + overhead)
          { s with memo }
      | _, _ => { s with memo := (s.memo.put c none none).forget r.key c }

/-- The slot of a computation that did not come to its end by itself. -/
def abandon (s : State) (slot : Option Nat) : State :=
  match slot with
  | none => s
  | some c => { s with memo := s.memo.hold c none }

end State

/-- One step of a request. -/
def advance (site : Site) (s : State) (i : Nat) (r : Request) (fails : Bool) (answer : Answer) :
    Option (Phase × State) :=
  match r.phase with
  | .stamping [] sources =>
      let (c, memo) := s.memo.slot r.key
      some (.asking sources c, { s with memo })
  | .stamping (member :: left) sources =>
      if site.hosted member then
        if fails then some (.ended, s)
        else
          some (.stamping left { sources with
            stamps := sources.stamps ++ [hostedStamp s.tables member r.key.id] }, s)
      else some (.stamping left { sources with upstream := true }, s)
  | .asking sources c =>
      match s.memo.cells[c]? with
      | none => none
      | some cell =>
          if cell.owner.isSome then none
          else match cell.stored.filter fun stored => fresh site stored sources s.now with
            | some stored => some (.ended, s.serve r stored.value)
            | none => some (.collecting sources (some c) r.key.view [] none, { s with memo := s.memo.hold c (some i) })
  | .collecting sources slot [] hits degraded => some (.ended, s.finish site r sources slot hits degraded)
  | .collecting sources slot (member :: left) hits degraded =>
      if site.hosted member then
        if fails then
          some (.ended, match slot with
            | none => s
            | some c => { s with memo := (s.memo.put c none none).forget r.key c })
        else
          match hostedEntries site.decode s.tables member r.key.id with
          | some entries => some (.collecting sources slot left (hits ++ [entries]) degraded, s)
          | none => some (.collecting sources slot left hits degraded, s)
      else
        match answer with
        | .found entries => some (.collecting sources slot left (hits ++ [entries]) degraded, s)
        | .notFound => some (.collecting sources slot left hits degraded, s)
        | .failed why => some (.collecting sources slot left hits (some (degraded.getD why)), s)
  | .ended => none

def step (site : Site) (s : State) : Act → Option State
  | .change c => some (s.change c)
  | .clock now => some { s with now }
  | .start key => some { s with requests := s.requests ++ [⟨key, .stamping key.view ⟨[], false⟩, [s.tables]⟩] }
  | .next i fails answer => do
      let r ← s.requests[i]?
      let (phase, s) ← advance site s i r fails answer
      return { s with requests := s.requests.set i { r with phase } }
  | .giveUp i => do
      let r ← s.requests[i]?
      match r.phase with
      | .asking sources _ =>
          let phase := .collecting sources none r.key.view [] none
          some { s with requests := s.requests.set i { r with phase } }
      | _ => none
  | .cancel i => do
      let r ← s.requests[i]?
      let s := match r.phase with
        | .collecting _ slot _ _ _ => s.abandon slot
        | _ => s
      return { s with requests := s.requests.set i { r with phase := .ended } }

end OpenCargo.Nuget
