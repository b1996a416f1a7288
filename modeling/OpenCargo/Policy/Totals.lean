/-
Module: OpenCargo.Policy.Totals
Purpose: The report totals (`policy/totals.rs`) over the policy store (`adapters/sqlite/policy.rs`): the
  rows, the cache of snapshots, and any number of calls of `totals` and of erasures followed by
  `forget`, one step for each statement and each time the lock is held.
Trusted boundary: none
Main exports: Phase, World, Act, step
-/
import OpenCargo.Domain
import OpenCargo.Lib.Run

namespace OpenCargo.Policy

open OpenCargo.Lib

/-! ### The rows -/

inductive Verdict where
  | pass
  | wouldBlock
  | unknown
  | notApplicable
deriving Repr, DecidableEq, Inhabited

structure RuleVerdict where
  rule : Text
  verdict : Verdict
deriving Repr, DecidableEq, Inhabited

inductive ActorKind where
  | token
  | user
  | static
  | anonymous
deriving Repr, DecidableEq, Inhabited

/-- A row of `policy_resolutions` with its rows of `policy_verdicts`: the two are written and deleted in
one transaction. -/
structure Resolution where
  id : Nat
  createdAt : Int
  requestedRepo : Text
  memberRepo : Text
  actorKind : ActorKind
  userId : Option Int
  wouldBlock : Bool
  unknown : Bool
  verdicts : List RuleVerdict
deriving Repr, DecidableEq, Inhabited

structure NewResolution where
  requestedRepo : Text
  memberRepo : Text
  actorKind : ActorKind
  userId : Option Int
  verdicts : List RuleVerdict
deriving Repr, DecidableEq, Inhabited

/-- `write_resolution`, under the id `AUTOINCREMENT` gives. -/
def NewResolution.write (row : NewResolution) (id : Nat) (now : Instant) : Resolution :=
  let wouldBlock := row.verdicts.any (·.verdict == .wouldBlock)
  { id := id
    createdAt := bindTs now
    requestedRepo := row.requestedRepo
    memberRepo := row.memberRepo
    actorKind := row.actorKind
    userId := row.userId
    wouldBlock := wouldBlock
    unknown := !wouldBlock && row.verdicts.any (·.verdict == .unknown)
    verdicts := row.verdicts }

/-- The rows of a batch, under the ids after `seq`. -/
def writeBatch (now : Instant) : Nat → List NewResolution → List Resolution
  | _, [] => []
  | seq, row :: rows => row.write (seq + 1) now :: writeBatch now (seq + 1) rows

/-! ### The queries -/

/-- Whose rows are shown: a database user's, or the config token's. -/
inductive Subject where
  | user (id : Int)
  | static
deriving Repr, DecidableEq, Inhabited

structure ReportFilter where
  since : Instant
  repo : Option Text
  rule : Option Text
  subject : Option Subject
deriving Repr, DecidableEq, Inhabited

/-- `after < id <= upto`. -/
structure IdRange where
  after : Nat
  upto : Nat
deriving Repr, DecidableEq, Inhabited

/-- One row of the first query: whether it is counted as one that would block, or as unknown. -/
structure HeadMark where
  id : Nat
  wouldBlock : Bool
  unknown : Bool
deriving Repr, DecidableEq, Inhabited

/-- One row of the second query, before it is grouped. -/
structure VerdictMark where
  id : Nat
  rule : Text
  verdict : Verdict
deriving Repr, DecidableEq, Inhabited

namespace ReportFilter

variable (f : ReportFilter) (range : IdRange)

/-- `filters`. -/
def selects (row : Resolution) : Bool :=
  decide (bindTs f.since ≤ row.createdAt) && decide (range.after < row.id) &&
    decide (row.id ≤ range.upto) &&
    (match f.repo with
      | some repo => row.requestedRepo == repo || row.memberRepo == repo
      | none => true) &&
    (match f.subject with
      | some (.user id) => row.userId == some id
      | some .static => row.actorKind == .static
      | none => true)

/-- `from`, and the two flags of a joined row: the row's own, or those of that rule's verdict. -/
def headMarks (row : Resolution) : List HeadMark :=
  match f.rule with
  | none => [⟨row.id, row.wouldBlock, row.unknown⟩]
  | some rule =>
      (row.verdicts.filter (·.rule == rule)).map fun v =>
        ⟨row.id, v.verdict == .wouldBlock, v.verdict == .unknown⟩

/-- The verdicts of a joined row: every one, or that rule's alone. -/
def verdictMarks (row : Resolution) : List VerdictMark :=
  (row.verdicts.filter fun v => f.rule.all (· == v.rule)).map fun v => ⟨row.id, v.rule, v.verdict⟩

/-- The first query of `totals`. -/
def heads (rows : List Resolution) : List HeadMark :=
  (rows.filter (f.selects range)).flatMap f.headMarks

/-- The second one. -/
def marks (rows : List Resolution) : List VerdictMark :=
  (rows.filter (f.selects range)).flatMap f.verdictMarks

end ReportFilter

/-! ### Totals -/

structure RuleTotals where
  wouldBlock : Nat
  unknown : Nat
  pass : Nat
  notApplicable : Nat
deriving Repr, DecidableEq, Inhabited

/-- The map from rules is the function it is looked up by. -/
structure Totals where
  resolutions : Nat
  wouldBlock : Nat
  unknown : Nat
  byRule : Text → Option RuleTotals

/-- The counts of one rule, `Default` being all zero. -/
def RuleTotals.add (t d : RuleTotals) : RuleTotals where
  wouldBlock := t.wouldBlock + d.wouldBlock
  unknown := t.unknown + d.unknown
  pass := t.pass + d.pass
  notApplicable := t.notApplicable + d.notApplicable

def RuleTotals.zero : RuleTotals := ⟨0, 0, 0, 0⟩

/-- Adds the counts of a later id range. -/
def Totals.absorb (self delta : Totals) : Totals where
  resolutions := self.resolutions + delta.resolutions
  wouldBlock := self.wouldBlock + delta.wouldBlock
  unknown := self.unknown + delta.unknown
  byRule := fun rule =>
    match delta.byRule rule with
    | some d => some (((self.byRule rule).getD .zero).add d)
    | none => self.byRule rule

/-- What `GROUP BY` and `tally` make of one rule's verdicts. -/
def ruleTotals (marks : List VerdictMark) : RuleTotals where
  wouldBlock := marks.countP (·.verdict == .wouldBlock)
  unknown := marks.countP (·.verdict == .unknown)
  pass := marks.countP (·.verdict == .pass)
  notApplicable := marks.countP (·.verdict == .notApplicable)

def tally (marks : List VerdictMark) (rule : Text) : Option RuleTotals :=
  let mine := marks.filter (·.rule == rule)
  if mine.isEmpty then none else some (ruleTotals mine)

/-- The totals of what the two queries selected. -/
def Totals.of (heads : List HeadMark) (marks : List VerdictMark) : Totals where
  resolutions := heads.length
  wouldBlock := heads.countP (·.wouldBlock)
  unknown := heads.countP (·.unknown)
  byRule := tally marks

theorem ruleTotals_append (a b : List VerdictMark) :
    ruleTotals (a ++ b) = (ruleTotals a).add (ruleTotals b) := by
  simp [ruleTotals, RuleTotals.add]

theorem Totals.absorb_of (heads more : List HeadMark) (marks others : List VerdictMark) :
    (Totals.of heads marks).absorb (Totals.of more others) =
      Totals.of (heads ++ more) (marks ++ others) := by
  have rules : ∀ rule, ((Totals.of heads marks).absorb (Totals.of more others)).byRule rule =
      tally (marks ++ others) rule := by
    intro rule
    simp only [Totals.absorb, Totals.of, tally, List.filter_append]
    by_cases none : others.filter (·.rule == rule) = []
    · simp [none]
    · by_cases first : marks.filter (·.rule == rule) = []
      · simp [first, none, ruleTotals, RuleTotals.add, RuleTotals.zero]
      · simp [first, none, ruleTotals_append]
  simp only [Totals.absorb, Totals.of] at rules ⊢
  simp [funext rules]

/-- Totals, with the history they come from: what the queries behind them selected. -/
structure Reading where
  totals : Totals
  heads : List HeadMark
  marks : List VerdictMark
  exact : totals = Totals.of heads marks

namespace Reading

/-- The rows that are counted. -/
def rows (reading : Reading) : List Nat :=
  reading.heads.map HeadMark.id ++ reading.marks.map VerdictMark.id

def of (heads : List HeadMark) (marks : List VerdictMark) : Reading := ⟨_, heads, marks, rfl⟩

def absorb (reading delta : Reading) : Reading where
  totals := reading.totals.absorb delta.totals
  heads := reading.heads ++ delta.heads
  marks := reading.marks ++ delta.marks
  exact := by rw [reading.exact, delta.exact, Totals.absorb_of]

end Reading

/-! ### The cache and the calls -/

/-- `FLOOR`, in nanoseconds. -/
def floor : Duration := 5 * 1000000000

/-- `AMORTISE`. -/
def amortise : Nat := 10

structure Snapshot where
  at_ : Nat
  ttl : Duration
  upto : Nat
  reading : Reading

/-- Where a call of `totals` stands. -/
inductive Phase where
  | called
  /-- `max_id` has answered. -/
  | bounded (upto : Nat)
  /-- There was no snapshot, and `scan` has read the clock. -/
  | scanning (upto at_ : Nat)
  /-- The first query of the scan has answered. -/
  | headed (upto at_ : Nat) (heads : List HeadMark)
  /-- So has the second one, and the snapshot is about to be inserted. -/
  | inserting (upto at_ : Nat) (ttl : Duration) (reading : Reading)
  /-- There was a snapshot up to `after`, and rows have landed since. -/
  | growing (after upto : Nat) (base : Reading)
  | grownHeads (after upto : Nat) (base : Reading) (heads : List HeadMark)
  /-- The delta is absorbed, and the snapshot is about to be written back. -/
  | absorbing (after upto : Nat) (reading : Reading)
  | answered (reading : Reading)

/-- A call under way. `forgotten` is history: the erased rows that a `forget` had already returned for
when the call began. -/
structure Call where
  key : Text
  filter : ReportFilter
  phase : Phase
  forgotten : List Nat

/-- `DELETE /api/v1/policy/report` for one user. -/
inductive Erasure where
  | deleting (user : Int)
  /-- `erase_user` has returned. -/
  | forgetting
deriving Repr, DecidableEq, Inhabited

/-- The table, the cache and the calls. `erased` (the rows erasures have deleted) and `forgotten` (those
of them that a `forget` has returned for since) are history. -/
structure World where
  rows : List Resolution
  seq : Nat
  clock : Nat
  snapshots : Text → Option Snapshot
  calls : Nat → Option Call
  erasures : Nat → Option Erasure
  erased : List Nat
  forgotten : List Nat

/-- A table as SQLite keeps it: no row is past the sequence. -/
structure Table where
  rows : List Resolution
  seq : Nat
  below : ∀ row ∈ rows, row.id ≤ seq

/-- Any table, and a process that has just started. -/
def start (table : Table) : World where
  rows := table.rows
  seq := table.seq
  clock := 0
  snapshots := fun _ => none
  calls := fun _ => none
  erasures := fun _ => none
  erased := []
  forgotten := []

namespace World

def set (world : World) (id : Nat) (call : Option Call) : World :=
  { world with calls := Function.update world.calls id call }

def setErasure (world : World) (id : Nat) (erasure : Option Erasure) : World :=
  { world with erasures := Function.update world.erasures id erasure }

def setSnapshot (world : World) (key : Text) (snapshot : Snapshot) : World :=
  { world with snapshots := Function.update world.snapshots key (some snapshot) }

/-- `SELECT COALESCE(MAX(id), 0)`. -/
def maxId (world : World) : Nat := (world.rows.map Resolution.id).foldl max 0

/-- `base`: the snapshot, while it lasts. -/
def base (world : World) (key : Text) : Option Snapshot :=
  (world.snapshots key).filter fun s => world.clock - s.at_ < s.ttl

end World

/-- `DELETE_CHUNK`. -/
def deleteChunk : Nat := 5000

/-- The ids one transaction of `delete_where` deletes. -/
def chunk (predicate : Resolution → Bool) (rows : List Resolution) : List Nat :=
  ((rows.filter predicate).take deleteChunk).map Resolution.id

/-- That transaction. -/
def World.deleteRows (world : World) (ids : List Nat) : World :=
  { world with rows := world.rows.filter (·.id ∉ ids) }

/-- The lock is taken, and the snapshot the call began from grows, if it is still there. -/
def World.writeBack (world : World) (key : Text) (after upto : Nat) (reading : Reading) : World :=
  match (world.snapshots key).filter (·.upto == after) with
  | some s => world.setSnapshot key { s with upto := upto, reading := reading }
  | none => world

/-- The next step of a call of `totals`, by its phase. -/
def next (world : World) (id : Nat) (call : Call) : Option World :=
  let goes (phase : Phase) (world : World) : World := world.set id (some { call with phase := phase })
  match call.phase with
  | .called => some (goes (.bounded world.maxId) world)
  | .bounded upto =>
      match world.base call.key with
      | none => some (goes (.scanning upto world.clock) world)
      | some s =>
          if upto > s.upto then some (goes (.growing s.upto upto s.reading) world)
          else some (goes (.answered s.reading) world)
  | .scanning upto at_ => some (goes (.headed upto at_ (call.filter.heads ⟨0, upto⟩ world.rows)) world)
  | .headed upto at_ heads =>
      let ttl := max ((world.clock - at_) * amortise) floor
      let reading := Reading.of heads (call.filter.marks ⟨0, upto⟩ world.rows)
      some (goes (.inserting upto at_ ttl reading) world)
  | .inserting upto at_ ttl reading =>
      some (goes (.answered reading) (world.setSnapshot call.key ⟨at_, ttl, upto, reading⟩))
  | .growing after upto base =>
      some (goes (.grownHeads after upto base (call.filter.heads ⟨after, upto⟩ world.rows)) world)
  | .grownHeads after upto base heads =>
      let delta := Reading.of heads (call.filter.marks ⟨after, upto⟩ world.rows)
      some (goes (.absorbing after upto (base.absorb delta)) world)
  | .absorbing after upto reading =>
      some (goes (.answered reading) (world.writeBack call.key after upto reading))
  | .answered _ => none

inductive Act where
  /-- Time passes. -/
  | tick (elapsed : Nat)
  /-- `insert_batch`. -/
  | insertBatch (rows : List NewResolution) (now : Instant)
  /-- One chunk of `delete_older_than`. -/
  | expire (cutoff : Instant)
  /-- `totals` is called. -/
  | call (id : Nat) (key : Text) (filter : ReportFilter)
  | next (id : Nat)
  /-- A store call of it fails, or its future is dropped. -/
  | fail (id : Nat)
  /-- `erase` is called for a user. -/
  | erase (id : Nat) (user : Int)
  /-- One chunk of `erase_user`. -/
  | chunk (id : Nat)
  /-- `forget`. -/
  | forget (id : Nat)
  /-- A chunk fails, and the erasure with it. -/
  | failErasure (id : Nat)
deriving Repr, DecidableEq, Inhabited

/-- One chunk of `erase_user`; `erase_user` returns after one that was not full. -/
def eraseChunk (world : World) (id : Nat) (user : Int) : World :=
  let ids := Policy.chunk (·.userId == some user) world.rows
  let world := { world.deleteRows ids with erased := ids ++ world.erased }
  if ids.length < deleteChunk then world.setErasure id (some .forgetting) else world

def step (world : World) : Act → Option World
  | .tick elapsed => some { world with clock := world.clock + elapsed }
  | .insertBatch rows now =>
      some { world with
        rows := world.rows ++ writeBatch now world.seq rows, seq := world.seq + rows.length }
  | .expire cutoff =>
      some (world.deleteRows (Policy.chunk (fun row => row.createdAt < bindTs cutoff) world.rows))
  | .call id key filter =>
      if (world.calls id).isNone then some (world.set id (some ⟨key, filter, .called, world.forgotten⟩))
      else none
  | .next id => (world.calls id).bind (Policy.next world id)
  | .fail id => if (world.calls id).isSome then some (world.set id none) else none
  | .erase id user =>
      if (world.erasures id).isNone then some (world.setErasure id (some (.deleting user))) else none
  | .chunk id =>
      match world.erasures id with
      | some (.deleting user) => some (eraseChunk world id user)
      | _ => none
  | .forget id =>
      match world.erasures id with
      | some .forgetting =>
          some { world.setErasure id none with
            snapshots := fun _ => none, forgotten := world.erased }
      | _ => none
  | .failErasure id =>
      match world.erasures id with
      | some (.deleting _) => some (world.setErasure id none)
      | _ => none

end OpenCargo.Policy
