/-
Module: OpenCargo.Mcp.Sync
Purpose: `SyncMirror` (`app/mcp/sync.rs`): the pages of an upstream registry written into a mirror's rows,
  one page and one record at a time, while the upstream goes on changing; and what the upstream is
  promised to answer. An update is dated twice, by the upstream's clock and by the mirror's.
Trusted boundary: `parse`, what the adapter reads out of a wire record
Main exports: Move, Mirror.step, Assumed, Mirror.Holds
-/
import OpenCargo.Mcp.Writes

namespace OpenCargo.Mcp

/-! ### The wire -/

/-- `PAGE`. -/
def pageLimit : Nat := 100

def maxPages : Nat := 10000

/-- `FULL_EVERY`, seven days. -/
def fullEvery : Int := 604800000000000

/-- `SKEW`, one minute. -/
def skew : Int := 60000000000

/-- One page request. -/
structure FeedQuery where
  cursor : Option Text
  updatedSince : Option Instant
  limit : Nat
  includeDeleted : Bool
deriving Repr, DecidableEq, Inhabited

structure FeedPage (ε : Type) where
  servers : List ε
  nextCursor : Option Text
deriving Repr, DecidableEq, Inhabited

structure SyncState where
  highWater : Option Instant
  lastFullAt : Option Instant
  lastRunAt : Option Instant
  lastError : Option Text
  skipped : Int
  consecutiveFailures : Int
deriving Repr, DecidableEq, Inhabited

/-- `SyncState::default`. -/
def SyncState.new : SyncState := ⟨none, none, none, none, 0, 0⟩

/-- What a saved state is read back as. -/
def SyncState.kept (s : SyncState) : SyncState :=
  { s with
    highWater := s.highWater.map fun at_ => readTs (bindTs at_)
    lastFullAt := s.lastFullAt.map fun at_ => readTs (bindTs at_)
    lastRunAt := s.lastRunAt.map fun at_ => readTs (bindTs at_) }

structure SyncReport where
  full : Bool
  pages : Nat
  upserted : Nat
  changed : Nat
  skipped : Nat
deriving Repr, DecidableEq, Inhabited

/-! ### Records -/

/-- What an envelope is read as: `split_envelope`, `parse`, `Official::of` and `declared_surface`. -/
structure Detail where
  name : Text
  version : Text
  envelopeJson : Text
  status : Status
  isLatest : Bool
  remoteUrls : List Text
  declared : NewSurface
deriving Repr, DecidableEq, Inhabited

/-- `record_write`, from what was read. -/
def recordWrite (repository : Int) (d : Detail) (hosted : Bool) (now : Instant) :
    Except DomainError RecordWrite :=
  match named : validateName d.name, versioned : validateVersion d.version with
  | .error e, _ => .error e
  | .ok (), .error e => .error e
  | .ok (), .ok () =>
      .ok
        { repository := repository
          name := d.name
          version := d.version
          hosted := hosted
          envelopeJson := d.envelopeJson
          status := d.status
          isLatest := d.isLatest
          takeLatest := false
          remoteUrls := d.remoteUrls
          declared := d.declared
          now := now
          named := named
          versioned := versioned }

section Parse

variable {ε : Type} (parse : ε → Option Detail)

/-- `translate`; the reason of a refusal is logged only. -/
def translate (repository : Int) (envelope : ε) (now : Instant) : Option RecordWrite :=
  (parse envelope).bind fun d => (recordWrite repository d false now).toOption

/-- A record the mirror can take. -/
def Readable (envelope : ε) : Prop :=
  ∃ d, parse envelope = some d ∧ validateName d.name = .ok () ∧ validateVersion d.version = .ok ()

end Parse

/-- The json a row of the catalogue holds. -/
def Tables.held (t : Tables) (slot : Int × Text × Text) : Option Text :=
  (t.versions.find? (·.slot == slot)).map (·.responseJson)

/-! ### The upstream -/

/-- One update of an upstream record: what it was updated to, when, and what its `updatedAt` says. -/
structure Listed (ε : Type) where
  key : Text × Text
  envelope : ε
  deleted : Bool
  updatedAt : Instant
  /-- The mirror's clock when it was updated. -/
  at_ : Instant
deriving Repr, DecidableEq, Inhabited

section Upstream

variable {ε κ : Type} [LinearOrder κ] (rank : Text × Text → κ) (position : Text → κ)

/-- The records as they are: the last update of each. -/
def current (updates : List (Listed ε)) : List (Listed ε) :=
  updates.filter fun r => updates.all fun x => x.key != r.key || decide (x.at_ ≤ r.at_)

/-- What a query asks for; the bound goes out in seconds. -/
def FeedQuery.Matches (q : FeedQuery) (r : Listed ε) : Prop :=
  (∀ since ∈ q.updatedSince, readTs (bindTs since) ≤ r.updatedAt) ∧
    (q.includeDeleted = true ∨ r.deleted = false)

/-- What a page is promised to be, in the order of `rank`: between the cursor it was asked with and the
one it carries, every record the query matches, and nothing that is not a record. -/
structure Answers (updates : List (Listed ε)) (q : FeedQuery) (page : FeedPage ε) : Prop where
  complete : ∀ r ∈ current updates, q.Matches r → (∀ c ∈ q.cursor, position c < rank r.key) →
    (∀ c ∈ page.nextCursor, rank r.key ≤ position c) → r.envelope ∈ page.servers
  current : ∀ e ∈ page.servers, ∃ r ∈ current updates, r.envelope = e

instance (q : FeedQuery) (r : Listed ε) : Decidable (q.Matches r) := by
  unfold FeedQuery.Matches
  infer_instance

instance [DecidableEq ε] (updates : List (Listed ε)) (q : FeedQuery) (page : FeedPage ε) :
    Decidable (Answers rank position updates q page) :=
  decidable_of_iff
    ((∀ r ∈ current updates, q.Matches r → (∀ c ∈ q.cursor, position c < rank r.key) →
        (∀ c ∈ page.nextCursor, rank r.key ≤ position c) → r.envelope ∈ page.servers) ∧
      ∀ e ∈ page.servers, ∃ r ∈ current updates, r.envelope = e)
    ⟨fun ⟨complete, last⟩ => ⟨complete, last⟩, fun ⟨complete, last⟩ => ⟨complete, last⟩⟩

end Upstream

/-! ### The mirror -/

/-- Where a run of `pages` is. -/
inductive Phase (ε : Type) where
  /-- A page is asked for. -/
  | asking
  /-- A page is written, these of its records to go. -/
  | reading (page : FeedPage ε) (rest : List ε)
  /-- `pages` has ended. -/
  | ended (outcome : Except Text Unit)

/-- A run: the state it read, when it started, its query and its report so far, and how many turns of the
loop are left. -/
structure Job (ε : Type) where
  state : SyncState
  started : Instant
  report : SyncReport
  query : FeedQuery
  turns : Nat
  phase : Phase ε

/-- A mirror and its upstream. -/
structure Mirror (ε : Type) where
  now : Instant
  updates : List (Listed ε)
  tables : Tables
  stored : SyncState
  job : Option (Job ε)
  /-- The start of the last run that returned `Ok`. -/
  succeeded : Option Instant

/-- What can happen next; runs of one mirror are one at a time. -/
inductive Move (ε : Type) where
  | tick (passed : Nat)
  | update (key : Text × Text) (envelope : ε) (deleted : Bool) (updatedAt : Instant) (passed : Nat)
  | start (forceFull : Bool)
  | answer (page : FeedPage ε)
  | take
  | turn
  /-- The feed or the store refuses. -/
  | refuse (why : Text)
  | save
  /-- The state is not saved, or the process stops. -/
  | stop

namespace Mirror

section Step

variable {ε : Type} (parse : ε → Option Detail) (repository : Int)

def start (now : Instant) : Mirror ε := ⟨now, [], .empty, .new, none, none⟩

/-- The head of `run` and of `pages`. -/
def begin_ (m : Mirror ε) (forceFull : Bool) : Job ε :=
  let full := forceFull || m.stored.highWater.isNone ||
    m.stored.lastFullAt.all fun at_ => decide (m.now - at_ > fullEvery)
  { state := m.stored
    started := m.now
    report := ⟨full, 0, 0, 0, 0⟩
    query := ⟨none, if full then none else m.stored.highWater, pageLimit, true⟩
    turns := maxPages - 1
    phase := .asking }

/-- One envelope of a page. -/
def take (m : Mirror ε) (job : Job ε) (page : FeedPage ε) (e : ε) (rest : List ε) : Mirror ε :=
  match translate parse repository e m.now with
  | some write =>
      let changed := decide (m.tables.held (write.row 0).slot ≠ some write.envelopeJson)
      { m with
        tables := m.tables.upsertRecord write
        job := some { job with
          phase := .reading page rest
          report := { job.report with
            upserted := job.report.upserted + 1
            changed := job.report.changed + if changed then 1 else 0 } } }
  | none =>
      { m with
        job := some { job with
          phase := .reading page rest
          report := { job.report with skipped := job.report.skipped + 1 } } }

/-- The end of a turn: the next page, or the end of the loop. -/
def turn (job : Job ε) (page : FeedPage ε) : Job ε :=
  match page.nextCursor with
  | some next =>
      if page.servers.isEmpty then { job with phase := .ended (.ok ()) }
      else
        match job.turns with
        | 0 => { job with phase := .ended (.error "the upstream cursor never ended".toList) }
        | turns + 1 =>
            { job with query := { job.query with cursor := some next }, turns := turns, phase := .asking }
  | none => { job with phase := .ended (.ok ()) }

/-- The state a run saves. -/
def saved (job : Job ε) : Except Text Unit → SyncState
  | .ok () =>
      { job.state with
        lastRunAt := some job.started
        highWater := some (job.started - skew)
        lastFullAt := if job.report.full then some job.started else job.state.lastFullAt
        lastError := none
        skipped := job.report.skipped
        consecutiveFailures := 0 }
  | .error why =>
      { job.state with
        lastRunAt := some job.started
        lastError := some why
        consecutiveFailures := job.state.consecutiveFailures + 1 }

def step (m : Mirror ε) : Move ε → Option (Mirror ε)
  | .tick passed => some { m with now := m.now + passed }
  | .update key envelope deleted updatedAt passed =>
      let now := m.now + passed + 1
      some { m with now := now, updates := m.updates ++ [⟨key, envelope, deleted, updatedAt, now⟩] }
  | .start forceFull =>
      match m.job with
      | none => some { m with job := some (m.begin_ forceFull) }
      | some _ => none
  | .answer page =>
      match m.job with
      | some job =>
          match job.phase with
          | .asking =>
              some { m with
                job := some { job with
                  phase := .reading page page.servers
                  report := { job.report with pages := job.report.pages + 1 } } }
          | _ => none
      | none => none
  | .take =>
      match m.job with
      | some job =>
          match job.phase with
          | .reading page (e :: rest) => some (m.take parse repository job page e rest)
          | _ => none
      | none => none
  | .turn =>
      match m.job with
      | some job =>
          match job.phase with
          | .reading page [] => some { m with job := some (turn job page) }
          | _ => none
      | none => none
  | .refuse why =>
      match m.job with
      | some job =>
          match job.phase with
          | .ended _ => none
          | _ => some { m with job := some { job with phase := .ended (.error why) } }
      | none => none
  | .save =>
      match m.job with
      | some job =>
          match job.phase with
          | .ended outcome =>
              some { m with
                job := none
                stored := (saved job outcome).kept
                succeeded := if outcome.toBool then some job.started else m.succeeded }
          | _ => none
      | none => none
  | .stop => some { m with job := none }

/-- The mirror holds the content of an update. -/
def Has (m : Mirror ε) (x : Listed ε) : Prop :=
  ∃ d, parse x.envelope = some d ∧
    m.tables.held (repository, x.key.1, x.key.2) = some d.envelopeJson

/-- It holds content of the record at least as new as an update. -/
def HasSince (m : Mirror ε) (r : Listed ε) : Prop :=
  ∃ x ∈ m.updates, x.key = r.key ∧ r.at_ ≤ x.at_ ∧ m.Has parse repository x

/-- From the update on, the record is one the mirror can read. -/
def ReadableSince (m : Mirror ε) (r : Listed ε) : Prop :=
  ∀ x ∈ m.updates, x.key = r.key → r.at_ ≤ x.at_ → Readable parse x.envelope

/-- Nothing that was updated at or before `s` is missed. -/
def Holds (m : Mirror ε) (s : Instant) : Prop :=
  ∀ r ∈ m.updates, r.at_ ≤ s → m.ReadableSince parse r → m.HasSince parse repository r

end Step

end Mirror

/-- What the claim on the upstream is: an update is dated by clocks that differ by less than the skew, a
record the mirror can read is listed under its own name and version, and a page is what it promises. -/
def Assumed {ε κ : Type} [LinearOrder κ] (parse : ε → Option Detail) (rank : Text × Text → κ)
    (position : Text → κ) (m : Mirror ε) : Move ε → Prop
  | .update key envelope _ updatedAt passed =>
      |updatedAt - (m.now + passed + 1)| < skew ∧
        ∀ d ∈ parse envelope, (d.name, d.version) = key
  | .answer page => ∀ job ∈ m.job, Answers rank position m.updates job.query page
  | _ => True

/-- A page that carries a cursor has a record. -/
def Paged {ε : Type} : Move ε → Prop
  | .answer page => page.nextCursor.isSome = true → page.servers.isEmpty = false
  | _ => True

instance {ε κ : Type} [DecidableEq ε] [LinearOrder κ] (parse : ε → Option Detail)
    (rank : Text × Text → κ) (position : Text → κ) (m : Mirror ε) (move : Move ε) :
    Decidable (Assumed parse rank position m move) := by
  cases move <;> unfold Assumed <;> infer_instance

instance {ε : Type} (move : Move ε) : Decidable (Paged move) := by
  cases move <;> unfold Paged <;> infer_instance

end OpenCargo.Mcp
