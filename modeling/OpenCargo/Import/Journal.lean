/-
Module: OpenCargo.Import.Journal
Purpose: The importer's resume journal (`adapters/sqlite/import_journal.rs`): one file, each operation on
  it one transaction, and any number of handles of it, each remembering the owner its last `begin` named.
Trusted boundary: that SQLite runs a transaction as a whole or not at all; which strings need redaction;
  that a stored item reads back as it was written. Rows of one coordinate are claimed in the order they
  were inserted.
Main exports: Op, perform, Files, Files.step
-/
import Mathlib.Data.List.Sort
import OpenCargo.Import.Ports
import OpenCargo.Lib.Fallible
import OpenCargo.Lib.Rows

namespace OpenCargo.Import

open OpenCargo.Lib (updateAt upsert bind_eq_ok)

/-! ### The tables -/

/-- The row of `run`. -/
structure RunRow where
  source : Text
  sourceUrl : Text
  targetUrl : Text
  optsJson : Text
  startedAt : Int
  finishedAt : Option Int
  phase : Text
  owner : Option Text
  heartbeat : Option Int
deriving Repr, DecidableEq, Inhabited

structure CursorRow where
  stream : Text
  token : Option Text
  done : Bool
deriving Repr, DecidableEq, Inhabited

/-- A row of `item`. `planned` is `planned_json`; the columns `source_ref`, `target_repo`, `target_name`,
`target_format` and `version` are written with it, from it. -/
structure ItemRow where
  planned : Planned
  stream : Text
  status : ItemStatus
  attempts : Nat
  claimedAt : Option Int
  bytes : Option Nat
  sha256 : Option Text
  error : Option Text
  note : Option Text
deriving Repr, DecidableEq, Inhabited

namespace ItemRow

def sourceRef (row : ItemRow) : Text := row.planned.item.sourceRef

/-- `(target_repo, target_name)`. -/
def package (row : ItemRow) : Text × Text := (row.planned.targetRepo, row.planned.targetName)

def version (row : ItemRow) : Text := row.planned.item.coord.version

/-- `(target_repo, target_name, version)`. -/
def coordinate (row : ItemRow) : List Text :=
  [row.planned.targetRepo, row.planned.targetName, row.version]

/-- `journaled`. -/
def journaled (row : ItemRow) : Journaled :=
  ⟨row.planned, row.status, row.attempts, row.bytes, row.sha256, row.error, row.note⟩

end ItemRow

structure PkgRow where
  targetRepo : Text
  name : Text
  format : Format
  extra : PkgExtra
  isSealed : Bool
deriving Repr, DecidableEq, Inhabited

def PkgRow.package (row : PkgRow) : Text × Text := (row.targetRepo, row.name)

structure GapRow where
  scope : Text
  gap : Gap
  count : Nat
deriving Repr, DecidableEq, Inhabited

/-- The primary key of `gap`. -/
def GapRow.key (row : GapRow) : Text × Gap := (row.scope, row.gap)

structure Journal where
  run : Option RunRow
  cursors : List CursorRow
  items : List ItemRow
  pkgs : List PkgRow
  gaps : List GapRow
deriving Repr, DecidableEq, Inhabited

def staleOwnerSecs : Int := 60
def runScope : Text := "run".toList
def collisionScope : Text := "collision".toList
def itemScope (sourceRef : Text) : Text := "item:".toList ++ sourceRef
def sealScope (targetRepo name : Text) : Text :=
  "seal:".toList ++ (targetRepo ++ "/".toList ++ name)

/-- SQLite's `LIKE` folds the case of ASCII letters. -/
def likeChar (pattern c : Char) : Bool := pattern.toLower == c.toLower

/-- `scope LIKE 'word%'`. -/
def likeStart (word scope : Text) : Bool :=
  word.length ≤ scope.length && (List.zipWith likeChar word scope).all id

/-- The scopes a fresh `begin` deletes. -/
def clearedScope (scope : Text) : Bool :=
  likeStart "item:".toList scope || likeStart "seal:".toList scope || scope == collisionScope

namespace Journal

def empty : Journal := ⟨none, [], [], [], []⟩

/-! ### Gaps -/

/-- `insert_gaps`. -/
def insertGaps (j : Journal) (scope : Text) (gaps : List Gap) : Journal :=
  { j with
    gaps := gaps.foldl
      (fun rows g =>
        upsert GapRow.key (fun row => { row with count := row.count + 1 }) ⟨scope, g, 1⟩ rows)
      j.gaps }

def deleteGaps (j : Journal) (gone : Text → Bool) : Journal :=
  { j with gaps := j.gaps.filter fun row => !gone row.scope }

/-! ### The owner -/

def owner (j : Journal) : Option Text := j.run.bind RunRow.owner

def lostTo (j : Journal) : JournalError := .lost (j.owner.getD "nobody".toList)

/-- `fence`, in the transaction of every write: a handle that began still has to own the file. -/
def fence (j : Journal) (me : Option Text) : Except JournalError Unit :=
  match me with
  | none => .ok ()
  | some me => if j.owner = some me then .ok () else .error j.lostTo

def requeue (row : ItemRow) : ItemRow :=
  match row.status with
  | .running => { row with status := .pending }
  | .failed => { row with status := .pending, attempts := 0, error := none }
  | _ => row

/-- The owner another `begin` finds alive: it beat less than `STALE_OWNER_SECS` ago. -/
def heldBy (j : Journal) (owner : Text) (now : Instant) : Option Text := do
  let row ← j.run
  let other ← row.owner
  let beat ← row.heartbeat
  if other ≠ owner ∧ (now - readTs beat).tdiv 1000000000 < staleOwnerSecs then
    return other
  else
    none

/-- The row a `begin` leaves in `run`. -/
def beganRow (j : Journal) (header : RunHeader) (owner : Text) (fresh : Bool) (now : Instant) : RunRow where
  source := header.source
  sourceUrl := header.sourceUrl
  targetUrl := header.targetUrl
  optsJson := header.optsJson
  startedAt :=
    if fresh then bindTs header.startedAt
    else (j.run.map RunRow.startedAt).getD (bindTs header.startedAt)
  finishedAt := none
  phase := header.phase
  owner := some owner
  heartbeat := some (bindTs now)

/-- What a fresh run forgets. -/
def rewind (j : Journal) : Journal :=
  let cleared : Journal :=
    { j with
      cursors := j.cursors.map fun row => { row with token := none, done := false }
      items := []
      pkgs := [] }
  cleared.deleteGaps clearedScope

/-- What a `begin` writes. -/
def began (j : Journal) (header : RunHeader) (owner : Text) (fresh : Bool) (now : Instant) : Journal :=
  let claimed :=
    { j with run := some (j.beganRow header owner fresh now), items := j.items.map requeue }
  if fresh then claimed.rewind else claimed

def begin (needsRedaction : Text → Bool) (j : Journal) (header : RunHeader) (owner : Text)
    (fresh : Bool) (now : Instant) : Except JournalError Journal :=
  if needsRedaction header.sourceUrl then
    .error (.unredacted (header.sourceUrl ++ " is not redacted".toList))
  else if needsRedaction header.targetUrl then
    .error (.unredacted (header.targetUrl ++ " is not redacted".toList))
  else
    match j.heldBy owner now with
    | some other => .error (.busy other)
    | none => .ok (j.began header owner fresh now)

theorem begin_eq_ok {needsRedaction : Text → Bool} {j : Journal} {header : RunHeader} {owner : Text}
    {fresh : Bool} {now : Instant} (source : needsRedaction header.sourceUrl = false)
    (target : needsRedaction header.targetUrl = false) (free : j.heldBy owner now = none) :
    j.begin needsRedaction header owner fresh now = .ok (j.began header owner fresh now) := by
  rw [begin, source, target, free]
  rfl

def beat (j : Journal) (now : Instant) : Journal :=
  { j with run := j.run.map fun row => { row with heartbeat := some (bindTs now) } }

def heartbeat (j : Journal) (owner : Text) (now : Instant) : Except JournalError Journal :=
  if j.owner = some owner then .ok (j.beat now) else .error j.lostTo

/-- What `finish` writes through a handle that holds no owner. -/
def closed (j : Journal) (phase : Text) (now : Instant) : Journal :=
  { j with
    run := j.run.map fun row =>
      if row.owner = none then { row with phase := phase, finishedAt := some (bindTs now) } else row }

/-- What `finish` writes through the owner's handle. -/
def released (j : Journal) (phase : Text) (now : Instant) : Journal :=
  { j with
    run := j.run.map fun row =>
      { row with phase := phase, finishedAt := some (bindTs now), owner := none, heartbeat := none } }

/-- `finish`, through a handle that holds `me`. -/
def finish (j : Journal) (me : Option Text) (phase : Text) (now : Instant) :
    Except JournalError Journal :=
  match me with
  | none => .ok (j.closed phase now)
  | some me => if j.owner = some me then .ok (j.released phase now) else .error j.lostTo

/-! ### Discovery -/

def streams (j : Journal) (names : List Text) : Journal :=
  { j with
    cursors := names.foldl (fun rows n => upsert CursorRow.stream id ⟨n, none, false⟩ rows) j.cursors }

def pending (stream : Text) (p : Planned) : ItemRow := ⟨p, stream, .pending, 0, none, none, none, none, none⟩

/-- The two upserts of a planned item: a known one keeps its status and what was stored with it. -/
def plan (stream : Text) (j : Journal) (p : Planned) : Journal :=
  { j with
    items := upsert ItemRow.sourceRef (fun row => { row with planned := p, stream := stream })
      (pending stream p) j.items
    pkgs := upsert PkgRow.package (fun row => { row with extra := p.item.pkg })
      ⟨p.targetRepo, p.targetName, p.targetFormat, p.item.pkg, false⟩ j.pkgs }

/-- `check_redacted`, of every planned item. -/
def checkRedacted (needsRedaction : Text → Bool) (planned : List Planned) : Except JournalError Unit :=
  match planned.find? fun p => p.item.origin.strings.any needsRedaction with
  | none => .ok ()
  | some p =>
      .error (.unredacted (p.item.sourceRef ++
        ": an origin may hold coordinates only, not a URL with credentials or a query".toList))

def record (j : Journal) (stream : Text) (restarted : Bool) (planned : List Planned) (gaps : List Gap)
    (cursor : Cursor) (done : Bool) : Journal :=
  let kept := if restarted then j.deleteGaps (· == stream) else j
  let filled := (planned.foldl (plan stream) kept).insertGaps stream gaps
  { filled with
    cursors := upsert CursorRow.stream (fun row => { row with token := cursor, done := done })
      ⟨stream, cursor, done⟩ filled.cursors }

def replaceRunGaps (j : Journal) (gaps : List Gap) : Journal :=
  (j.deleteGaps (· == runScope)).insertGaps runScope gaps

/-! ### Collisions -/

def sharing (j : Journal) (coordinate : List Text) : List ItemRow :=
  j.items.filter fun row => row.coordinate == coordinate

/-- The target coordinates more than one item maps to. -/
def collisions (j : Journal) : List (List Text) :=
  ((j.items.map ItemRow.coordinate).dedup.filter fun c => 1 < (j.sharing c).length).insertionSort (· ≤ ·)

/-- `group_concat(source_ref, ' and ')`, and the gap it goes into. -/
def collisionGap (j : Journal) (coordinate : List Text) : Gap where
  kind := .targetCollision
  sourceRef :=
    match coordinate with
    | [repo, name, version] => repo ++ "/".toList ++ name ++ "@".toList ++ version
    | _ => []
  detail :=
    " and ".toList.intercalate (((j.sharing coordinate).map ItemRow.sourceRef).insertionSort (· ≤ ·)) ++
      " map to one target coordinate".toList

/-- `status IN ('pending', 'running', 'failed')`. -/
def unfinished : ItemStatus → Bool
  | .pending | .running | .failed => true
  | .copied | .skipped => false

def takeCollisions (j : Journal) : List Gap × Journal :=
  let gaps := j.collisions.map j.collisionGap
  let rest := j.items.filter fun row =>
    !(j.collisions.contains row.coordinate && unfinished row.status)
  let taken := { j with items := rest }
  (gaps, taken.insertGaps collisionScope gaps)

/-! ### The copy -/

def inLane (lane : Lane) (row : ItemRow) : Bool :=
  decide (row.planned.targetFormat = .oci) == decide (lane = .blob)

/-- The pending items of a lane, in the order they are claimed. -/
def queue (j : Journal) (lane : Lane) : List ItemRow :=
  (j.items.filter fun row => row.status == .pending && inLane lane row).insertionSort
    fun a b => a.coordinate ≤ b.coordinate

def start (now : Instant) (row : ItemRow) : ItemRow :=
  { row with status := .running, attempts := row.attempts + 1, claimedAt := some (bindTs now) }

def claim (j : Journal) (lane : Lane) (now : Instant) : Option Journaled × Journal :=
  match (j.queue lane).head? with
  | none => (none, j)
  | some row =>
      (some (start now row).journaled,
        { j with items := updateAt ItemRow.sourceRef row.sourceRef (start now) j.items })

def settle (o : Outcome) (row : ItemRow) : ItemRow :=
  { row with status := o.status, bytes := o.bytes, sha256 := o.sha256, error := o.error, note := o.note }

/-- The packages of the items of this reference. -/
def packagesOf (j : Journal) (sourceRef : Text) : List (Text × Text) :=
  (j.items.filter fun row => row.sourceRef == sourceRef).map ItemRow.package

def complete (j : Journal) (sourceRef : Text) (o : Outcome) : Journal :=
  let updated := { j with items := updateAt ItemRow.sourceRef sourceRef (settle o) j.items }
  let settled :=
    (updated.deleteGaps (· == itemScope sourceRef)).insertGaps (itemScope sourceRef) o.gaps
  if o.status = .failed then settled
  else
    { settled with
      pkgs := settled.pkgs.map fun row =>
        if (settled.packagesOf sourceRef).contains row.package then { row with isSealed := false } else row }

/-! ### Seals and the report's reads -/

def sealed (j : Journal) (targetRepo name : Text) (gaps : List Gap) : Journal :=
  let written :=
    (j.deleteGaps (· == sealScope targetRepo name)).insertGaps (sealScope targetRepo name) gaps
  { written with
    pkgs := updateAt PkgRow.package (targetRepo, name) (fun row => { row with isSealed := true })
      written.pkgs }

end Journal

/-! ### The operations, through handles -/

/-- A writing operation. -/
inductive Op where
  | begin (header : RunHeader) (owner : Text) (fresh : Bool) (now : Instant)
  | heartbeat (owner : Text) (now : Instant)
  | finish (phase : Text) (now : Instant)
  | streams (names : List Text)
  | record (stream : Text) (restarted : Bool) (planned : List Planned) (gaps : List Gap) (cursor : Cursor)
      (done : Bool)
  | replaceRunGaps (gaps : List Gap)
  | takeCollisions
  | claim (lane : Lane) (now : Instant)
  | complete (sourceRef : Text) (outcome : Outcome)
  | sealed (targetRepo name : Text) (gaps : List Gap)
deriving Repr, DecidableEq, Inhabited

/-- What an operation that succeeds returns. -/
inductive Answer where
  | done
  | gaps (found : List Gap)
  | claimed (item : Option Journaled)
deriving Repr, DecidableEq, Inhabited

/-- One operation's transaction, through a handle whose owner is `me`. -/
def perform (needsRedaction : Text → Bool) (j : Journal) (me : Option Text) :
    Op → Except JournalError (Answer × Journal)
  | .begin header owner fresh now => return (.done, ← j.begin needsRedaction header owner fresh now)
  | .heartbeat owner now => return (.done, ← j.heartbeat owner now)
  | .finish phase now => return (.done, ← j.finish me phase now)
  | .streams names => do
      j.fence me
      return (.done, j.streams names)
  | .record stream restarted planned gaps cursor done => do
      Journal.checkRedacted needsRedaction planned
      j.fence me
      return (.done, j.record stream restarted planned gaps cursor done)
  | .replaceRunGaps gaps => do
      j.fence me
      return (.done, j.replaceRunGaps gaps)
  | .takeCollisions => do
      j.fence me
      let (gaps, after) := j.takeCollisions
      return (.gaps gaps, after)
  | .claim lane now => do
      j.fence me
      let (item, after) := j.claim lane now
      return (.claimed item, after)
  | .complete sourceRef outcome => do
      j.fence me
      return (.done, j.complete sourceRef outcome)
  | .sealed targetRepo name gaps => do
      j.fence me
      return (.done, j.sealed targetRepo name gaps)

/-- What an operation that succeeds has found, and has written. -/
inductive Performed (j : Journal) (me : Option Text) : Op → Answer → Journal → Prop where
  | began {header owner fresh now} (free : j.heldBy owner now = none) :
      Performed j me (.begin header owner fresh now) .done (j.began header owner fresh now)
  | beat {owner now} (own : j.owner = some owner) :
      Performed j me (.heartbeat owner now) .done (j.beat now)
  | closed {phase now} (left : me = none) :
      Performed j me (.finish phase now) .done (j.closed phase now)
  | released {phase now owner} (holds : me = some owner) (own : j.owner = some owner) :
      Performed j me (.finish phase now) .done (j.released phase now)
  | streams {names} (passed : j.fence me = .ok ()) :
      Performed j me (.streams names) .done (j.streams names)
  | recorded {stream restarted planned gaps cursor done} (passed : j.fence me = .ok ()) :
      Performed j me (.record stream restarted planned gaps cursor done) .done
        (j.record stream restarted planned gaps cursor done)
  | replacedRunGaps {gaps} (passed : j.fence me = .ok ()) :
      Performed j me (.replaceRunGaps gaps) .done (j.replaceRunGaps gaps)
  | tookCollisions (passed : j.fence me = .ok ()) :
      Performed j me .takeCollisions (.gaps j.takeCollisions.1) j.takeCollisions.2
  | claimed {lane now} (passed : j.fence me = .ok ()) :
      Performed j me (.claim lane now) (.claimed (j.claim lane now).1) (j.claim lane now).2
  | completed {sourceRef outcome} (passed : j.fence me = .ok ()) :
      Performed j me (.complete sourceRef outcome) .done (j.complete sourceRef outcome)
  | sealed {targetRepo name gaps} (passed : j.fence me = .ok ()) :
      Performed j me (.sealed targetRepo name gaps) .done (j.sealed targetRepo name gaps)

theorem fence_eq_ok {j : Journal} {me : Option Text} :
    j.fence me = .ok () ↔ ∀ owner, me = some owner → j.owner = some owner := by
  cases me with
  | none => simp [Journal.fence]
  | some owner =>
      rw [Journal.fence]
      split
      · rename_i own
        simp [own]
      · rename_i other
        simpa using other

theorem performed {needsRedaction : Text → Bool} {j j' : Journal} {me : Option Text} {op : Op}
    {answer : Answer} (done : perform needsRedaction j me op = .ok (answer, j')) :
    Performed j me op answer j' := by
  cases op with
  | begin header owner fresh now =>
      obtain ⟨_, began, same⟩ := bind_eq_ok.mp done
      cases same
      rw [Journal.begin] at began
      split at began
      · cases began
      split at began
      · cases began
      split at began
      · cases began
      · rename_i free
        cases began
        exact .began free
  | heartbeat owner now =>
      obtain ⟨_, beat, same⟩ := bind_eq_ok.mp done
      cases same
      rw [Journal.heartbeat] at beat
      split at beat
      · rename_i own
        cases beat
        exact .beat own
      · cases beat
  | finish phase now =>
      obtain ⟨_, finished, same⟩ := bind_eq_ok.mp done
      cases same
      cases holds : me with
      | none =>
          rw [holds] at finished
          cases finished
          exact .closed rfl
      | some owner =>
          rw [holds, Journal.finish] at finished
          split at finished
          · rename_i own
            cases finished
            exact .released rfl own
          · cases finished
  | record stream restarted planned gaps cursor done' =>
      obtain ⟨_, _, rest⟩ := bind_eq_ok.mp done
      obtain ⟨_, passed, same⟩ := bind_eq_ok.mp rest
      cases same
      exact .recorded passed
  | streams names =>
      obtain ⟨_, passed, same⟩ := bind_eq_ok.mp done
      cases same
      exact .streams passed
  | replaceRunGaps gaps =>
      obtain ⟨_, passed, same⟩ := bind_eq_ok.mp done
      cases same
      exact .replacedRunGaps passed
  | takeCollisions =>
      obtain ⟨_, passed, same⟩ := bind_eq_ok.mp done
      cases same
      exact .tookCollisions passed
  | claim lane now =>
      obtain ⟨_, passed, same⟩ := bind_eq_ok.mp done
      cases same
      exact .claimed passed
  | complete sourceRef outcome =>
      obtain ⟨_, passed, same⟩ := bind_eq_ok.mp done
      cases same
      exact .completed passed
  | sealed targetRepo name gaps =>
      obtain ⟨_, passed, same⟩ := bind_eq_ok.mp done
      cases same
      exact .sealed passed

/-- The owner a handle remembers, after an operation through it: a `begin` that succeeds sets it, and
`finish` takes it, whether it succeeds or not. -/
def remembered (me : Option Text) (op : Op) (done : Bool) : Option Text :=
  match op with
  | .begin _ owner _ _ => if done then some owner else me
  | .finish _ _ => none
  | _ => me

/-- The journal's file, and the handles open on it, in this process and in others. -/
structure Files where
  journal : Journal
  handles : Nat → Option Text

/-- No handle of a new file has begun. -/
def Files.opened : Files := ⟨.empty, fun _ => none⟩

/-- An operation through one of the handles. -/
structure Act where
  handle : Nat
  op : Op
  /-- The file answers an I/O error, and nothing is written. -/
  fails : Bool
deriving Repr, DecidableEq, Inhabited

namespace Files

/-- What the operation answers, and the file after it: one that is refused writes nothing. -/
def answer (needsRedaction : Text → Bool) (f : Files) (a : Act) : Except JournalError (Answer × Journal) :=
  if a.fails then .error (.io []) else perform needsRedaction f.journal (f.handles a.handle) a.op

/-- What the handles remember after an operation through one of them. -/
def heard (f : Files) (a : Act) (done : Bool) (i : Nat) : Option Text :=
  if i = a.handle then remembered (f.handles i) a.op done else f.handles i

def step (needsRedaction : Text → Bool) (f : Files) (a : Act) : Option Files :=
  match f.answer needsRedaction a with
  | .ok (_, after) => some ⟨after, f.heard a true⟩
  | .error _ => some ⟨f.journal, f.heard a false⟩

theorem answered {needsRedaction : Text → Bool} {f : Files} {a : Act} {answer : Answer}
    {after : Journal} (done : f.answer needsRedaction a = .ok (answer, after)) :
    Performed f.journal (f.handles a.handle) a.op answer after := by
  rw [Files.answer] at done
  split at done
  · cases done
  · exact performed done

theorem step_cases {needsRedaction : Text → Bool} {f f' : Files} {a : Act}
    (taken : f.step needsRedaction a = some f') :
    (∃ answer after, f' = ⟨after, f.heard a true⟩ ∧
        Performed f.journal (f.handles a.handle) a.op answer after) ∨
      f' = ⟨f.journal, f.heard a false⟩ := by
  rw [step] at taken
  split at taken
  · rename_i answer after done
    cases taken
    exact .inl ⟨answer, after, rfl, answered done⟩
  · cases taken
    exact .inr rfl

end Files

end OpenCargo.Import
