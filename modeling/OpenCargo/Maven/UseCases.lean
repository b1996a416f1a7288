/-
Module: OpenCargo.Maven.UseCases
Purpose: The calls that write Maven's units: the deposit of a file and of a checksum
  (`app/maven/deposit.rs`), the reconciler's promotion (`app/maven/reconcile.rs`) and the
  administrator's decision (`app/maven/admin.rs`), as scripts over the store's statements and
  transactions; and the pool in which any number of them run.
Trusted boundary: how a body is received, what a placement does before and after its commit, and the
  `versions` row of a visible unit are the environment's: the operations `receive`, `placing` and
  `ensure` are answered with anything
Main exports: decideUnit, program, System, System.step
-/
import OpenCargo.Lib.Script
import OpenCargo.Maven.Store
import OpenCargo.Place

namespace OpenCargo.Maven

open OpenCargo.Lib
open OpenCargo.Place (PlaceError)
open OpenCargo.Reclaim (PinToken)

/-! ### What a call answers -/

inductive Deposited where
  /-- A new file or declaration; `revealed` when it made its unit visible. -/
  | stored (revealed : Bool)
  /-- The same bytes or the same checksum were already there. -/
  | unchanged
deriving Repr, DecidableEq, Inhabited

inductive DepositError where
  | contested
  | refused (why : Refusal)
  | mismatch (algorithm : SumAlgorithm)
  | badRequest (message : Text)
  | retired
  | unavailable
  | store (error : StoreError)
  | storage (error : StorageError)
deriving Repr, DecidableEq, Inhabited

/-- `From<StoreError>`. -/
def DepositError.ofStore : StoreError → DepositError
  | .conflict => .unavailable
  | .superseded _ => .unavailable
  | error => .store error

/-- `From<PlaceError>`. -/
def DepositError.ofPlace : PlaceError → DepositError
  | .retired => .retired
  | .refused error => .ofStore error
  | .store error => .ofStore error
  | .unavailable => .unavailable
  | .storage error => .storage error

inductive VersionError where
  | store (error : StoreError)
  | storage (error : StorageError)
deriving Repr, DecidableEq, Inhabited

/-- `AppError`, as far as a decision answers it. -/
inductive AppError where
  | notFound (message : Text)
  | conflict (message : Text)
  | badRequest (message : Text)
  | store (error : StoreError)
deriving Repr, DecidableEq, Inhabited

inductive Reconciled where
  | clean
  | repaired
  | skipped (why : Text)
  | failed (error : StoreError)
  /-- Promoted, the version row left to the next pass. -/
  | unversioned (error : VersionError)
deriving Repr, DecidableEq, Inhabited

/-! ### The operations -/

inductive Op where
  /-- The three statements of `MavenFileStore::unit`. -/
  | unitRow (key : UnitKey)
  | filesOf (unit : Nat)
  | declarationsOf (unit : Nat)
  /-- `MavenFileStore::change`. -/
  | change (change : UnitChange)
  /-- `MavenFileStore::refuse`. -/
  | refuse (key : UnitKey) (revision : Int) (scopes : List Text) (now : Instant)
  /-- The body written to its draft, with its size and its digests. -/
  | receive
  /-- The draft placed under a pinned key, or placed again. -/
  | placing
  /-- `MavenVersions::ensure`. -/
  | ensure (key : UnitKey) (unit : Unit) (now : Instant)
deriving Repr, DecidableEq, Inhabited

def Op.Answer : Op → Type
  | .unitRow _ => Except StoreError (Option UnitRow)
  | .filesOf _ => Except StoreError (List StoredFile)
  | .declarationsOf _ => Except StoreError (List Declaration)
  | .change _ => Except StoreError Changed
  | .refuse .. => Except StoreError Changed
  | .receive => Except DepositError (Int × Digests)
  | .placing => Except PlaceError (List PinToken)
  | .ensure .. => Except VersionError PUnit

/-- What the environment decides of an operation. -/
inductive Luck where
  /-- It is carried out, over these reclamation tables. -/
  | done (reclaim : Reclaim.Tables)
  /-- It fails, and nothing is written. -/
  | failed (error : StoreError)
  /-- It is carried out, and its answer is lost. -/
  | lost (reclaim : Reclaim.Tables) (error : StoreError)
  | received (answer : Except DepositError (Int × Digests))
  | placed (answer : Except PlaceError (List PinToken))
  | ensured (answer : Except VersionError PUnit)

/-- A read answers what the tables hold, or fails. -/
def reads {α : Type} (tables : Tables) (value : α) : Luck → Option (Except StoreError α × Tables)
  | .done _ => some (.ok value, tables)
  | .failed error => some (.error error, tables)
  | _ => none

/-- A transaction commits as a whole or not at all; either way its answer may be an error. -/
def writes (tables : Tables)
    (transaction : Reclaim.Tables → Except StoreError (Changed × Reclaim.Tables × Tables)) :
    Luck → Option (Except StoreError Changed × Tables)
  | .done reclaim =>
      match transaction reclaim with
      | .ok (changed, _, next) => some (.ok changed, next)
      | .error error => some (.error error, tables)
  | .failed error => some (.error error, tables)
  | .lost reclaim error =>
      match transaction reclaim with
      | .ok (_, _, next) => some (.error error, next)
      | .error _ => none
  | _ => none

def perform (tables : Tables) : (op : Op) → Luck → Option (op.Answer × Tables)
  | .unitRow key, luck => reads tables (tables.unitRow key) luck
  | .filesOf unit, luck => reads tables (tables.filesOf unit) luck
  | .declarationsOf unit, luck => reads tables (tables.declarationsOf unit) luck
  | .change change, luck => writes tables (tables.apply · change) luck
  | .refuse key revision scopes now, luck =>
      writes tables (tables.refuseUnit · key revision scopes now) luck
  | .receive, .received answer => some (answer, tables)
  | .placing, .placed answer => some (answer, tables)
  | .ensure .., .ensured answer => some (answer, tables)
  | _, _ => none

/-! ### The use cases -/

abbrev Call (α : Type) := Script Op Op.Answer α

section Asked

variable (key : UnitKey) (unit : Nat)

def unitRow : Call (Except StoreError (Option UnitRow)) := Script.ask (Op.unitRow key)

def filesOf : Call (Except StoreError (List StoredFile)) := Script.ask (Op.filesOf unit)

def declarationsOf : Call (Except StoreError (List Declaration)) :=
  Script.ask (Op.declarationsOf unit)

def change (change : UnitChange) : Call (Except StoreError Changed) :=
  Script.ask (Op.change change)

def refuse (revision : Int) (scopes : List Text) (now : Instant) :
    Call (Except StoreError Changed) :=
  Script.ask (Op.refuse key revision scopes now)

def receive : Call (Except DepositError (Int × Digests)) := Script.ask Op.receive

def placing : Call (Except PlaceError (List PinToken)) := Script.ask Op.placing

def ensure (unit : Unit) (now : Instant) : Call (Except VersionError PUnit) :=
  Script.ask (Op.ensure key unit now)

end Asked

/-- Where a deposit lands and who makes it. -/
structure Target where
  unit : UnitKey
  filename : Text
  principal : Text
  /-- The metadata counters a change here moves. -/
  scopes : List Text
deriving Repr, DecidableEq, Inhabited

def Target.pom (target : Target) : Bool := isPom target.filename

/-- `ROUNDS`: compare-and-set rounds before a deposit gives up as retryable. -/
def rounds : Nat := 5

/-- `MavenFileStore::unit`: three statements, each over the tables as it finds them. -/
def readUnit (key : UnitKey) : Call (Except StoreError (Option Unit)) := do
  match ← unitRow key with
  | .error e => return .error e
  | .ok none => return .ok none
  | .ok (some row) =>
      match ← filesOf row.id with
      | .error e => return .error e
      | .ok files =>
          match ← declarationsOf row.id with
          | .error e => return .error e
          | .ok declarations => return .ok (some (row.unit files declarations))

section Deposits

variable (target : Target) (now : Instant)

/-- The change that stores the placed file. -/
def storing (read : Option Unit) (size : Int) (digests : Digests) (pins : List PinToken)
    (reveal : Bool) : UnitChange where
  key := target.unit
  revision := read.map Unit.revision
  depositor := target.principal
  file := some
    { filename := target.filename
      physicalKey := (pins.headD default).physicalKey
      size := size
      digests := digests
      depositor := target.principal }
  declarations := []
  contest := false
  reveal := reveal
  scopes := target.scopes
  pins := pins
  now := now

/-- The commit of `place`: decided on a fresh read, and again whenever the compare-and-set loses. -/
def commitFile (size : Int) (digests : Digests) (pins : List PinToken) :
    Nat → Call (Except StoreError Bool)
  | 0 => return .error .conflict
  | left + 1 => do
      match ← readUnit target.unit with
      | .error e => return .error e
      | .ok read =>
          match judgeFile read target.filename digests target.principal target.pom with
          | .store _ reveal =>
              match ← change (storing target now read size digests pins reveal) with
              | .ok _ => return .ok reveal
              | .error .conflict => commitFile size digests pins left
              | .error e => return .error e
          | _ => return .error .conflict

/-- `place_shared`, as its commit sees it: a commit whose pins were revoked is tried again with the pins
of another placement. -/
def placeShared {α : Type} (commit : List PinToken → Call (Except StoreError α)) :
    Nat → Call (Except PlaceError α)
  | 0 => return .error .unavailable
  | left + 1 => do
      match ← placing with
      | .error e => return .error e
      | .ok pins =>
          match ← commit pins with
          | .ok done => return .ok done
          | .error (.superseded _) => placeShared commit left
          | .error refused => return .error (.refused refused)

/-- The draft moved to its `HostedKey`, the unit changed under its pin. -/
def place (size : Int) (digests : Digests) : Call (Except DepositError Bool) := do
  match ← placeShared (fun pins => commitFile target now size digests pins rounds)
      Place.attempts with
  | .ok revealed => return .ok revealed
  | .error e => return .error (.ofPlace e)

/-- The change that marks the unit contested. -/
def contesting (read : Option Unit) : UnitChange where
  key := target.unit
  revision := read.map Unit.revision
  depositor := target.principal
  file := none
  declarations := []
  contest := true
  reveal := false
  scopes := target.scopes
  pins := []
  now := now

/-- `false` when the compare-and-set lost and the caller must decide again. -/
def contest (read : Option Unit) : Call (Except DepositError Bool) := do
  match ← change (contesting target now read) with
  | .ok _ => return .ok true
  | .error .conflict => return .ok false
  | .error e => return .error (.ofStore e)

/-- What a deposit whose bytes are not stored answers: the verdict on a fresh read, with the contest
mark written when that is the verdict. -/
def settleWithoutBytes (digests : Digests) : Nat → Call (Except DepositError Deposited)
  | 0 => return .error .unavailable
  | left + 1 => do
      match ← readUnit target.unit with
      | .error e => return .error (.ofStore e)
      | .ok read =>
          match judgeFile read target.filename digests target.principal target.pom with
          | .identical => return .ok .unchanged
          | .refuse why => return .error (.refused why)
          | .mismatch algorithm => return .error (.mismatch algorithm)
          | .store _ _ => return .error .unavailable
          | .contest =>
              match ← contest target now read with
              | .error e => return .error e
              | .ok true => return .error .contested
              | .ok false => settleWithoutBytes digests left

/-- The base version on a `versions` row. The file is already served: a failure here is repaired by the
reconciler, never the client's. -/
def publish : Call PUnit := do
  match ← readUnit target.unit with
  | .ok (some unit) => do
      let _ ← ensure target.unit unit now
      return ()
  | _ => return ()

/-- The outcome of `file`, before a revealed unit is published. -/
def depositFile (size : Int) (digests : Digests) : Call (Except DepositError Deposited) := do
  match ← readUnit target.unit with
  | .error e => return .error (.ofStore e)
  | .ok current =>
      match judgeFile current target.filename digests target.principal target.pom with
      | .store _ _ =>
          match ← place target now size digests with
          | .ok revealed => return .ok (.stored revealed)
          | .error .unavailable => settleWithoutBytes target now digests rounds
          | .error e => return .error e
      | _ => settleWithoutBytes target now digests rounds

/-- One file: artifact, classifier, POM or signature. -/
def file : Call (Except DepositError Deposited) := do
  match ← receive with
  | .error e => return .error e
  | .ok (size, digests) =>
      match ← depositFile target now size digests with
      | .ok (.stored true) => do
          publish target now
          return .ok (.stored true)
      | outcome => return outcome

/-- The change that keeps a declaration. -/
def declaring (read : Option Unit) (algorithm : SumAlgorithm) (value : Text) : UnitChange where
  key := target.unit
  revision := read.map Unit.revision
  depositor := target.principal
  file := none
  declarations := [⟨target.filename, algorithm, value⟩]
  contest := false
  reveal := false
  scopes := target.scopes
  pins := []
  now := now

/-- A checksum the client sent for one file of the unit. -/
def sum (algorithm : SumAlgorithm) (value : Text) : Nat → Call (Except DepositError Deposited)
  | 0 => return .error .unavailable
  | left + 1 => do
      match ← readUnit target.unit with
      | .error e => return .error (.ofStore e)
      | .ok read =>
          match judgeSum read target.filename algorithm value target.principal with
          | .agrees => return .ok .unchanged
          | .refuse why => return .error (.refused why)
          | .mismatch => return .error (.mismatch algorithm)
          | .record =>
              match ← change (declaring target now read algorithm value) with
              | .ok _ => return .ok (.stored false)
              | .error .conflict => sum algorithm value left
              | .error e => return .error (.ofStore e)
          | .contest =>
              match ← change (contesting target now read) with
              | .ok _ => return .error .contested
              | .error .conflict => sum algorithm value left
              | .error e => return .error (.ofStore e)

end Deposits

section Decisions

variable (key : UnitKey) (scopes : List Text) (now : Instant)

/-- The change that makes a unit visible as it is. -/
def revealing (unit : Unit) : UnitChange where
  key := key
  revision := some unit.revision
  depositor := unit.depositor
  file := none
  declarations := []
  contest := false
  reveal := true
  scopes := scopes
  pins := []
  now := now

/-- `MavenReconcile::promote`, of a unit the store listed as pending. -/
def promote (window : Int) : Call Reconciled := do
  match ← readUnit key with
  | .error e => return .failed e
  | .ok none => return .clean
  | .ok (some unit) =>
      if unit.contested then return .skipped "contested: an administrator decides".toList
      else if !promotable unit now window then return .clean
      else
        match ← change (revealing key scopes now unit) with
        | .error .conflict => return .skipped "the unit moved".toList
        | .error e => return .failed e
        | .ok _ =>
            match ← readUnit key with
            | .error e => return .failed e
            | .ok none => return .repaired
            | .ok (some revealed) =>
                match ← ensure key revealed now with
                | .ok _ => return .repaired
                | .error e => return .unversioned e

inductive Decision where
  | promote
  | refuse
deriving Repr, DecidableEq, Inhabited

/-- `{ga}:{version}:{build}`. -/
def UnitKey.target (key : UnitKey) : Text :=
  key.ga ++ [':'] ++ key.version ++ [':'] ++ key.build

/-- `moved`. -/
def AppError.ofMoved : StoreError → AppError
  | .conflict => .conflict "the unit changed meanwhile, try again".toList
  | error => .store error

/-- `DecideUnit::run`, but for the audit line of a decision that was carried out. -/
def decideUnit (decision : Decision) : Call (Except AppError PUnit) := do
  match ← readUnit key with
  | .error e => return .error (.store e)
  | .ok none => return .error (.notFound ("no such maven unit: ".toList ++ key.target))
  | .ok (some unit) =>
      if unit.visible then
        return .error (.conflict (key.target ++ " is already published".toList))
      else if unit.refused then
        return .error (.conflict (key.target ++ " was refused".toList))
      else
        match decision with
        | .promote =>
            if unit.files.isEmpty then
              return .error (.badRequest (key.target ++ " holds no file".toList))
            else
              match ← change (revealing key scopes now unit) with
              | .error e => return .error (.ofMoved e)
              | .ok _ =>
                  match ← readUnit key with
                  | .error e => return .error (.store e)
                  | .ok none => return .ok ()
                  | .ok (some revealed) => do
                      let _ ← ensure key revealed now
                      return .ok ()
        | .refuse =>
            match ← refuse key unit.revision scopes now with
            | .error e => return .error (.ofMoved e)
            | .ok _ => return .ok ()

end Decisions

/-! ### The pool of calls -/

inductive Request where
  | file (target : Target) (now : Instant)
  | sum (target : Target) (algorithm : SumAlgorithm) (value : Text) (now : Instant)
  /-- The reconciler, on one unit. -/
  | promote (key : UnitKey) (scopes : List Text) (now : Instant)
  /-- An administrator. -/
  | decide (key : UnitKey) (decision : Decision) (scopes : List Text) (now : Instant)
deriving Repr, DecidableEq, Inhabited

/-- The unit a request is about. -/
def Request.key : Request → UnitKey
  | .file target _ => target.unit
  | .sum target .. => target.unit
  | .promote key .. => key
  | .decide key .. => key

inductive Answer where
  | deposited (outcome : Except DepositError Deposited)
  | reconciled (outcome : Reconciled)
  | decided (outcome : Except AppError PUnit)

/-- What serves a request; `window` is the reconciler's. -/
def program (window : Int) : Request → Call Answer
  | .file target now => return .deposited (← file target now)
  | .sum target algorithm value now => return .deposited (← sum target now algorithm value rounds)
  | .promote key scopes now => return .reconciled (← promote key scopes now window)
  | .decide key decision scopes now => return .decided (← decideUnit key scopes now decision)

abbrev System := Pool Request Tables Op Op.Answer Answer

abbrev Act := Pool.Act Request Luck

def System.init : System := ⟨⟨[], [], [], []⟩, []⟩

def System.step (window : Int) : System → Act → Option System :=
  Pool.step perform (program window)

end OpenCargo.Maven
