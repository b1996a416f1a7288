/-
Module: OpenCargo.Reclaim.System
Purpose: The reclamation as a system: any number of writers and reclaimers over one database and one
  artifact store, one action for each transaction and each object access. A party that is never moved
  again has stopped between two of its steps. The reclaimers are `app/reclaim.rs`; the writers are
  whatever pins, writes at the keys it was given and commits rows with the tokens it was given.
Trusted boundary: a fresh nonce names a key nobody has named before, and a fresh incarnation one that
  was never used (`uuid::Uuid::new_v4`)
Main exports: Holder, State, Act, step
-/
import OpenCargo.Lib.Run
import OpenCargo.Reclaim.Prefix

namespace OpenCargo.Reclaim

open OpenCargo.Lib

/-! ### The reclaimers -/

/-- Where a reclaimer that was answered `Claimed` stands in `one` and `delete_prefix`. -/
inductive Stage where
  | claimed
  /-- The object of an exact key is deleted. -/
  | deleted
  /-- The claim of an exact key is released; its `stat` is next. -/
  | released
  /-- What `list` gave under the prefix, about to be deleted as one batch. -/
  | listed (keys : List Text)
  /-- A batch is deleted; the claim is renewed next. -/
  | swept
  /-- The last listing was empty. -/
  | emptied
  /-- The retirement of the prefix is forgotten; the release is next. -/
  | forgotten
deriving Repr, DecidableEq, Inhabited

/-- A reclaimer that holds what it takes for a claim: the key, whether its candidate said it is a
prefix, and the token. `retired` is history: the prefix was one of a retired incarnation when it was
claimed. -/
structure Holder where
  id : Nat
  key : Text
  isPrefix : Bool
  token : Text
  retired : Bool
  stage : Stage
deriving Repr, DecidableEq, Inhabited

/-! ### The state -/

/-- The database, the store and the reclaimers. `handed` is every candidate a reclaimer was handed by
`due` or by the operator's command, however long ago. `placed` is every physical key a pin was given
for, and `uploads` every upload tree that was opened: where the writers write. `seen` (every key that
was named), `incarnations` (every incarnation that was used) and `deleted` (every key whose object a
reclaimer deleted) are history. -/
structure State (β : Type) where
  rows : List Ref
  tables : Tables
  epoch : Text
  objects : Objects β
  handed : List Candidate
  holders : List Holder
  placed : List Text
  uploads : List Text
  seen : List Text
  incarnations : List Text
  deleted : List Text

variable {β : Type}

namespace State

def holder (state : State β) (id : Nat) : Option Holder :=
  state.holders.find? fun h => h.id == id

def setStage (state : State β) (h : Holder) (stage : Stage) : State β :=
  { state with
    holders := state.holders.map fun other => if other = h then { h with stage := stage } else other }

def dismiss (state : State β) (h : Holder) : State β :=
  { state with holders := state.holders.filter fun other => other ≠ h }

end State

/-! ### The actions -/

inductive Act (β : Type) where
  /-- A repository is created under a fresh incarnation. -/
  | create (format : Format) (name incarnation : Text) (now : Instant)
  /-- A repository is retired; its rows that remain, if any, go with it. -/
  | retire (incarnation : Text) (group : Bool) (rows : List Ref) (now : Instant)
  /-- `pin`, for the logical keys of one placement under an incarnation. -/
  | pin (incarnation : Text) (draws : List Tables.Draw) (until_ : Instant)
  /-- A writer writes the object of a key it was given, whatever became of its pin. -/
  | write (key : Text) (body : β)
  /-- A committing transaction: it spends its tokens, leaves these rows, and queues these keys. -/
  | commit (tokens : List PinToken) (rows : List Ref) (enqueued : List Text) (now : Instant)
  /-- An upload session is opened: its row protects its tree. -/
  | startUpload (incarnation upload : Text)
  | enqueue (keys : List Text) (now : Instant)
  /-- `enqueue_prefix`: a reaped upload's tree, or the operator's `storage reclaim --prefix`, which
  hands the prefix to its reclaimer as well. -/
  | enqueuePrefix (key : Text) (now : Instant)
  | due (grace : Duration) (now : Instant) (limit : Nat)
  | claim (id : Nat) (candidate : Candidate) (grace : Duration) (now until_ : Instant)
      (token : Text)
  /-- `storage.delete` of an exact key. -/
  | delete (id : Nat)
  | release (id : Nat)
  /-- `stat`, and `forget_claimed` when it finds nothing. -/
  | settle (id : Nat)
  | list (id : Nat) (budget batch : Nat)
  /-- `delete_batch`, of what it gets to before it ends or fails. -/
  | deleteBatch (id : Nat) (keys : List Text)
  | renew (id : Nat) (until_ : Instant)
  | forgetRetired (id : Nat)
  | prune (grace : Duration) (now : Instant) (limit : Nat)
  /-- The epoch is drawn anew. -/
  | newEpoch (epoch : Text)

/-- What a commit may leave: rows that were there, and exact references to a key whose pin it spends or
that another row already references. -/
def admissible (state : State β) (tokens : List PinToken) (rows : List Ref) : Bool :=
  rows.all fun row =>
    state.rows.contains row ||
      (!row.protects &&
        (tokens.any (fun token => token.physicalKey == row.key) ||
          state.rows.any fun other => !other.protects && other.key == row.key))

/-- A draw of `pin_all` is what it is taken for: its logical key lies under the incarnation's prefix,
and the key it would mint is new and keeps its generation in one segment. -/
def drawn (state : State β) (incarnation : Text) (draw : Tables.Draw) : Bool :=
  Layout.sqlWithin draw.logical (Layout.incarnationPrefix incarnation) &&
    !(Layout.generation state.epoch draw.nonce).contains '/' &&
    !state.seen.contains
      (Layout.physicalKey draw.logical (Layout.generation state.epoch draw.nonce))

/-! ### The steps of the writers -/

def createStep (state : State β) (format : Format) (name incarnation : Text) (now : Instant) :
    Option (State β) :=
  if !incarnation.contains '/' && !state.incarnations.contains incarnation &&
      state.tables.adoptable format name now then
    some { state with
      tables := state.tables.adopt format name incarnation
      incarnations := incarnation :: state.incarnations }
  else none

def retireStep (state : State β) (incarnation : Text) (group : Bool) (rows : List Ref)
    (now : Instant) : Option (State β) :=
  if rows.all state.rows.contains then
    some { state with
      rows := rows
      tables := state.tables.retire incarnation group now
      seen := state.tables.prefixes.map StoragePrefix.key ++ state.seen }
  else none

def pinStep (state : State β) (incarnation : Text) (draws : List Tables.Draw) (until_ : Instant) :
    Option (State β) :=
  if draws.all (drawn state incarnation) then
    match state.tables.pinAll state.rows state.epoch (Layout.incarnationPrefix incarnation) draws
        until_ with
    | (.retired, _) => some state
    | (.tokens tokens, tables) =>
        let keys := tokens.map PinToken.physicalKey
        some { state with tables := tables, placed := keys ++ state.placed, seen := keys ++ state.seen }
  else none

/-- A writer writes at a key it was given, or a segment under the upload tree it opened. -/
def writeStep (state : State β) (key : Text) (body : β) : Option (State β) :=
  if state.placed.contains key || state.uploads.any fun tree => Layout.sqlWithin key tree then
    some { state with objects := state.objects.put key body, seen := key :: state.seen }
  else none

/-- A commit whose pins are gone answers `Superseded` and leaves everything as it was. -/
def commitStep (state : State β) (tokens : List PinToken) (rows : List Ref) (enqueued : List Text)
    (now : Instant) : Option (State β) :=
  if admissible state tokens rows then
    match state.tables.spendPins tokens with
    | .error _ => some state
    | .ok tables =>
        some { state with
          rows := rows, tables := tables.enqueueKeys enqueued now, seen := enqueued ++ state.seen }
  else none

def startUploadStep (state : State β) (incarnation upload : Text) : Option (State β) :=
  let tree := Layout.uploadPrefix (Layout.incarnationPrefix incarnation) upload
  if state.tables.isLivePrefix (Layout.incarnationPrefix incarnation) &&
      state.seen.all fun key => !Layout.under key tree then
    some { state with
      rows := ⟨tree, true⟩ :: state.rows, uploads := tree :: state.uploads, seen := tree :: state.seen }
  else none

/-! ### The steps of the reclaimers -/

def claimStep (state : State β) (id : Nat) (candidate : Candidate) (grace : Duration)
    (now until_ : Instant) (token : Text) : Option (State β) :=
  if state.holder id = none ∧ candidate ∈ state.handed then
    match state.tables.claimOne state.rows candidate.key grace now until_ token with
    | (.claimed token, tables) =>
        some { state with
          tables := tables
          holders :=
            ⟨id, candidate.key, candidate.isPrefix, token,
              state.tables.isRetiredPrefix candidate.key, .claimed⟩ :: state.holders }
    | (_, tables) => some { state with tables := tables }
  else none

def deleteStep (state : State β) (h : Holder) : Option (State β) :=
  match h.isPrefix, h.stage with
  | false, .claimed =>
      some ({ state with
        objects := state.objects.delete h.key
        deleted := h.key :: state.deleted }.setStage h .deleted)
  | _, _ => none

/-- A released exact key is looked at once more; a released prefix is done. -/
def releaseStep (state : State β) (h : Holder) : Option (State β) :=
  match h.isPrefix, h.stage with
  | false, .deleted =>
      some ({ state with tables := state.tables.release h.token }.setStage h .released)
  | true, .forgotten => some ({ state with tables := state.tables.release h.token }.dismiss h)
  | _, _ => none

def settleStep (state : State β) (h : Holder) : Option (State β) :=
  match h.isPrefix, h.stage with
  | false, .released =>
      if state.objects.keys.contains h.key then some (state.dismiss h)
      else some ({ state with tables := state.tables.forgetClaimed h.key }.dismiss h)
  | _, _ => none

def listStep (state : State β) (h : Holder) (budget batch : Nat) : Option (State β) :=
  match h.isPrefix, h.stage with
  | true, .claimed =>
      match state.objects.list budget h.key with
      | .ok keys =>
          if keys.isEmpty then some (state.setStage h .emptied)
          else some (state.setStage h (.listed (keys.take (max batch 1))))
      | .error _ => some (state.dismiss h)
  | _, _ => none

def deleteBatchStep (state : State β) (h : Holder) (keys : List Text) : Option (State β) :=
  match h.isPrefix, h.stage with
  | true, .listed listed =>
      if keys.all listed.contains then
        some ({ state with
          objects := state.objects.deleteBatch keys
          deleted := keys ++ state.deleted }.setStage h .swept)
      else none
  | _, _ => none

def renewStep (state : State β) (h : Holder) (until_ : Instant) : Option (State β) :=
  match h.isPrefix, h.stage with
  | true, .swept =>
      match state.tables.renew h.token until_ with
      | (.renewed, tables) => some ({ state with tables := tables }.setStage h .claimed)
      | (.superseded, _) => some (state.dismiss h)
  | _, _ => none

def forgetRetiredStep (state : State β) (h : Holder) : Option (State β) :=
  match h.isPrefix, h.stage with
  | true, .emptied =>
      some ({ state with tables := state.tables.forgetRetired h.key }.setStage h .forgotten)
  | _, _ => none

def step (state : State β) : Act β → Option (State β)
  | .create format name incarnation now => createStep state format name incarnation now
  | .retire incarnation group rows now => retireStep state incarnation group rows now
  | .pin incarnation draws until_ => pinStep state incarnation draws until_
  | .write key body => writeStep state key body
  | .commit tokens rows enqueued now => commitStep state tokens rows enqueued now
  | .startUpload incarnation upload => startUploadStep state incarnation upload
  | .enqueue keys now =>
      some { state with tables := state.tables.enqueueKeys keys now, seen := keys ++ state.seen }
  | .enqueuePrefix key now =>
      some { state with
        tables := state.tables.enqueuePrefix key now
        handed := ⟨key, true⟩ :: state.handed
        seen := key :: state.seen }
  | .due grace now limit =>
      some { state with handed := state.tables.due grace now limit ++ state.handed }
  | .claim id candidate grace now until_ token =>
      claimStep state id candidate grace now until_ token
  | .delete id => (state.holder id).bind (deleteStep state)
  | .release id => (state.holder id).bind (releaseStep state)
  | .settle id => (state.holder id).bind (settleStep state)
  | .list id budget batch => (state.holder id).bind fun h => listStep state h budget batch
  | .deleteBatch id keys => (state.holder id).bind fun h => deleteBatchStep state h keys
  | .renew id until_ => (state.holder id).bind fun h => renewStep state h until_
  | .forgetRetired id => (state.holder id).bind (forgetRetiredStep state)
  | .prune grace now limit =>
      some { state with tables := state.tables.prunePins grace now limit }
  | .newEpoch epoch => some { state with epoch := epoch }

end OpenCargo.Reclaim
