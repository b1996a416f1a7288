/-
Module: OpenCargo.S3.Backend
Purpose: The S3 adapter of the storage port (`adapters/s3/mod.rs`, `adapters/s3/writer.rs`): each operation
  as the requests it makes of the object store and the accesses it makes to the existence cache, one
  after the other; and what a request does when it is served, refused, or not answered.
Trusted boundary: that the object store carries out a request entirely or not at all, completes an upload
  with the parts it is given the ids of or not at all, and that a part's id names its content; the
  adapter's own prefix, which every key is under, and the ledger's rows are left out
Main exports: deleteBatch, writing, Request, program
-/
import OpenCargo.S3.Cache
import OpenCargo.Lib.Script

namespace OpenCargo.S3

open OpenCargo.Lib (Script)

/-! ### Requests, and accesses to the cache -/

/-- What a request comes back with instead of an answer: that there is no such object, any other error,
or nothing within its bound. -/
inductive Fault where
  | notFound
  | failed
  | elapsed
deriving Repr, DecidableEq, Inhabited

/-- `fault` and `timed_out`. -/
def Fault.toError : Fault → StorageError
  | .notFound => .notFound
  | .failed => .unavailable
  | .elapsed => .unavailable

/-- The id of an uploaded part, which names its content. -/
abbrev PartId := Bytes

inductive Op where
  | head (key : Text)
  | put (key : Text) (body : Bytes)
  | createMultipart (key : Text)
  | putPart (key : Text) (upload index : Nat) (body : Bytes)
  | completeMultipart (key : Text) (upload : Nat) (parts : List PartId)
  | abortMultipart (key : Text) (upload : Nat)
  /-- `found` is the size the caller knows of the source. The request does not carry it. -/
  | copy (source target : Text) (found : Nat)
  /-- The deletions one `DeleteObjects` request makes. -/
  | delete (keys : List Text)
  /-- The ledger records an upload as open, or as closed. -/
  | opened (upload : Nat)
  | closed (upload : Nat)
  /-- `ExistsCache::get`. -/
  | cached (key : Text)
  | remember (key : Text) (size : Nat)
  | forget (key : Text)
deriving Repr, DecidableEq, Inhabited

def Op.Answer : Op → Type
  | .head _ => Except Fault Nat
  | .put .. => Except Fault Unit
  | .createMultipart _ => Except Fault Nat
  | .putPart .. => Except Fault PartId
  | .completeMultipart .. => Except Fault Unit
  | .abortMultipart .. => Except Fault Unit
  | .copy .. => Except Fault Unit
  | .delete _ => Except Fault Unit
  | .opened _ => Except Fault Unit
  | .closed _ => Except Fault Unit
  | .cached _ => Option Nat
  | .remember .. => Unit
  | .forget _ => Unit

/-- The answer of a request that fails; an access to the cache does not. -/
def Op.failing : (op : Op) → Option (Fault → op.Answer)
  | .head _ => some .error
  | .put .. => some .error
  | .createMultipart _ => some .error
  | .putPart .. => some .error
  | .completeMultipart .. => some .error
  | .abortMultipart .. => some .error
  | .copy .. => some .error
  | .delete _ => some .error
  | .opened _ => some .error
  | .closed _ => some .error
  | .cached _ => none
  | .remember .. => none
  | .forget _ => none

/-- What a request does to the objects. -/
def Op.effect (objects : Objects Bytes) : Op → Objects Bytes
  | .put key body => objects.put key body
  | .completeMultipart key _ parts => objects.put key parts.flatten
  | .copy source target _ =>
      match objects.get source with
      | some body => objects.put target body
      | none => objects
  | .delete keys => objects.deleteBatch keys
  | _ => objects

/-- What an access does to the cache. -/
def Op.onCache (cache : ExistsCache) : Op → ExistsCache
  | .remember key size => cache.fill key size
  | .forget key => cache.forget key
  | _ => cache

structure World where
  objects : Objects Bytes
  /-- Requests that nothing came back from, and that may yet be carried out. -/
  late : List Op
  /-- What has been asked, the last first. -/
  asked : List Op
  /-- `None` where the settings ask for no entry. -/
  cache : Option ExistsCache

namespace World

/-- A store as it stands, nothing asked of it. -/
def holding (objects : Objects Bytes) (cache : Option ExistsCache) : World := ⟨objects, [], [], cache⟩

def size (w : World) (key : Text) : Option Nat := (w.objects.get key).map List.length

/-- What is remembered of a key. -/
def recalled (w : World) (key : Text) : Option Nat := w.cache.bind (·.get key)

def carryOut (w : World) (op : Op) : World :=
  { w with
    objects := op.effect w.objects
    cache := w.cache.map fun cache => op.onCache cache }

/-- A late request is carried out after all. -/
def land (w : World) (i : Nat) : World :=
  match w.late[i]? with
  | some op => { w with objects := op.effect w.objects, late := w.late.eraseIdx i }
  | none => w

/-- The answer of a request that is served. An upload's id is one that was not given before. -/
def answer (w : World) : (op : Op) → op.Answer
  | .head key => ((w.size key).elim (.error .notFound) .ok : Except Fault Nat)
  | .put .. => (.ok () : Except Fault Unit)
  | .createMultipart _ => (.ok w.asked.length : Except Fault Nat)
  | .putPart _ _ _ body => (.ok body : Except Fault PartId)
  | .completeMultipart .. => (.ok () : Except Fault Unit)
  | .abortMultipart .. => (.ok () : Except Fault Unit)
  | .copy source _ _ => (if (w.objects.get source).isSome then .ok () else .error .notFound : Except Fault Unit)
  | .delete _ => (.ok () : Except Fault Unit)
  | .opened _ => (.ok () : Except Fault Unit)
  | .closed _ => (.ok () : Except Fault Unit)
  | .cached key => (w.recalled key : Option Nat)
  | .remember .. => ()
  | .forget _ => ()

end World

/-- How a request goes. -/
inductive Fate where
  | served
  /-- It is not carried out, and answered with a fault. -/
  | refused (fault : Fault)
  /-- It is carried out, and answered with a fault. -/
  | lost (fault : Fault)
  /-- Nothing comes back, and it may be carried out later. -/
  | late
deriving Repr, DecidableEq, Inhabited

/-- Which of the late requests are carried out before a request, and how it goes itself. -/
structure Luck where
  landing : List Nat
  fate : Fate
deriving Repr, DecidableEq, Inhabited

/-- A request that is served, and none before it. -/
def Luck.good : Luck := ⟨[], .served⟩

def perform (w : World) (op : Op) (luck : Luck) : Option (op.Answer × World) :=
  let now := luck.landing.foldl World.land { w with asked := op :: w.asked }
  match luck.fate, op.failing with
  | .refused fault, some answer => some (answer fault, now)
  | .lost fault, some answer => some (answer fault, now.carryOut op)
  | .late, some answer => some (answer .elapsed, { now with late := op :: now.late })
  | _, _ => some (now.answer op, now.carryOut op)

/-! ### The operations -/

abbrev Does (α : Type) : Type := Script Op Op.Answer α

/-- The key rules, before any request. -/
def path (budget : Nat) (key : Text) : Except StorageError Unit := do
  Keys.validate key budget
  Keys.validateSegments key Keys.maxNameBytes

def statPath (key : Text) : Does (Except StorageError (Option Nat)) := do
  match ← (Script.ask (Op.head key) : Does (Except Fault Nat)) with
  | .ok size => return .ok (some size)
  | .error .notFound => return .ok none
  | .error fault => return .error fault.toError

/-- A write that answered anything but success is re-decided by an uncached `stat` of its target: the
expected size means it landed. -/
def decide (key : Text) (written : Nat) : Except Fault Unit → Does (Except StorageError Unit)
  | .ok () => return .ok ()
  | .error _ => do
      match ← statPath key with
      | .error e => return .error e
      | .ok (some size) => return if size = written then .ok () else .error .unavailable
      | .ok none => return .error .unavailable

/-- An open multipart upload. -/
structure Upload where
  id : Nat
  parts : List PartId
deriving Repr, DecidableEq, Inhabited

structure Writer where
  key : Text
  buf : Bytes
  upload : Option Upload
  written : Nat
deriving Repr, DecidableEq, Inhabited

namespace Writer

def new (key : Text) : Writer := ⟨key, [], none, 0⟩

/-- The ledger that refuses an upload has it aborted. -/
def openUpload (w : Writer) : Does (Except StorageError Unit × Writer) := do
  match ← (Script.ask (Op.createMultipart w.key) : Does (Except Fault Nat)) with
  | .error fault => return (.error fault.toError, w)
  | .ok id =>
      match ← (Script.ask (Op.opened id) : Does (Except Fault Unit)) with
      | .ok () => return (.ok (), { w with upload := some ⟨id, []⟩ })
      | .error _ => do
          let _ ← (Script.ask (Op.abortMultipart w.key id) : Does (Except Fault Unit))
          return (.error .unavailable, w)

/-- A part of the open upload `up`. -/
def putPart (w : Writer) (up : Upload) (data : Bytes) : Does (Except StorageError Unit × Writer) := do
  match ← (Script.ask (Op.putPart w.key up.id up.parts.length data) : Does (Except Fault PartId)) with
  | .error fault => return (.error fault.toError, w)
  | .ok part => return (.ok (), { w with upload := some { up with parts := up.parts ++ [part] } })

/-- `drain_full_parts`: each round takes a part off the buffer, so its length bounds them. -/
def drain (partSize : Nat) : Nat → Writer → Does (Except StorageError Unit × Writer)
  | 0, w => return (.ok (), w)
  | fuel + 1, w =>
      match w.upload with
      | none => return (.ok (), w)
      | some up => do
          if w.buf.length < partSize then return (.ok (), w)
          match ← putPart { w with buf := w.buf.drop partSize } up (w.buf.take partSize) with
          | (.ok (), w) => drain partSize fuel w
          | (.error e, w) => return (.error e, w)

/-- An upload is opened once so many bytes would exceed a part. -/
def openFor (partSize : Nat) (w : Writer) (bytes : Nat) : Does (Except StorageError Unit × Writer) :=
  if w.upload = none ∧ partSize < bytes then w.openUpload else return (.ok (), w)

def reserve (partSize : Nat) (w : Writer) (next : Nat) : Does (Except StorageError Unit × Writer) :=
  w.openFor partSize (w.buf.length + next)

def write (partSize : Nat) (w : Writer) (chunk : Bytes) : Does (Except StorageError Unit × Writer) := do
  let w := { w with written := w.written + chunk.length, buf := w.buf ++ chunk }
  match ← w.openFor partSize w.buf.length with
  | (.error e, w) => return (.error e, w)
  | (.ok (), w) => drain partSize w.buf.length w

/-- What is left in the buffer is the last part, and an upload has one. -/
def putRest (w : Writer) (up : Upload) : Does (Except StorageError Unit × Writer) :=
  if w.buf ≠ [] ∨ up.parts = [] then putPart { w with buf := [] } up w.buf else return (.ok (), w)

def commit (w : Writer) : Does (Except StorageError Nat) := do
  match w.upload with
  | none =>
      let landed ← (Script.ask (Op.put w.key w.buf) : Does (Except Fault Unit))
      match ← decide w.key w.written landed with
      | .error e => return .error e
      | .ok () => do
          let _ ← (Script.ask (Op.remember w.key w.written) : Does Unit)
          return .ok w.written
  | some up =>
      match ← w.putRest up with
      | (.error e, _) => return .error e
      | (.ok (), w) => do
          let up := w.upload.getD up
          let landed ← (Script.ask (Op.completeMultipart w.key up.id up.parts) : Does (Except Fault Unit))
          match ← decide w.key w.written landed with
          | .error e => return .error e
          | .ok () => do
              let _ ← (Script.ask (Op.closed up.id) : Does (Except Fault Unit))
              let _ ← (Script.ask (Op.remember w.key w.written) : Does Unit)
              return .ok w.written

end Writer

/-- A call of a writer's before its `commit`. -/
inductive Use where
  | reserve (next : Nat)
  | write (chunk : Bytes)
deriving Repr, DecidableEq, Inhabited

def Use.run (partSize : Nat) (w : Writer) : Use → Does (Except StorageError Unit × Writer)
  | .reserve next => w.reserve partSize next
  | .write chunk => w.write partSize chunk

/-- What the calls are given to write. -/
def Use.content : List Use → Bytes
  | [] => []
  | .reserve _ :: uses => content uses
  | .write chunk :: uses => chunk ++ content uses

/-- The calls of a writer's owner, who drops it at the first error, or goes on after it. -/
def Writer.uses (partSize : Nat) (goesOn : Bool) (w : Writer) :
    List Use → Does (Except StorageError Unit × Writer)
  | [] => return (.ok (), w)
  | use :: uses => do
      match ← use.run partSize w with
      | (.ok (), w) => w.uses partSize goesOn uses
      | (.error e, w) => if goesOn then w.uses partSize goesOn uses else return (.error e, w)

/-- A writer of the key from its first call to its `commit`. -/
def writing (partSize : Nat) (goesOn : Bool) (key : Text) (uses : List Use) : Does (Except StorageError Nat) := do
  match ← (Writer.new key).uses partSize goesOn uses with
  | (.error e, _) => return .error e
  | (.ok (), w) => w.commit

/-- After the copy its target is asked for, and has to be as long as the source was. -/
def copyCheck (target : Text) (found : Nat) : Does (Except StorageError Unit) := do
  match ← statPath target with
  | .error e => return .error e
  | .ok (some size) =>
      if size = found then
        let _ ← (Script.ask (Op.remember target size) : Does Unit)
        return .ok ()
      else return .error .unavailable
  | .ok none => return .error .unavailable

def copyFound (source target : Text) (found : Nat) : Does (Except StorageError Unit) := do
  match ← (Script.ask (Op.copy source target found) : Does (Except Fault Unit)) with
  | .ok () => copyCheck target found
  | .error fault =>
      if fault.toError = .unavailable then copyCheck target found else return .error fault.toError

def copyChecked (budget : Nat) (source target : Text) : Does (Except StorageError Unit) := do
  match path budget source, path budget target with
  | .error e, _ => return .error e
  | .ok (), .error e => return .error e
  | .ok (), .ok () =>
      match ← statPath source with
      | .error e => return .error e
      | .ok none => return .error .notFound
      | .ok (some found) => copyFound source target found

def relocate (budget : Nat) (source target : Text) : Does (Except StorageError Unit) := do
  match ← copyChecked budget source target with
  | .ok () => do
      let _ ← (Script.ask (Op.delete [source]) : Does (Except Fault Unit))
      let _ ← (Script.ask (Op.forget source) : Does Unit)
      return .ok ()
  | .error .notFound =>
      match path budget target with
      | .error e => return .error e
      | .ok () =>
          match ← statPath target with
          | .error e => return .error e
          | .ok (some _) => return .ok ()
          | .ok none => return .error .notFound
  | .error e => return .error e

def head (budget : Nat) (key : Text) : Does (Except StorageError (Option Nat)) := do
  match path budget key with
  | .error e => return .error e
  | .ok () =>
      match ← (Script.ask (Op.cached key) : Does (Option Nat)) with
      | some size => return .ok (some size)
      | none =>
          match ← statPath key with
          | .error e => return .error e
          | .ok none => return .ok none
          | .ok (some size) => do
              let _ ← (Script.ask (Op.remember key size) : Does Unit)
              return .ok (some size)

/-- That there is no such object is what a deletion is for. -/
def deleted : Except Fault Unit → Except StorageError Unit
  | .ok () => .ok ()
  | .error .notFound => .ok ()
  | .error fault => .error fault.toError

def delete (budget : Nat) (key : Text) : Does (Except StorageError Unit) := do
  match path budget key with
  | .error e => return .error e
  | .ok () => do
      let _ ← (Script.ask (Op.forget key) : Does Unit)
      let answer ← (Script.ask (Op.delete [key]) : Does (Except Fault Unit))
      return deleted answer

/-- `DELETE_BATCH`. -/
def deleteBatchSize : Nat := 1000

def forgetAll : List Text → Does Unit
  | [] => return ()
  | key :: keys => do
      let _ ← (Script.ask (Op.forget key) : Does Unit)
      forgetAll keys

/-- One request for each chunk, up to the first that fails. -/
def deleteChunks : List (List Text) → Does (Except StorageError Unit)
  | [] => return .ok ()
  | chunk :: chunks => do
      let answer ← (Script.ask (Op.delete chunk) : Does (Except Fault Unit))
      match deleted answer with
      | .ok () => deleteChunks chunks
      | .error e => return .error e

def deleteBatch (budget : Nat) (keys : List Text) : Does (Except StorageError Unit) := do
  match keys.mapM (path budget) with
  | .error e => return .error e
  | .ok _ => do
      forgetAll keys
      deleteChunks (keys.toChunks deleteBatchSize)

/-! ### Calls -/

inductive Request where
  | head (key : Text)
  | write (key : Text) (goesOn : Bool) (uses : List Use)
  | copy (source target : Text)
  | relocate (source target : Text)
  | delete (key : Text)
  | deleteBatch (keys : List Text)
deriving Repr, DecidableEq, Inhabited

/-- What a call ends with: an error, or a size if it answers with one. -/
abbrev Outcome := Except StorageError (Option Nat)

/-- What the settings decide: `part_size` is five MiB or more. -/
structure Settings where
  partSize : Nat
  positive : 0 < partSize
  keyBudget : Nat

def program (settings : Settings) : Request → Does Outcome
  | .head key => head settings.keyBudget key
  | .write key goesOn uses =>
      match path settings.keyBudget key with
      | .error e => return .error e
      | .ok () => do return (← writing settings.partSize goesOn key uses).map some
  | .copy source target => do return (← copyChecked settings.keyBudget source target).map fun _ => none
  | .relocate source target => do return (← relocate settings.keyBudget source target).map fun _ => none
  | .delete key => do return (← delete settings.keyBudget key).map fun _ => none
  | .deleteBatch keys => do return (← deleteBatch settings.keyBudget keys).map fun _ => none

end OpenCargo.S3
