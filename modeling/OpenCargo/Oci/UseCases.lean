/-
Module: OpenCargo.Oci.UseCases
Purpose: `AppendChunk` and `CompleteUpload` (`app/oci.rs`), over the ports they use, whatever answers
  them.
Trusted boundary: `sha256`, the digest of a body as `CompleteUpload::digest` spells it, is a parameter
Main exports: appendChunk, readAll, complete, completeUpload
-/
import OpenCargo.Oci.Session
import OpenCargo.Place

namespace OpenCargo.Oci

open OpenCargo.Lib
open OpenCargo.Reclaim (PinToken)
open OpenCargo.Place (Source Entry PlaceError placeShared)

/-- `OciWriteError`, as far as an upload answers it. -/
inductive OciWriteError where
  | store (error : StoreError)
  | storage (error : StorageError)
  | place (error : PlaceError)
  | notFound
  | outOfRange (received : Nat)
  | tooManySegments
  | digestMismatch (computed : Text)
  | empty
  | completing
deriving Repr, DecidableEq, Inhabited

/-- What an upload asks of the OCI store and of the artifact store, besides what its placement asks. -/
structure Ports (σ : Type) extends Place.Ports σ where
  upload : Text → Prog σ (Except StoreError (Option UploadSession))
  claimSegment : Text → Segment → Nat → Instant → Prog σ (Except StoreError SegmentClaim)
  segments : Text → Prog σ (Except StoreError (List Segment))
  beginComplete : Text → Instant → Prog σ (Except StoreError BeginComplete)
  releaseComplete : Text → Text → Prog σ (Except StoreError Unit)
  finishUpload : Text → Text → PinToken → NewBlob → Instant → Prog σ (Except StoreError Finished)
  readStream : Text → Prog σ (Except StorageError Bytes)
  delete : Text → Prog σ (Except StorageError Unit)
  deleteBatch : List Text → Prog σ (Except StorageError Unit)
  /-- `uuid::Uuid::new_v4`. -/
  nonce : Prog σ Text

/-- An upload's last request. -/
structure Completion where
  upload : Text
  repository : Nat
  repoPrefix : Text
  digest : Text
  contentType : Text
  body : Bytes
deriving Repr, DecidableEq, Inhabited

/-- `hex`: the digest without its algorithm. -/
def hex (digest : Text) : Text := (Layout.stripPrefix digest "sha256:".toList).getD digest

section UseCases

variable {σ : Type} (ports : Ports σ)

/-- `AppendChunk::run`: answers the bytes received so far. -/
def appendChunk (id : Text) (repository : Nat) (start : Option Nat) (body : Bytes) (now : Instant) :
    Prog σ (Except OciWriteError Nat) := do
  match ← ports.upload id with
  | .error e => return .error (.store e)
  | .ok found =>
      match found.filter fun s => s.repository == repository with
      | none => return .error .notFound
      | some session =>
          if start.any fun s => s != session.received then
            return .error (.outOfRange session.received)
          else if body.isEmpty then return .ok session.received
          else do
            let nonce ← ports.nonce
            let segment : Segment :=
              ⟨session.received, body.length,
                Layout.segmentKey session.root session.received nonce⟩
            match ← ports.put segment.key body with
            | .error e => return .error (.storage e)
            | .ok _ =>
                match ← ports.claimSegment id segment maxSegments now with
                | .error e => return .error (.store e)
                | .ok .won => return .ok (segment.start + segment.len)
                | .ok .tooManySegments => do
                    let _ ← ports.delete segment.key
                    return .error .tooManySegments
                | .ok .lost => do
                    let _ ← ports.delete segment.key
                    match ← ports.upload id with
                    | .error e => return .error (.store e)
                    | .ok session => return .error (.outOfRange (session.elim 0 UploadSession.received))

/-- The bodies of some objects, one after the other. -/
def readAll : List Text → Prog σ (Except StorageError Bytes)
  | [] => return .ok []
  | key :: keys => do
      match ← ports.readStream key with
      | .error e => return .error e
      | .ok body =>
          match ← readAll keys with
          | .error e => return .error e
          | .ok rest => return .ok (body ++ rest)

variable (sha256 : Bytes → Text)

/-- `finish_upload`, as the placement's commit: a lost lease is a conflict. -/
def finishWith (done : Completion) (lease : Text) (size : Nat) (now : Instant)
    (tokens : List PinToken) : Prog σ (Except StoreError Unit) := do
  match ← ports.finishUpload done.upload lease (tokens.headD default)
      ⟨done.repository, done.digest, size, done.contentType⟩ now with
  | .ok (.recorded _) => return .ok ()
  | .ok .leaseLost => return .error .conflict
  | .error e => return .error e

/-- What the segments are placed as: one entry. -/
def blobEntry (done : Completion) (segments : List Segment) : Entry :=
  ⟨Layout.ociBlobKey done.repoPrefix (hex done.digest),
    .segments (segments.map Segment.key) (segments.map Segment.len).sum⟩

/-- `CompleteUpload::complete`: the digest over the segments, the placement fenced by the lease and the
pin, and for the winner the segments' deletion. -/
def complete (done : Completion) (lease : Text) (now : Instant) :
    Prog σ (Except OciWriteError Unit) := do
  match ← ports.segments done.upload with
  | .error e => return .error (.store e)
  | .ok segments =>
      if (segments.map Segment.len).sum = 0 then return .error .empty
      else do
        match ← readAll ports (segments.map Segment.key) with
        | .error .notFound => return .error .notFound
        | .error e => return .error (.storage e)
        | .ok body =>
            if sha256 body ≠ done.digest then return .error (.digestMismatch (sha256 body))
            else do
              match ← placeShared ports.toPorts done.repoPrefix [blobEntry done segments]
                  (finishWith ports done lease (segments.map Segment.len).sum now) with
              | .ok _ => do
                  let _ ← ports.deleteBatch (segments.map Segment.key)
                  return .ok ()
              | .error (.refused .conflict) => return .error .completing
              | .error .retired => return .error .notFound
              | .error (.storage .notFound) => return .error .notFound
              | .error e => return .error (.place e)

/-- The request's body, as its last chunk. -/
def appendBody (done : Completion) (now : Instant) : Prog σ (Except OciWriteError Unit) :=
  if done.body.isEmpty then return .ok ()
  else return (← appendChunk ports done.upload done.repository none done.body now).map fun _ => ()

/-- The lease, the completion under it, and the lease's release unless the session went with it. -/
def completeLeased (done : Completion) (now : Instant) : Prog σ (Except OciWriteError Unit) := do
  match ← ports.upload done.upload with
  | .error e => return .error (.store e)
  | .ok found =>
      match found.filter fun s => s.repository == done.repository with
      | none => return .error .notFound
      | some _ => do
          match ← ports.beginComplete done.upload now with
          | .error e => return .error (.store e)
          | .ok .held => return .error .completing
          | .ok .unknown => return .error .notFound
          | .ok (.lease lease) => do
              match ← complete ports sha256 done lease now with
              | .ok _ => return .ok ()
              | .error e => do
                  let _ ← ports.releaseComplete done.upload lease
                  return .error e

/-- `CompleteUpload::run`. -/
def completeUpload (done : Completion) (now : Instant) : Prog σ (Except OciWriteError Unit) := do
  match ← appendBody ports done now with
  | .error e => return .error e
  | .ok _ => completeLeased ports sha256 done now

end UseCases

/-! ### One body and its digest -/

/-- Four bytes, as the traces of this development upload them. -/
def fourBytes : Bytes := [1, 2, 3, 4]

def fourBytesDigest : Text :=
  "sha256:9f64a747e1b97f131fabb6b447296c9b6f0201e79fb3c5356e6c77e89b6a806a".toList

/-- `sha256` where the traces digest something: on these four bytes. -/
def sha256Sample (body : Bytes) : Text := if body = fourBytes then fourBytesDigest else []

end OpenCargo.Oci
