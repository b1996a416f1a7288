/-
Module: OpenCargo.Oci.Store
Purpose: What a registry knows about its images, and the transactions over it
  (`adapters/sqlite/oci.rs`): blobs, manifests, the links between them, tags, and the upload sessions
  still assembling a blob. A transaction that answers an error rolls back, so it leaves no database.
Trusted boundary: the tokens `uuid::Uuid::new_v4` gives are arguments
Main exports: Db.lease, Db.finish, Db.reap, Db.retire
-/
import OpenCargo.Reclaim.Store

namespace OpenCargo.Oci

open OpenCargo.Reclaim (PinToken Tables)

/-! ### The rows -/

/-- `oci_blobs`, unique by repository and digest. -/
structure BlobRow where
  repository : Nat
  digest : Text
  size : Nat
  contentType : Option Text
  storageKey : Option Text
  createdAt : Int
deriving Repr, DecidableEq, Inhabited

/-- `oci_manifests`, unique by repository, name and digest. -/
structure ManifestRow where
  repository : Nat
  name : Text
  digest : Text
  contentType : Text
  size : Nat
  storageKey : Option Text
  createdAt : Int
deriving Repr, DecidableEq, Inhabited

/-- `oci_manifest_blobs`: what a manifest lists, layers and child manifests alike. -/
structure LinkRow where
  repository : Nat
  manifestDigest : Text
  blobDigest : Text
deriving Repr, DecidableEq, Inhabited

/-- `oci_tags`, unique by repository, name and tag. -/
structure TagRow where
  repository : Nat
  name : Text
  tag : Text
  manifestDigest : Text
  createdAt : Int
deriving Repr, DecidableEq, Inhabited

/-- `oci_uploads`. A session of before segments has no prefix and has received nothing that counts. -/
structure UploadRow where
  id : Text
  repository : Nat
  name : Text
  segmentPrefix : Option Text
  received : Option Nat
  segmentCount : Nat
  touchedAt : Int
  leaseToken : Option Text
  leaseUntil : Option Int
deriving Repr, DecidableEq, Inhabited

/-- `oci_upload_segments`, keyed by session and offset. -/
structure SegmentRow where
  uploadId : Text
  startAt : Nat
  length : Nat
  storageKey : Text
deriving Repr, DecidableEq, Inhabited

/-- The OCI tables, and the reclamation tables their transactions touch. -/
structure Db where
  blobs : List BlobRow
  manifests : List ManifestRow
  links : List LinkRow
  tags : List TagRow
  uploads : List UploadRow
  segments : List SegmentRow
  reclaim : Tables
deriving Repr, DecidableEq, Inhabited

/-- A pushed manifest and everything that points at it. -/
structure NewManifest where
  repository : Nat
  name : Text
  digest : Text
  contentType : Text
  size : Nat
  pin : PinToken
  blobs : List (Text × PinToken)
  children : List Text
  tag : Option Text
deriving Repr, DecidableEq, Inhabited

/-- A blob an upload just completed. -/
structure NewBlob where
  repository : Nat
  digest : Text
  size : Nat
  contentType : Text
deriving Repr, DecidableEq, Inhabited

/-- One segment of a session, as the use cases hold it. -/
structure Segment where
  start : Nat
  len : Nat
  key : Text
deriving Repr, DecidableEq, Inhabited

/-- A session, as the use cases read it. -/
structure UploadSession where
  repository : Nat
  root : Text
  received : Nat
  segments : Nat
deriving Repr, DecidableEq, Inhabited

inductive SegmentClaim where
  | won
  | lost
  | tooManySegments
deriving Repr, DecidableEq, Inhabited

inductive BeginComplete where
  | lease (token : Text)
  | held
  | unknown
deriving Repr, DecidableEq, Inhabited

inductive Finished where
  | recorded (key : Text)
  | leaseLost
deriving Repr, DecidableEq, Inhabited

namespace Db

/-- A database in which nothing has happened yet. -/
def empty : Db := ⟨[], [], [], [], [], [], ⟨[], [], [], [], [], []⟩⟩

/-! ### Blobs and manifests -/

def blobRow (db : Db) (repository : Nat) (digest : Text) : Option BlobRow :=
  db.blobs.find? fun row => row.repository == repository && row.digest == digest

def manifestRow (db : Db) (repository : Nat) (name digest : Text) : Option ManifestRow :=
  db.manifests.find? fun row =>
    row.repository == repository && row.name == name && row.digest == digest

/-- `INSERT … ON CONFLICT(repository_id, name, digest) DO UPDATE`: the instant is kept. -/
def upsertManifest (db : Db) (m : NewManifest) (now : Instant) : Db :=
  if (db.manifestRow m.repository m.name m.digest).isSome then
    { db with
      manifests := db.manifests.map fun row =>
        if row.repository == m.repository && row.name == m.name && row.digest == m.digest then
          { row with
            contentType := m.contentType, size := m.size, storageKey := some m.pin.physicalKey }
        else row }
  else
    { db with
      manifests := db.manifests ++
        [⟨m.repository, m.name, m.digest, m.contentType, m.size, some m.pin.physicalKey,
          bindTs now⟩] }

/-- `INSERT … ON CONFLICT DO NOTHING`. -/
def link (db : Db) (repository : Nat) (manifestDigest blobDigest : Text) : Db :=
  if db.links.contains ⟨repository, manifestDigest, blobDigest⟩ then db
  else { db with links := db.links ++ [⟨repository, manifestDigest, blobDigest⟩] }

def unlink (db : Db) (repository : Nat) (manifestDigest : Text) : Db :=
  { db with
    links := db.links.filter fun row =>
      !(row.repository == repository && row.manifestDigest == manifestDigest) }

/-- `INSERT … ON CONFLICT(repository_id, name, tag) DO UPDATE SET manifest_digest`. -/
def upsertTag (db : Db) (repository : Nat) (name tag digest : Text) (now : Instant) : Db :=
  if db.tags.any fun row => row.repository == repository && row.name == name && row.tag == tag then
    { db with
      tags := db.tags.map fun row =>
        if row.repository == repository && row.name == name && row.tag == tag then
          { row with manifestDigest := digest }
        else row }
  else { db with tags := db.tags ++ [⟨repository, name, tag, digest, bindTs now⟩] }

def enqueueKeys (db : Db) (keys : List Text) (now : Instant) : Db :=
  { db with reclaim := db.reclaim.enqueueKeys keys now }

/-- The rows of a pushed manifest, once its pins are spent and its blobs known. -/
def landManifest (db : Db) (m : NewManifest) (now : Instant) : Db :=
  let previous := (db.manifestRow m.repository m.name m.digest).bind ManifestRow.storageKey
  let queued := db.enqueueKeys (previous.toList.filter fun key => key != m.pin.physicalKey) now
  let rows := (queued.upsertManifest m now).unlink m.repository m.digest
  let linked := (m.blobs.map Prod.fst ++ m.children).foldl
    (fun d blob => d.link m.repository m.digest blob) rows
  match m.tag with
  | some tag => linked.upsertTag m.repository m.name tag m.digest now
  | none => linked

/-- The pins, the blob rows, then the manifest row, its links and its tag. -/
def writeManifest (db : Db) (m : NewManifest) (now : Instant) : Except StoreError Db :=
  match db.reclaim.spendPins (m.pin :: m.blobs.map Prod.snd) with
  | .error revoked => .error (.superseded revoked)
  | .ok reclaim =>
      if m.blobs.all fun blob => (db.blobRow m.repository blob.1).isSome then
        .ok ({ db with reclaim := reclaim }.landManifest m now)
      else .error .notFound

def linked (db : Db) (repository : Nat) (blobDigest : Text) : Bool :=
  db.links.any fun row => row.repository == repository && row.blobDigest == blobDigest

/-- `DELETE FROM oci_blobs … RETURNING storage_key`. -/
def deleteBlob (db : Db) (repository : Nat) (digest : Text) : Db :=
  { db with
    blobs := db.blobs.filter fun row => !(row.repository == repository && row.digest == digest) }

/-- One round of the loop that drops the blobs a purged manifest listed, unless another manifest lists
them still. -/
def dropUnlisted (repository : Nat) (acc : Db × List Text × List Text) (blob : Text) :
    Db × List Text × List Text :=
  let (db, released, digests) := acc
  if db.linked repository blob then (db, released, digests)
  else
    match db.blobRow repository blob with
    | some row => (db.deleteBlob repository blob, released ++ row.storageKey.toList, digests ++ [blob])
    | none => (db, released, digests)

/-- The manifest of one image and its tags are gone. -/
def withoutManifest (db : Db) (repository : Nat) (name digest : Text) : Db :=
  { db with
    manifests := db.manifests.filter fun row =>
      !(row.repository == repository && row.name == name && row.digest == digest)
    tags := db.tags.filter fun row =>
      !(row.repository == repository && row.name == name && row.manifestDigest == digest) }

/-- The manifest, its tags and its links, then the blobs nothing lists any more. `none` where there is
no such manifest; else the digests of the blobs that went with it. -/
def purgeManifest (db : Db) (repository : Nat) (name digest : Text) (now : Instant) :
    Option (List Text) × Db :=
  match db.manifestRow repository name digest with
  | none => (none, db)
  | some row =>
      let bare := db.withoutManifest repository name digest
      if bare.manifests.any fun r => r.repository == repository && r.digest == digest then
        (some [], bare.enqueueKeys row.storageKey.toList now)
      else
        let listed := (bare.links.filter fun r =>
          r.repository == repository && r.manifestDigest == digest).map LinkRow.blobDigest
        let (left, released, digests) := listed.foldl (dropUnlisted repository)
          (bare.unlink repository digest, row.storageKey.toList, [])
        (some digests, left.enqueueKeys released now)

def dropBlob (db : Db) (repository : Nat) (digest : Text) (now : Instant) :
    Except StoreError (Bool × Db) :=
  if db.linked repository digest then .error .conflict
  else
    match db.blobRow repository digest with
    | none => .ok (false, db)
    | some row =>
        .ok (true, (db.deleteBlob repository digest).enqueueKeys row.storageKey.toList now)

/-! ### Upload sessions -/

def uploadRow (db : Db) (id : Text) : Option UploadRow := db.uploads.find? fun row => row.id == id

/-- The row of a session that can receive: the one `WHERE … received IS NOT NULL` finds, with what it
has received. -/
def receiving (db : Db) (id : Text) : Option (UploadRow × Nat) :=
  (db.uploadRow id).bind fun row => row.received.map fun received => (row, received)

def upload (db : Db) (id : Text) : Option UploadSession :=
  (db.receiving id).bind fun (row, received) =>
    row.segmentPrefix.map fun root => ⟨row.repository, root, received, row.segmentCount⟩

def setUpload (db : Db) (id : Text) (change : UploadRow → UploadRow) : Db :=
  { db with uploads := db.uploads.map fun row => if row.id == id then change row else row }

/-- A lease that has not run out. -/
def leased (row : UploadRow) (now : Instant) : Bool :=
  row.leaseUntil.any fun until_ => until_ > bindTs now

/-- `SET received = received + ?, segment_count = segment_count + 1, touched_at = ?`. -/
def grow (segment : Segment) (now : Instant) (row : UploadRow) : UploadRow :=
  { row with
    received := row.received.map (· + segment.len)
    segmentCount := row.segmentCount + 1
    touchedAt := bindTs now }

def claimOneSegment (db : Db) (id : Text) (segment : Segment) (maxSegments : Nat) (now : Instant) :
    SegmentClaim × Db :=
  match db.receiving id with
  | none => (.lost, db)
  | some (row, received) =>
      if leased row now || received != segment.start then (.lost, db)
      else if row.segmentCount ≥ maxSegments then (.tooManySegments, db)
      else
        let stored : Db :=
          { db with segments := db.segments ++ [⟨id, segment.start, segment.len, segment.key⟩] }
        (.won, stored.setUpload id (grow segment now))

/-- `segments`: `ORDER BY start_at`. -/
def segmentsOf (db : Db) (id : Text) : List Segment :=
  ((db.segments.filter fun row => row.uploadId == id).insertionSort
    fun a b => a.startAt ≤ b.startAt).map fun row => ⟨row.startAt, row.length, row.storageKey⟩

/-- `SET lease_token = ?, lease_until = ?, touched_at = ?`. -/
def hold (token : Text) (now : Instant) (ttl : Duration) (row : UploadRow) : UploadRow :=
  { row with
    leaseToken := some token, leaseUntil := some (bindTs (now + ttl)), touchedAt := bindTs now }

def lease (db : Db) (id : Text) (now : Instant) (ttl : Duration) (token : Text) :
    BeginComplete × Db :=
  match db.receiving id with
  | none => (.unknown, db)
  | some (row, _) =>
      if leased row now then (.held, db)
      else (.lease token, db.setUpload id (hold token now ttl))

def releaseComplete (db : Db) (id token : Text) : Db :=
  db.setUpload id fun row =>
    if row.leaseToken == some token then { row with leaseToken := none, leaseUntil := none } else row

def endUpload (db : Db) (id : Text) : Db :=
  { db with
    segments := db.segments.filter fun row => row.uploadId != id
    uploads := db.uploads.filter fun row => row.id != id }

/-- `INSERT … ON CONFLICT(repository_id, digest) DO UPDATE SET storage_key`. -/
def upsertBlob (db : Db) (blob : NewBlob) (key : Text) (now : Instant) : Db :=
  if (db.blobRow blob.repository blob.digest).isSome then
    { db with
      blobs := db.blobs.map fun row =>
        if row.repository == blob.repository && row.digest == blob.digest then
          { row with storageKey := some key }
        else row }
  else
    { db with
      blobs := db.blobs ++
        [⟨blob.repository, blob.digest, blob.size, some blob.contentType, some key, bindTs now⟩] }

/-- The blob row an upload ends in: an existing row keeps the key it has, and the key of the upload's
own placement is queued. -/
def recordBlob (db : Db) (pin : PinToken) (blob : NewBlob) (now : Instant) : Text × Db :=
  match (db.blobRow blob.repository blob.digest).bind BlobRow.storageKey with
  | some key =>
      (key, if key != pin.physicalKey then db.enqueueKeys [pin.physicalKey] now else db)
  | none => (pin.physicalKey, db.upsertBlob blob pin.physicalKey now)

def finish (db : Db) (id lease : Text) (pin : PinToken) (blob : NewBlob) (now : Instant) :
    Except StoreError (Finished × Db) :=
  if db.uploads.any fun row => row.id == id && row.leaseToken == some lease then
    match db.reclaim.spendPins [pin] with
    | .error revoked => .error (.superseded revoked)
    | .ok reclaim =>
        let (key, recorded) := { db with reclaim := reclaim }.recordBlob pin blob now
        .ok (.recorded key, recorded.endUpload id)
  else .ok (.leaseLost, db)

/-- A session with nothing received that counts, or idle and not leased. -/
def dead (row : UploadRow) (idle : Duration) (now : Instant) : Bool :=
  row.received.isNone ||
    (row.touchedAt ≤ bindTs (now - idle) && row.leaseUntil.all fun until_ => until_ ≤ bindTs now)

def reapOne (now : Instant) (db : Db) (row : UploadRow) : Db :=
  let root := row.segmentPrefix.getD ("oci/_uploads/".toList ++ row.id)
  let ended := db.endUpload row.id
  { ended with reclaim := ended.reclaim.enqueuePrefix root now }

def reap (db : Db) (idle : Duration) (now : Instant) (limit : Nat) : Db :=
  let gone := ((db.uploads.filter fun row => dead row idle now).insertionSort
    fun a b => a.id ≤ b.id).take limit
  gone.foldl (reapOne now) db

/-! ### Repositories -/

/-- What a repository holds of this format. -/
def rows (db : Db) (repository : Nat) : Nat :=
  (db.manifests.filter fun row => row.repository == repository).length +
    (db.blobs.filter fun row => row.repository == repository).length +
    (db.tags.filter fun row => row.repository == repository).length +
    (db.uploads.filter fun row => row.repository == repository).length

/-- Retiring an OCI repository: a `Conflict` while it holds a row, and a link that is left breaks the
key it has to the repository. -/
def retire (db : Db) (repository : Nat) : Except StoreError Db :=
  if db.rows repository > 0 then .error .conflict
  else if db.links.any fun row => row.repository == repository then .error .other
  else .ok db

end Db

end OpenCargo.Oci
