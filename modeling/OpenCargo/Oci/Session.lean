/-
Module: OpenCargo.Oci.Session
Purpose: One upload session as a system: any number of `AppendChunk`s and `CompleteUpload`s
  (`app/oci.rs`) and the reaper, one action for each transaction. A request that is never moved again
  has stopped between two of its steps.
Trusted boundary: a lease's token is one no running completion holds (`uuid::Uuid::new_v4`)
Main exports: chunk, Progress, World, Act
-/
import OpenCargo.Lib.Run
import OpenCargo.Oci.Store

namespace OpenCargo.Oci

open OpenCargo.Reclaim (PinToken)

/-- `MAX_SEGMENTS`. -/
def maxSegments : Nat := 10000

/-- `AppendChunk::run` up to the write of its segment: the segment it will claim. `none` where it
returns before: the session is not there or not this repository's, the chunk does not start where the
session stands, or there is nothing to append. -/
def chunk (db : Db) (id : Text) (repository : Nat) (start : Option Nat) (length : Nat) (nonce : Text) :
    Option Segment :=
  match (db.upload id).filter fun s => s.repository == repository with
  | none => none
  | some session =>
      if start.any fun s => s != session.received then none
      else if length = 0 then none
      else some ⟨session.received, length, Layout.segmentKey session.root session.received nonce⟩

/-- Where a completion stands that was given the lease. -/
inductive Progress where
  | leased
  /-- It has read these segments: they are digested, assembled and placed, and then finished. -/
  | assembled (segments : List Segment)
  /-- Its lease was lost. -/
  | failed
deriving Repr, DecidableEq, Inhabited

structure Completer where
  lease : Text
  progress : Progress
deriving Repr, DecidableEq, Inhabited

/-- The database and the requests on one session. `pending` are the chunks whose bytes are written and
whose claim is still to be made. `won` (the chunks whose claim was answered `Won`, in that order) and
`recorded` (the segments of the blob `finish_upload` recorded) are history. -/
structure World where
  db : Db
  pending : List Segment
  completers : List Completer
  won : List Segment
  recorded : Option (List Segment)
deriving Repr, DecidableEq, Inhabited

inductive Act where
  | append (repository : Nat) (start : Option Nat) (length : Nat) (nonce : Text)
  | claim (segment : Segment) (now : Instant)
  | lease (now : Instant) (ttl : Duration) (token : Text)
  | read (token : Text)
  | finish (token : Text) (pin : PinToken) (repository : Nat) (digest contentType : Text)
      (now : Instant)
  | release (token : Text)
  | reap (idle : Duration) (now : Instant) (limit : Nat)
  /-- Any transaction that leaves this session's rows alone. -/
  | elsewhere (db : Db)
deriving Repr, DecidableEq

namespace World

def completer (w : World) (token : Text) : Option Completer :=
  w.completers.find? fun c => c.lease == token

def setProgress (w : World) (token : Text) (progress : Progress) : World :=
  { w with
    completers := w.completers.map fun c => if c.lease == token then ⟨token, progress⟩ else c }

def dismiss (w : World) (token : Text) : World :=
  { w with completers := w.completers.filter fun c => c.lease != token }

end World

/-- The rows of one session. -/
def Db.session (db : Db) (id : Text) : List UploadRow × List SegmentRow :=
  (db.uploads.filter fun row => row.id == id, db.segments.filter fun row => row.uploadId == id)

section Steps

variable (id : Text)

def claimStep (w : World) (segment : Segment) (now : Instant) : Option World :=
  if w.pending.contains segment then
    let left := w.pending.erase segment
    match w.db.claimOneSegment id segment maxSegments now with
    | (.won, db) => some { w with db := db, pending := left, won := w.won ++ [segment] }
    | (_, db) => some { w with db := db, pending := left }
  else none

def leaseStep (w : World) (now : Instant) (ttl : Duration) (token : Text) : Option World :=
  if (w.completer token).isNone then
    match w.db.lease id now ttl token with
    | (.lease token, db) => some { w with db := db, completers := ⟨token, .leased⟩ :: w.completers }
    | (_, db) => some { w with db := db }
  else none

/-- `segments`: an upload of nothing goes no further. -/
def readStep (w : World) (token : Text) : Option World :=
  match w.completer token with
  | some ⟨_, .leased⟩ =>
      let segments := w.db.segmentsOf id
      if (segments.map Segment.len).sum = 0 then some (w.setProgress token .failed)
      else some (w.setProgress token (.assembled segments))
  | _ => none

def finishStep (w : World) (token : Text) (pin : PinToken) (repository : Nat)
    (digest contentType : Text) (now : Instant) : Option World :=
  match w.completer token with
  | some ⟨_, .assembled segments⟩ =>
      let blob : NewBlob := ⟨repository, digest, (segments.map Segment.len).sum, contentType⟩
      match w.db.finish id token pin blob now with
      | .ok (.recorded _, db) =>
          some ({ w with db := db, recorded := some segments }.dismiss token)
      | .ok (.leaseLost, db) => some ({ w with db := db }.setProgress token .failed)
      -- `Superseded`: the placement is made again, and finished again
      | .error _ => some w
  | _ => none

def sessionStep (w : World) : Act → Option World
  | .append repository start length nonce =>
      match chunk w.db id repository start length nonce with
      | some segment => some { w with pending := segment :: w.pending }
      | none => some w
  | .claim segment now => claimStep id w segment now
  | .lease now ttl token => leaseStep id w now ttl token
  | .read token => readStep id w token
  | .finish token pin repository digest contentType now =>
      finishStep id w token pin repository digest contentType now
  | .release token =>
      if (w.completer token).isSome then
        some ({ w with db := w.db.releaseComplete id token }.dismiss token)
      else none
  | .reap idle now limit => some { w with db := w.db.reap idle now limit }
  | .elsewhere db => if db.session id = w.db.session id then some { w with db := db } else none

end Steps

/-- The session just opened, in any database. -/
def opened (db : Db) (id : Text) (repository : Nat) (name root : Text) (now : Instant) : World :=
  ⟨{ db with
      uploads := db.uploads ++ [⟨id, repository, name, some root, some 0, 0, bindTs now, none, none⟩] },
    [], [], [], none⟩

/-! ### What each transaction does to the rows of the session -/

namespace Db

variable {db : Db} {id : Text}

theorem uploadRow_eq : db.uploadRow id = (db.session id).1.head? := by
  rw [session, List.head?_filter]
  rfl

theorem mem_session {row : UploadRow} : row ∈ (db.session id).1 ↔ row ∈ db.uploads ∧ row.id = id := by
  simp [session]

theorem mem_of_receiving {row : UploadRow} {received : Nat}
    (found : db.receiving id = some (row, received)) : row ∈ db.uploads ∧ row.id = id := by
  obtain ⟨other, at_, rest⟩ := Option.bind_eq_some_iff.mp found
  obtain ⟨_, _, same⟩ := Option.map_eq_some_iff.mp rest
  cases same
  exact ⟨List.mem_of_find?_eq_some at_, by simpa using List.find?_some at_⟩

theorem session_setUpload {change : UploadRow → UploadRow} (same : ∀ row, (change row).id = row.id) :
    (db.setUpload id change).session id = ((db.session id).1.map change, (db.session id).2) := by
  refine Prod.ext ?_ rfl
  simp only [session, setUpload]
  induction db.uploads with
  | nil => rfl
  | cons row rows ih =>
      by_cases mine : row.id = id
      · simpa [mine, same] using ih
      · simpa [mine] using ih

theorem claimOneSegment_won {segment : Segment} {limit : Nat} {now : Instant} {after : Db}
    (won : db.claimOneSegment id segment limit now = (.won, after)) :
    ∃ row, db.receiving id = some (row, segment.start) ∧ leased row now = false ∧
      row.segmentCount < limit ∧
      after.session id = ((db.session id).1.map (grow segment now),
        (db.session id).2 ++ [⟨id, segment.start, segment.len, segment.key⟩]) := by
  unfold claimOneSegment at won
  split at won
  case h_1 => cases won
  case h_2 row received found =>
    split_ifs at won with lost full
    · cases won
    · cases won
    · simp only [Bool.or_eq_true, not_or, Bool.not_eq_true, bne_iff_ne, not_not] at lost
      obtain ⟨free, stands⟩ := lost
      subst stands
      cases won
      refine ⟨row, found, free, not_le.mp full, ?_⟩
      rw [session_setUpload]
      · simp [session]
      · exact fun _ => rfl

theorem claimOneSegment_lost {segment : Segment} {limit : Nat} {now : Instant} {answer : SegmentClaim}
    {after : Db} (claimed : db.claimOneSegment id segment limit now = (answer, after))
    (lost : answer ≠ .won) : after = db := by
  unfold claimOneSegment at claimed
  split at claimed
  · cases claimed
    rfl
  · split_ifs at claimed
    · cases claimed
      rfl
    · cases claimed
      rfl
    · cases claimed
      exact absurd rfl lost

theorem lease_given {now : Instant} {ttl : Duration} {token : Text} {answer : BeginComplete} {after : Db}
    (leased : db.lease id now ttl token = (answer, after)) :
    answer = .lease token ∧
        after.session id = ((db.session id).1.map (hold token now ttl), (db.session id).2) ∨
      (∀ given, answer ≠ .lease given) ∧ after = db := by
  unfold lease at leased
  split at leased
  case h_1 =>
    cases leased
    exact .inr ⟨nofun, rfl⟩
  case h_2 =>
    split_ifs at leased
    · cases leased
      exact .inr ⟨nofun, rfl⟩
    · cases leased
      exact .inl ⟨rfl, session_setUpload fun _ => rfl⟩

theorem session_endUpload : (db.endUpload id).session id = ([], []) := by
  simp [session, endUpload, List.filter_filter]

theorem session_endUpload_other {other : Text} (apart : other ≠ id) :
    (db.endUpload other).session id = db.session id := by
  have keeps : ∀ t : Text, (t == id && t != other) = (t == id) := by
    intro t
    by_cases mine : t = id
    · simp [mine, apart.symm]
    · simp [mine]
  simp [session, endUpload, List.filter_filter, keeps]

theorem session_reapOne {now : Instant} {row : UploadRow} :
    (db.reapOne now row).session id = db.session id ∨ (db.reapOne now row).session id = ([], []) := by
  by_cases mine : row.id = id
  · right
    subst mine
    exact session_endUpload
  · left
    exact session_endUpload_other mine

theorem session_reap (db : Db) (id : Text) (idle : Duration) (now : Instant) (limit : Nat) :
    (db.reap idle now limit).session id = db.session id ∨
      (db.reap idle now limit).session id = ([], []) := by
  unfold reap
  generalize ((db.uploads.filter fun row => dead row idle now).insertionSort
    fun a b => a.id ≤ b.id).take limit = gone
  induction gone generalizing db with
  | nil => exact .inl rfl
  | cons row rows ih =>
      rw [List.foldl_cons]
      rcases ih (db.reapOne now row) with same | empty
      · rw [same]
        exact session_reapOne
      · exact .inr empty

/-- Whoever is answered `Recorded` holds the session's lease, and ends the session. -/
theorem finish_recorded {lease key : Text} {pin : PinToken} {blob : NewBlob} {now : Instant} {after : Db}
    (finished : db.finish id lease pin blob now = .ok (.recorded key, after)) :
    (∃ row ∈ (db.session id).1, row.leaseToken = some lease) ∧ after.session id = ([], []) := by
  unfold finish at finished
  split at finished
  case isFalse => cases finished
  case isTrue holds =>
    split at finished
    case h_1 => cases finished
    case h_2 =>
      cases finished
      refine ⟨?_, session_endUpload⟩
      simp only [List.any_eq_true, Bool.and_eq_true, beq_iff_eq] at holds
      obtain ⟨row, mem, mine, held⟩ := holds
      exact ⟨row, mem_session.mpr ⟨mem, mine⟩, held⟩

theorem finish_lost {lease : Text} {pin : PinToken} {blob : NewBlob} {now : Instant} {after : Db}
    (finished : db.finish id lease pin blob now = .ok (.leaseLost, after)) : after = db := by
  unfold finish at finished
  split at finished
  case isFalse =>
    cases finished
    rfl
  case isTrue =>
    split at finished
    · cases finished
    · cases finished

end Db

theorem World.completer_mem {w : World} {token : Text} {c : Completer}
    (found : w.completer token = some c) : c ∈ w.completers ∧ c.lease = token := by
  refine ⟨List.mem_of_find?_eq_some found, ?_⟩
  simpa using List.find?_some found

end OpenCargo.Oci
