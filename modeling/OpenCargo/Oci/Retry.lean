/-
Module: OpenCargo.Oci.Retry
Purpose: A completion that failed can be repeated: the session holds what it held, and the request's
  body if that was appended, so that repeating the request without a body finishes the upload, as soon
  as no lease is in force and the segments have the digest that is asked for.
Trusted boundary: none
Main exports: Ready, ready_completes, failed_completion_is_resumable
-/
import OpenCargo.Oci.Resume

namespace OpenCargo.Oci

open OpenCargo.Lib
open OpenCargo.Reclaim (PinToken)
open OpenCargo.Place (placeShared)

variable (sha256 : Bytes → Text)

/-- What a completion without a body needs: the session is its repository's and not leased, and the
segments are there and have the digest. -/
structure Ready (done : Completion) (now : Instant) (w : Backend) : Prop where
  session : ∃ row session, w.db.receiving done.upload = some (row, session.received) ∧
    w.db.upload done.upload = some session ∧ session.repository = done.repository ∧
    Db.leased row now = false
  nonempty : ((w.db.segmentsOf done.upload).map Segment.len).sum ≠ 0
  digest : ∃ body, w.objects.gather ((w.db.segmentsOf done.upload).map Segment.key) = some body ∧
    sha256 body = done.digest

/-! ### Nothing fails, and nobody interferes -/

/-- A turn in which nothing fails and nobody interferes. -/
def quiet : Turn := ⟨none, none, none, false, "t".toList, some "g".toList⟩

section Quiet

variable {id : Text} {db : Db} {objects : Objects Bytes} {turns : List Turn}

variable (ttl : Duration) (now : Instant)

theorem run_upload {upload : Text} :
    ((backendPorts id ttl now).upload upload).run ⟨db, objects, quiet :: turns⟩ =
      some (.ok (db.upload upload), ⟨db, objects, turns⟩) := rfl

theorem run_segments {upload : Text} :
    ((backendPorts id ttl now).segments upload).run ⟨db, objects, quiet :: turns⟩ =
      some (.ok (db.segmentsOf upload), ⟨db, objects, turns⟩) := rfl

theorem run_beginComplete {upload : Text} {at_ : Instant} :
    ((backendPorts id ttl now).beginComplete upload at_).run ⟨db, objects, quiet :: turns⟩ =
      some (.ok (db.lease upload at_ ttl "t".toList).1,
        ⟨(db.lease upload at_ ttl "t".toList).2, objects, turns⟩) := rfl

theorem run_readStream {key : Text} :
    ((backendPorts id ttl now).readStream key).run ⟨db, objects, quiet :: turns⟩ =
      some ((objects.get key).elim (.error .notFound) .ok, ⟨db, objects, turns⟩) := rfl

theorem run_deleteBatch {keys : List Text} :
    ((backendPorts id ttl now).deleteBatch keys).run ⟨db, objects, quiet :: turns⟩ =
      some (.ok (), ⟨db, objects.deleteBatch keys, turns⟩) := rfl

theorem run_stat {key : Text} :
    ((placingPorts id ttl now).stat key).run ⟨db, objects, quiet :: turns⟩ =
      some (.ok ((objects.get key).map List.length), ⟨db, objects, turns⟩) := rfl

theorem run_readAll {keys : List Text} {body : Bytes} (there : objects.gather keys = some body) :
    (readAll (backendPorts id ttl now) keys).run
        ⟨db, objects, List.replicate keys.length quiet ++ turns⟩ =
      some (.ok body, ⟨db, objects, turns⟩) := by
  induction keys generalizing body with
  | nil =>
      cases there
      rfl
  | cons key keys ih =>
      obtain ⟨one, got, rest⟩ := Option.bind_eq_some_iff.mp there
      obtain ⟨others, all, rfl⟩ := Option.map_eq_some_iff.mp rest
      unfold readAll
      rw [List.length_cons, List.replicate_succ, List.cons_append,
        run_bind_of (run_readStream ttl now), got]
      dsimp only [Option.elim]
      rw [run_bind_of (ih all)]
      rfl

/-- The token a quiet pin gives, and the tables it leaves. -/
def given (logical : Text) : PinToken := ⟨"t".toList, logical, Layout.physicalKey logical "g".toList⟩

def pinnedDb (db : Db) (repoPrefix logical : Text) (until_ : Instant) : Db :=
  (db.pin repoPrefix [logical] until_ quiet).2

theorem run_pin {repoPrefix logical : Text} :
    (Place.pin (placingPorts id ttl now) repoPrefix [logical]).run ⟨db, objects, quiet :: turns⟩ =
      some (.ok [given logical], ⟨pinnedDb db repoPrefix logical (now + ttl), objects, turns⟩) := rfl

theorem run_write {keys : List Text} {size : Nat} {target : Text} {body : Bytes}
    (there : objects.gather keys = some body) :
    ∃ used wrote after, (Place.write (placingPorts id ttl now) (.segments keys size) target).run
      ⟨db, objects, List.replicate used quiet ++ turns⟩ = some (.ok wrote, ⟨db, after, turns⟩) := by
  by_cases present : (objects.get target).map List.length = some size
  · refine ⟨1, false, objects, ?_⟩
    unfold Place.write
    rw [List.replicate_one, List.singleton_append, run_bind_of (run_stat ttl now)]
    simp only [present, beq_self_eq_true, if_true]
    rfl
  · refine ⟨2, true, objects.put target body, ?_⟩
    unfold Place.write
    have concat : ((placingPorts id ttl now).concat keys target).run ⟨db, objects, quiet :: turns⟩ =
        some (.ok (), ⟨db, objects.put target body, turns⟩) := by
      change some ((objects.writeFrom (objects.gather keys) target).1, Backend.mk db
        (objects.writeFrom (objects.gather keys) target).2 turns) = _
      rw [there]
      rfl
    rw [List.replicate_succ, List.replicate_one, List.cons_append, List.singleton_append,
      run_bind_of (run_stat ttl now)]
    simp only [beq_eq_false_iff_ne.mpr present, Bool.false_eq_true, if_false]
    rw [run_bind_of concat]
    rfl

/-- Whoever holds the session's lease and a pin that stands is answered `Recorded`. -/
theorem Db.finish_of_held {lease : Text} {pin : PinToken} {blob : NewBlob} {at_ : Instant}
    (held : ∃ row ∈ db.uploads, row.id = id ∧ row.leaseToken = some lease)
    (pinned : db.reclaim.pinned pin = true) :
    ∃ key after, db.finish id lease pin blob at_ = .ok (.recorded key, after) := by
  have holds : (db.uploads.any fun row => row.id == id && row.leaseToken == some lease) = true := by
    simpa [List.any_eq_true] using held
  unfold finish
  rw [if_pos holds]
  simp only [Reclaim.Tables.spendPins, List.filter_cons, pinned]
  exact ⟨_, _, rfl⟩

theorem pinned_pinnedDb {repoPrefix logical : Text} {until_ : Instant} :
    (pinnedDb db repoPrefix logical until_).reclaim.pinned (given logical) = true := by
  simp [pinnedDb, Db.pin, quiet, given, Reclaim.Tables.pinned]

theorem run_finishWith {done : Completion} {lease : Text} {size : Nat} {at_ : Instant}
    {pin : PinToken} {key : Text} {after : Db}
    (finished : db.finish done.upload lease pin ⟨done.repository, done.digest, size, done.contentType⟩
      at_ = .ok (.recorded key, after)) :
    (finishWith (backendPorts id ttl now) done lease size at_ [pin]).run
      ⟨db, objects, quiet :: turns⟩ = some (.ok (), ⟨after, objects, turns⟩) := by
  have call : ((backendPorts id ttl now).finishUpload done.upload lease pin
      ⟨done.repository, done.digest, size, done.contentType⟩ at_).run ⟨db, objects, quiet :: turns⟩ =
        some (.ok (.recorded key), ⟨after, objects, turns⟩) := by
    unfold backendPorts
    dsimp only
    rw [run_bind_of rfl]
    simp only [finished]
    rfl
  unfold finishWith
  rw [List.headD_cons, run_bind_of call]
  rfl

theorem run_place {done : Completion} {segments : List Segment} {at_ : Instant} {body : Bytes}
    (there : objects.gather (segments.map Segment.key) = some body)
    (held : ∃ row ∈ db.uploads, row.id = done.upload ∧ row.leaseToken = some "t".toList) :
    ∃ used w, (placeShared (backendPorts id ttl now).toPorts done.repoPrefix [blobEntry done segments]
      (finishWith (backendPorts id ttl now) done "t".toList (segments.map Segment.len).sum at_)).run
        ⟨db, objects, used ++ turns⟩ = some (.ok (), w) ∧ w.turns = turns := by
  let logical := Layout.ociBlobKey done.repoPrefix (hex done.digest)
  let pinned := pinnedDb db done.repoPrefix logical (now + ttl)
  let size := (segments.map Segment.len).sum
  let ports := placingPorts id ttl now
  obtain ⟨key, after, finished⟩ : ∃ key after, pinned.finish done.upload "t".toList (given logical)
      ⟨done.repository, done.digest, size, done.contentType⟩ at_ = .ok (.recorded key, after) :=
    Db.finish_of_held held pinned_pinnedDb
  obtain ⟨used, wrote, placed, written⟩ : ∃ used wrote after,
      (Place.write ports (blobEntry done segments).source (given logical).physicalKey).run
        ⟨pinned, objects, List.replicate used quiet ++ quiet :: turns⟩ =
          some (.ok wrote, ⟨pinned, after, quiet :: turns⟩) :=
    run_write ttl now there
  have pinning : (Place.pin ports done.repoPrefix [logical]).run
      ⟨db, objects, quiet :: (List.replicate used quiet ++ quiet :: turns)⟩ =
        some (.ok [given logical], ⟨pinned, objects, List.replicate used quiet ++ quiet :: turns⟩) :=
    run_pin ttl now
  have writing : (Place.writeEach ports [(blobEntry done segments, given logical)] []).run
      ⟨pinned, objects, List.replicate used quiet ++ quiet :: turns⟩ =
        some (.ok (if wrote then [(given logical).physicalKey] else [],
          [⟨blobEntry done segments, given logical, none⟩]), ⟨pinned, placed, quiet :: turns⟩) := by
    unfold Place.writeEach
    rw [run_bind_of written]
    cases wrote <;> rfl
  refine ⟨quiet :: (List.replicate used quiet ++ [quiet]), ⟨after, placed, turns⟩, ?_, rfl⟩
  rw [List.cons_append, List.append_assoc, List.singleton_append]
  unfold placeShared
  change (Place.pin ports done.repoPrefix [logical] >>= _).run _ = _
  rw [run_bind_of pinning]
  change (Place.writeEach ports [(blobEntry done segments, given logical)] [] >>= _).run _ = _
  rw [run_bind_of writing]
  dsimp only
  unfold Place.attempt
  rw [List.map_cons, List.map_nil, run_bind_of (run_finishWith ttl now finished)]
  rfl

/-! ### The request, repeated -/

theorem Db.lease_of_free {row : UploadRow} {received : Nat} {at_ : Instant} {token : Text}
    (found : db.receiving id = some (row, received)) (free : Db.leased row at_ = false) :
    db.lease id at_ ttl token = (.lease token, db.setUpload id (Db.hold token at_ ttl)) := by
  unfold Db.lease
  simp [found, free]

/-- A completion without a body that is ready, and that nothing disturbs, is answered `Ok`. -/
theorem ready_completes {done : Completion} {at_ : Instant} {w : Backend}
    (ready : Ready sha256 done at_ w) (bare : done.body = []) :
    ∃ turns after, (completeUpload (backendPorts done.upload ttl now) sha256 done at_).run
      { w with turns := turns } = some (.ok (), after) := by
  obtain ⟨row, session, found, read, repository, free⟩ := ready.session
  obtain ⟨body, there, digest⟩ := ready.digest
  let leased := w.db.setUpload done.upload (Db.hold "t".toList at_ ttl)
  let segments := w.db.segmentsOf done.upload
  have held : ∃ row ∈ leased.uploads, row.id = done.upload ∧ row.leaseToken = some "t".toList := by
    obtain ⟨mem, mine⟩ := Db.mem_of_receiving found
    refine ⟨Db.hold "t".toList at_ ttl row, ?_, mine, rfl⟩
    exact List.mem_map.mpr ⟨row, mem, by simp [mine]⟩
  obtain ⟨used, after, placed, rest⟩ : ∃ used after,
      (placeShared (backendPorts done.upload ttl now).toPorts done.repoPrefix [blobEntry done segments]
        (finishWith (backendPorts done.upload ttl now) done "t".toList
          (segments.map Segment.len).sum at_)).run
          ⟨leased, w.objects, used ++ [quiet]⟩ = some (.ok (), after) ∧ after.turns = [quiet] :=
    run_place ttl now there held
  obtain ⟨db, objects, left⟩ := after
  subst rest
  have completing : (complete (backendPorts done.upload ttl now) sha256 done "t".toList at_).run
      ⟨leased, w.objects,
        quiet :: (List.replicate (segments.map Segment.key).length quiet ++ (used ++ [quiet]))⟩ =
      some (.ok (), ⟨db, objects.deleteBatch (segments.map Segment.key), []⟩) := by
    unfold complete
    have same : leased.segmentsOf done.upload = segments := rfl
    have some_ : (segments.map Segment.len).sum ≠ 0 := ready.nonempty
    rw [run_bind_of (run_segments ttl now)]
    dsimp only
    rw [same, if_neg some_, run_bind_of (run_readAll ttl now there)]
    dsimp only
    rw [if_neg (not_not.mpr digest), run_bind_of placed]
    dsimp only
    rw [run_bind_of (run_deleteBatch ttl now)]
    rfl
  refine ⟨quiet :: quiet ::
    quiet :: (List.replicate (segments.map Segment.key).length quiet ++ (used ++ [quiet])),
    ⟨db, objects.deleteBatch (segments.map Segment.key), []⟩, ?_⟩
  unfold completeUpload completeLeased
  have skipped : (appendBody (backendPorts done.upload ttl now) done at_) = pure (.ok ()) := by
    unfold appendBody
    rw [bare]
    rfl
  rw [skipped, pure_bind]
  dsimp only
  rw [run_bind_of (run_upload ttl now)]
  have mine : (w.db.upload done.upload).filter (fun s => s.repository == done.repository) =
      some session := by
    simp [read, repository]
  simp only [mine]
  rw [run_bind_of (run_beginComplete ttl now), Db.lease_of_free ttl found free]
  dsimp only
  rw [run_bind_of completing]
  rfl

end Quiet

/-! ### What a failed completion leaves -/

theorem upload_grown {before after : Db} {id : Text} {session : UploadSession} {length : Nat}
    {key : Text} (read : before.upload id = some session)
    (grew : after.content id = grown id (before.content id) ⟨session.received, length, key⟩) :
    after.upload id = some { session with
      received := session.received + length, segments := session.segments + 1 } := by
  rw [Db.upload_eq] at read
  obtain ⟨row, first, fields⟩ := Option.bind_eq_some_iff.mp read
  obtain ⟨received, has, rest⟩ := Option.bind_eq_some_iff.mp fields
  obtain ⟨root, tree, rfl⟩ := Option.map_eq_some_iff.mp rest
  rw [Db.upload_eq, grew, grown, List.head?_map, first]
  simp [UploadRow.session, UploadRow.core, Db.grow, has, tree]

theorem triple_completeUpload {done : Completion} {ttl : Duration} {now at_ : Instant} {start : Db} :
    Triple (Holds done.upload (start.content done.upload))
      (completeUpload (backendPorts done.upload ttl now) sha256 done at_) fun r w =>
        ∀ e, r = .error e → Holds done.upload (start.content done.upload) w ∨
          done.body ≠ [] ∧ Appended done.upload start done.body w := by
  unfold completeUpload
  apply (triple_appendBody ttl now).bind
  intro answer
  rcases answer with e | _
  · exact .pure fun _ kept _ _ => .inl kept
  · constructor
    -- the content the completion starts from is one of two
    rintro w (⟨_, kept⟩ | ⟨some_, session, key, read, grew⟩) a t run e same
    · exact .inl ((triple_completeLeased ttl now sha256).outcome w kept a t run e same)
    · have left := (triple_completeLeased ttl now sha256).outcome w grew a t run e same
      exact .inr ⟨some_, session, key, read, left⟩

/-- Whatever fails, and whoever interferes without touching the session: a completion that answers an
error leaves the session as it was, or with the request's body as one more segment; and it can be
repeated without the body, as soon as the session is ready for it. -/
theorem failed_completion_is_resumable {done : Completion} {ttl : Duration} {now at_ : Instant}
    {w after : Backend} {e : OciWriteError}
    (failed : (completeUpload (backendPorts done.upload ttl now) sha256 done at_).run w =
      some (.error e, after)) :
    Resumable done w.db after.db ∧
      ∀ later, Ready sha256 { done with body := [] } later after →
        ∃ turns last, (completeUpload (backendPorts done.upload ttl now) sha256
          { done with body := [] } later).run { after with turns := turns } = some (.ok (), last) := by
  refine ⟨?_, fun later ready => ready_completes sha256 ttl now ready rfl⟩
  have left := (triple_completeUpload sha256).outcome w rfl _ _ failed e rfl
  rcases left with same | ⟨some_, session, key, read, grew⟩
  · have rows : (after.db.content done.upload).2 = (w.db.content done.upload).2 :=
      congrArg Prod.snd same
    exact .unchanged (Db.upload_of_content same) rows
  · have rows : (after.db.content done.upload).2 = _ := congrArg Prod.snd grew
    exact .appended session key some_ read (upload_grown read grew) rows

/-! ### A completion with a body and the wrong digest -/

/-- The session `s` of the repository `1`, just opened, and nothing that disturbs. -/
def waiting : Backend :=
  ⟨{ Db.empty with
      uploads := [⟨"s".toList, 1, "app".toList, some "u".toList, some 0, 0, 0, none, none⟩] },
    [], List.replicate 9 quiet⟩

/-- Four bytes, for a digest they do not have. -/
def wrongDigest : Completion :=
  ⟨"s".toList, 1, "r/i".toList, "sha256:00".toList, "tar".toList, fourBytes⟩

/-- The request, run to its end. -/
def refused : Option (Except OciWriteError Unit × Backend) :=
  (completeUpload (backendPorts "s".toList 60 0) sha256Sample wrongDigest 0).run waiting

/-- An answer is the mismatch with these four bytes. -/
def isMismatch {α : Type} : Except OciWriteError α → Bool
  | .error (.digestMismatch computed) => computed == fourBytesDigest
  | _ => false

theorem eq_of_isMismatch {α : Type} {answer : Except OciWriteError α} (mismatch : isMismatch answer = true) :
    answer = .error (.digestMismatch fourBytesDigest) := by
  unfold isMismatch at mismatch
  split at mismatch
  · rw [beq_iff_eq] at mismatch
    rw [mismatch]
  · cases mismatch

theorem refused_eq : ∃ after, refused = some (.error (.digestMismatch fourBytesDigest), after) ∧
    (after.db.upload "s".toList).map UploadSession.received = some 4 := by
  have played : refused.any (fun out => isMismatch out.1 &&
      (out.2.db.upload "s".toList).map UploadSession.received == some 4) = true := by
    decide +kernel
  cases ran : refused with
  | none => simp [ran] at played
  | some out =>
      obtain ⟨answer, after⟩ := out
      simp only [ran, Option.any_some, Bool.and_eq_true, beq_iff_eq] at played
      obtain ⟨mismatch, received⟩ := played
      rw [eq_of_isMismatch mismatch]
      exact ⟨after, rfl, received⟩

theorem wrong_digest_leaves_body :
    ∃ after, (completeUpload (backendPorts "s".toList 60 0) sha256Sample wrongDigest 0).run waiting =
        some (.error (.digestMismatch fourBytesDigest), after) ∧
      after.db.upload "s".toList ≠ waiting.db.upload "s".toList := by
  obtain ⟨after, ran, received⟩ := refused_eq
  refine ⟨after, ran, fun same => ?_⟩
  rw [same] at received
  exact absurd received (by decide)

theorem wrong_digest_is_resumable :
    ∃ after, (completeUpload (backendPorts "s".toList 60 0) sha256Sample wrongDigest 0).run waiting =
        some (.error (.digestMismatch fourBytesDigest), after) ∧
      Resumable wrongDigest waiting.db after.db := by
  obtain ⟨after, ran, _⟩ := refused_eq
  exact ⟨after, ran, (failed_completion_is_resumable sha256Sample ran).1⟩

end OpenCargo.Oci
