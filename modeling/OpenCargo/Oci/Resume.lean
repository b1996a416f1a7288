/-
Module: OpenCargo.Oci.Resume
Purpose: What a completion that fails leaves of its session. The request is run against a database and
  a store in which anybody else may have acted between two of its calls, as long as they leave the
  session alone, and in which any call may fail.
Trusted boundary: none
Main exports: Backend, backendPorts, Db.content, Resumable
-/
import OpenCargo.Oci.UseCases
import OpenCargo.Storage

namespace OpenCargo.Oci

open OpenCargo.Lib
open OpenCargo.Reclaim (PinToken Pinned)
open OpenCargo.Place (Source Entry PlaceError placeShared Settled account placing_account)

/-! ### A database and a store that answer a request -/

/-- What happens around one call. A database call that fails is rolled back; a store may have done what
it failed to answer. -/
structure Turn where
  /-- What others have made of the database and of the store before the call. -/
  elsewhere : Option (Db × Objects Bytes)
  storeFails : Option StoreError
  storageFails : Option StorageError
  /-- A call that fails was made all the same. -/
  landed : Bool
  /-- The nonce or the token that is drawn. -/
  drawn : Text
  /-- What a pin finds: a retired repository, or the generation its key is placed at. -/
  generation : Option Text
deriving Inhabited

structure Backend where
  db : Db
  objects : Objects Bytes
  turns : List Turn
deriving Inhabited

section Backend

variable (id : Text)

/-- The next turn: what others did leaves the session's rows alone. -/
def nextTurn : Prog Backend Turn := fun w =>
  match w.turns with
  | [] => none
  | turn :: turns =>
      match turn.elsewhere with
      | none => some (turn, { w with turns := turns })
      | some (db, objects) =>
          if db.session id = w.db.session id then some (turn, ⟨db, objects, turns⟩) else none

/-- A call of the database. -/
def transact {α : Type} (call : Turn → Db → α × Db) : Prog Backend (Except StoreError α) := do
  let turn ← nextTurn id
  modifyGet fun w =>
    match turn.storeFails with
    | some e => (.error e, w)
    | none => (.ok (call turn w.db).1, { w with db := (call turn w.db).2 })

/-- A call of the store. -/
def access {α : Type} (call : Objects Bytes → Except StorageError α × Objects Bytes) :
    Prog Backend (Except StorageError α) := do
  let turn ← nextTurn id
  modifyGet fun w =>
    match turn.storageFails with
    | some e => (.error e, if turn.landed then { w with objects := (call w.objects).2 } else w)
    | none => ((call w.objects).1, { w with objects := (call w.objects).2 })

/-- `pin`, for the generation it finds or mints. -/
def Db.pin (db : Db) (repoPrefix : Text) (logical : List Text) (until_ : Instant) (turn : Turn) :
    Pinned × Db :=
  match turn.generation with
  | none => (.retired, db)
  | some gen =>
      let tokens : List PinToken :=
        logical.map fun key => ⟨turn.drawn, key, Layout.physicalKey key gen⟩
      let pins := tokens.map fun token => ⟨token.token, token.physicalKey, repoPrefix, bindTs until_⟩
      (.tokens tokens, { db with reclaim := { db.reclaim with pins := db.reclaim.pins ++ pins } })

/-- What a placement asks for. -/
def placingPorts (ttl : Duration) (now : Instant) : Place.Ports Backend where
  pin := fun repoPrefix logical => transact id fun turn db =>
    db.pin repoPrefix logical (now + ttl) turn
  enqueue := fun keys => do
    let _ ← transact id fun _ db => ((), db.enqueueKeys keys now)
  put := fun key body => access id fun objects => (.ok (), objects.put key body)
  copyObject := fun source target => access id fun objects =>
    objects.writeFrom (objects.get source) target
  relocate := fun source target => access id fun objects =>
    let (answer, after) := objects.writeFrom (objects.get source) target
    (answer, if answer.isOk then after.delete source else after)
  concat := fun keys target => access id fun objects => objects.writeFrom (objects.gather keys) target
  stat := fun key => access id fun objects => (.ok ((objects.get key).map List.length), objects)

def backendPorts (ttl : Duration) (now : Instant) : Ports Backend where
  toPorts := placingPorts id ttl now
  upload := fun upload => transact id fun _ db => (db.upload upload, db)
  claimSegment := fun upload segment limit now => transact id fun _ db =>
    db.claimOneSegment upload segment limit now
  segments := fun upload => transact id fun _ db => (db.segmentsOf upload, db)
  beginComplete := fun upload now => transact id fun turn db => db.lease upload now ttl turn.drawn
  releaseComplete := fun upload lease => transact id fun _ db => ((), db.releaseComplete upload lease)
  finishUpload := fun upload lease pin blob now => do
    -- a transaction that answers an error is rolled back
    let outcome ← transact id fun _ db =>
      match db.finish upload lease pin blob now with
      | .ok (finished, after) => (.ok finished, after)
      | .error e => (.error e, db)
    return outcome.bind fun answer => answer
  readStream := fun key => access id fun objects =>
    ((objects.get key).elim (.error .notFound) .ok, objects)
  delete := fun key => access id fun objects => (.ok (), objects.delete key)
  deleteBatch := fun keys => access id fun objects => (.ok (), objects.deleteBatch keys)
  nonce := return (← nextTurn id).drawn

end Backend

/-! ### What a session has received -/

/-- A session's row, less its lease. -/
def UploadRow.core (row : UploadRow) : UploadRow :=
  { row with touchedAt := 0, leaseToken := none, leaseUntil := none }

/-- What a session has received: its row, less its lease, and its segments. -/
def Db.content (db : Db) (id : Text) : List UploadRow × List SegmentRow :=
  ((db.session id).1.map UploadRow.core, (db.session id).2)

/-- A row as the use cases read it. -/
def UploadRow.session (row : UploadRow) : Option UploadSession :=
  row.received.bind fun received =>
    row.segmentPrefix.map fun root => ⟨row.repository, root, received, row.segmentCount⟩

theorem Db.upload_eq {db : Db} {id : Text} :
    db.upload id = (db.content id).1.head?.bind UploadRow.session := by
  simp only [Db.upload, Db.receiving, Db.uploadRow_eq, Db.content, List.head?_map]
  cases (db.session id).1.head? with
  | none => rfl
  | some row => cases one : row.received <;> simp [UploadRow.session, UploadRow.core, one]

theorem Db.upload_of_content {db after : Db} {id : Text} (same : after.content id = db.content id) :
    after.upload id = db.upload id := by
  rw [upload_eq, upload_eq, same]

theorem Db.content_setUpload {db : Db} {id : Text} {change : UploadRow → UploadRow}
    (same : ∀ row, (change row).core = row.core) : (db.setUpload id change).content id = db.content id := by
  have ids : ∀ row, (change row).id = row.id := by
    intro row
    have fields := same row
    simp only [UploadRow.core, UploadRow.mk.injEq] at fields
    exact fields.1
  unfold Db.content
  rw [Db.session_setUpload ids, List.map_map]
  simp [Function.comp_def, same]

/-! ### The calls -/

section Calls

variable {id : Text} {c : List UploadRow × List SegmentRow}

/-- The content of the session is this one. -/
def Holds (id : Text) (c : List UploadRow × List SegmentRow) (w : Backend) : Prop :=
  w.db.content id = c

theorem triple_nextTurn : Triple (Holds id c) (nextTurn id) fun _ => Holds id c := by
  constructor
  intro w holds turn after run
  simp only [nextTurn, StateT.run] at run
  split at run
  case h_1 => cases run
  case h_2 =>
    split at run
    case h_1 =>
      cases run
      exact holds
    case h_2 =>
      split at run
      case isTrue same =>
        cases run
        unfold Holds Db.content
        rw [same]
        exact holds
      case isFalse => cases run

theorem triple_transact {α : Type} {call : Turn → Db → α × Db} {Q : Except StoreError α → Backend → Prop}
    (does : ∀ turn w, Holds id c w → Q (.ok (call turn w.db).1) { w with db := (call turn w.db).2 })
    (fails : ∀ e w, Holds id c w → Q (.error e) w) : Triple (Holds id c) (transact id call) Q := by
  unfold transact
  apply triple_nextTurn.bind
  intro turn
  apply Triple.modifyGet
  intro w holds
  cases turn.storeFails with
  | some e => exact fails e w holds
  | none => exact does turn w holds

theorem triple_access {α : Type} {call : Objects Bytes → Except StorageError α × Objects Bytes} :
    Triple (Holds id c) (access id call) fun _ => Holds id c := by
  unfold access
  apply triple_nextTurn.bind
  intro turn
  apply Triple.modifyGet
  intro w holds
  split
  · split
    · exact holds
    · exact holds
  · exact holds

theorem triple_query {α : Type} {call : Turn → Db → α × Db}
    (same : ∀ turn db, (call turn db).2.content id = db.content id) :
    Triple (Holds id c) (transact id call) fun _ => Holds id c := by
  apply triple_transact
  · exact fun turn w holds => (same turn w.db).trans holds
  · exact fun _ _ holds => holds

theorem Db.content_pin {db : Db} {repoPrefix : Text} {logical : List Text} {until_ : Instant}
    {turn : Turn} : (db.pin repoPrefix logical until_ turn).2.content id = db.content id := by
  unfold Db.pin
  split <;> rfl

theorem Db.pin_length {db after : Db} {repoPrefix : Text} {logical : List Text} {until_ : Instant}
    {turn : Turn} {tokens : List PinToken}
    (pinned : db.pin repoPrefix logical until_ turn = (.tokens tokens, after)) :
    tokens.length = logical.length := by
  unfold Db.pin at pinned
  split at pinned
  · cases pinned
  · cases pinned
    exact List.length_map _

variable (ttl : Duration) (now : Instant)

theorem keeps_backend : Place.Keeps (placingPorts id ttl now) (Holds id c) := by
  unfold placingPorts
  constructor
  all_goals dsimp only
  · intro repoPrefix logical
    apply triple_transact
    · intro turn w holds
      refine ⟨Db.content_pin.trans holds, ?_⟩
      intro tokens same
      exact Db.pin_length (Prod.ext (Except.ok.inj same) rfl)
    · exact fun _ _ holds => ⟨holds, nofun⟩
  · intro keys
    apply Triple.bind (triple_query fun _ _ => rfl)
    exact fun _ => .pure fun _ holds => holds
  · exact fun _ _ => triple_access
  · exact fun _ _ => triple_access
  · exact fun _ _ => triple_access
  · exact fun _ _ => triple_access
  · exact fun _ => triple_access

/-! ### The request -/

/-- What a won chunk leaves of a session with this content. -/
def grown (id : Text) (c : List UploadRow × List SegmentRow) (segment : Segment) :
    List UploadRow × List SegmentRow :=
  (c.1.map fun row => (Db.grow segment 0 row).core,
    c.2 ++ [⟨id, segment.start, segment.len, segment.key⟩])

theorem Db.content_claim {db : Db} {segment : Segment} {limit : Nat} {now : Instant} :
    (db.claimOneSegment id segment limit now).2.content id =
      if (db.claimOneSegment id segment limit now).1 = .won then grown id (db.content id) segment
      else db.content id := by
  cases claimed : db.claimOneSegment id segment limit now with
  | mk answer after =>
      simp only
      split
      case isTrue won =>
        subst won
        obtain ⟨_, _, _, _, rows⟩ := Db.claimOneSegment_won claimed
        unfold Db.content grown
        rw [rows, List.map_map, List.map_map]
        rfl
      case isFalse lost => rw [Db.claimOneSegment_lost claimed lost]

variable {start : Db}

theorem triple_upload : Triple (Holds id (start.content id)) ((backendPorts id ttl now).upload id)
    fun r w => Holds id (start.content id) w ∧ ∀ found, r = .ok found → found = start.upload id := by
  unfold backendPorts
  dsimp only
  apply triple_transact
  · intro turn w holds
    refine ⟨holds, ?_⟩
    intro found same
    rw [← Except.ok.inj same]
    exact Db.upload_of_content holds
  · exact fun _ _ holds => ⟨holds, nofun⟩

theorem triple_claim (segment : Segment) (limit : Nat) (at_ : Instant) :
    Triple (Holds id c) ((backendPorts id ttl now).claimSegment id segment limit at_) fun r w =>
      Holds id (if r = .ok .won then grown id c segment else c) w := by
  unfold backendPorts
  dsimp only
  apply triple_transact
  · intro turn w holds
    simp only [Except.ok.injEq]
    rw [← holds]
    exact Db.content_claim
  · exact fun _ _ holds => holds

theorem triple_put (key : Text) (body : Bytes) :
    Triple (Holds id c) ((backendPorts id ttl now).put key body) fun _ => Holds id c :=
  (keeps_backend ttl now).put key body

theorem triple_delete (key : Text) :
    Triple (Holds id c) ((backendPorts id ttl now).delete key) fun _ => Holds id c := by
  unfold backendPorts
  dsimp only
  exact triple_access

theorem triple_nonce : Triple (Holds id c) (backendPorts id ttl now).nonce fun _ => Holds id c := by
  unfold backendPorts
  dsimp only
  apply triple_nextTurn.bind
  exact fun _ => .pure fun _ holds => holds

/-- Appending a body: one more segment, where the session stood, or nothing. -/
def Appended (id : Text) (start : Db) (body : Bytes) (w : Backend) : Prop :=
  ∃ session key, start.upload id = some session ∧
    Holds id (grown id (start.content id) ⟨session.received, body.length, key⟩) w

theorem triple_appendChunk {repository : Nat} {offset : Option Nat} {body : Bytes} {at_ : Instant}
    (some_ : body ≠ []) :
    Triple (Holds id (start.content id))
      (appendChunk (backendPorts id ttl now) id repository offset body at_) fun r w =>
        match r with
        | .ok _ => Appended id start body w
        | .error _ => Holds id (start.content id) w := by
  unfold appendChunk
  apply (triple_upload ttl now).bind
  intro answer
  rcases answer with e | found
  · exact .pure fun _ kept => kept.1
  · apply Triple.assuming fun w kept => kept.2 found rfl
    intro same
    subst same
    dsimp only
    split
    case h_1 => exact .pure fun _ kept => kept.1
    case h_2 session read =>
      have stands : start.upload id = some session := (Option.filter_eq_some_iff.mp read).1
      apply Triple.ite
      · exact fun _ => .pure fun _ kept => kept.1
      · intro _
        apply Triple.ite
        · intro empty
          exact absurd (List.isEmpty_iff.mp empty) some_
        · intro _
          refine Triple.bind ((triple_nonce ttl now).weaken (fun _ kept => kept.1) fun _ _ kept => kept) ?_
          intro nonce
          apply (triple_put ttl now _ _).bind
          intro answer
          rcases answer with e | _
          · exact .pure fun _ kept => kept
          · apply (triple_claim ttl now _ _ _).bind
            intro answer
            rcases answer with e | answer
            · exact .pure fun _ kept => kept
            · cases answer with
              | won =>
                  apply Triple.pure
                  exact fun _ kept => ⟨session, _, stands, kept⟩
              | tooManySegments =>
                  apply (triple_delete ttl now _).bind
                  exact fun _ => .pure fun _ kept => kept
              | lost =>
                  apply (triple_delete ttl now _).bind
                  intro _
                  apply (triple_upload ttl now).bind
                  intro answer
                  rcases answer with e | _
                  · exact .pure fun _ kept => kept.1
                  · exact .pure fun _ kept => kept.1

theorem triple_appendBody {done : Completion} {at_ : Instant} :
    Triple (Holds done.upload (start.content done.upload))
      (appendBody (backendPorts done.upload ttl now) done at_) fun r w =>
        match r with
        | .ok _ => done.body = [] ∧ Holds done.upload (start.content done.upload) w ∨
            done.body ≠ [] ∧ Appended done.upload start done.body w
        | .error _ => Holds done.upload (start.content done.upload) w := by
  unfold appendBody
  apply Triple.ite
  · intro empty
    exact .pure fun _ kept => .inl ⟨List.isEmpty_iff.mp empty, kept⟩
  · intro body
    have some_ : done.body ≠ [] := by
      rintro empty
      simp [empty] at body
    apply (triple_appendChunk ttl now some_).bind
    intro answer
    rcases answer with e | _
    · exact .pure fun _ kept => kept
    · exact .pure fun _ kept => .inr ⟨some_, kept⟩

theorem triple_readAll (keys : List Text) :
    Triple (Holds id c) (readAll (backendPorts id ttl now) keys) fun _ => Holds id c := by
  induction keys with
  | nil => exact .pure fun _ holds => holds
  | cons key keys ih =>
      unfold readAll
      have read : Triple (Holds id c) ((backendPorts id ttl now).readStream key)
          fun _ => Holds id c := by
        unfold backendPorts
        dsimp only
        exact triple_access
      apply read.bind
      intro answer
      rcases answer with e | body
      · exact .pure fun _ holds => holds
      · apply ih.bind
        intro answer
        rcases answer with e | rest
        · exact .pure fun _ holds => holds
        · exact .pure fun _ holds => holds

theorem triple_finish (lease : Text) (pin : PinToken) (blob : NewBlob) (at_ : Instant) :
    Triple (Holds id c) ((backendPorts id ttl now).finishUpload id lease pin blob at_) fun r w =>
      (∀ key, r ≠ .ok (.recorded key)) → Holds id c w := by
  unfold backendPorts
  dsimp only
  have transacted : Triple (Holds id c) (transact id fun _ db =>
      match db.finish id lease pin blob at_ with
      | .ok (finished, after) => (Except.ok finished, after)
      | .error e => (Except.error e, db)) fun r w =>
        (∀ key, r ≠ .ok (.ok (.recorded key))) → Holds id c w := by
    apply triple_transact
    · intro turn w holds unfinished
      revert unfinished
      cases finished : w.db.finish id lease pin blob at_ with
      | error e => exact fun _ => holds
      | ok out =>
          obtain ⟨answer, after⟩ := out
          cases answer with
          | recorded key => exact fun unfinished => absurd rfl (unfinished key)
          | leaseLost =>
              intro _
              rw [Holds, Db.finish_lost finished]
              exact holds
    · exact fun _ _ holds _ => holds
  apply transacted.bind
  intro answer
  apply Triple.pure
  intro w kept unfinished
  apply kept
  rintro key rfl
  exact unfinished key rfl

theorem triple_place {done : Completion} {lease : Text} {size : Nat} {at_ : Instant}
    {entries : List Entry} :
    Triple (Holds done.upload c)
      (placeShared (backendPorts done.upload ttl now).toPorts done.repoPrefix entries
        (finishWith (backendPorts done.upload ttl now) done lease size at_))
      (Settled (account (Holds done.upload c)) fun _ _ => True) := by
  apply (keeps_backend ttl now).served.placeShared _ _ fun _ _ => trivial
  intro written doomed pairs _ _
  unfold finishWith
  refine Triple.bind ((triple_finish ttl now _ _ _ _).weaken (fun w placing => placing.kept)
    fun _ _ kept => kept) ?_
  intro answer
  rcases answer with e | finished
  · apply Triple.pure
    intro w kept
    cases e
    all_goals exact placing_account.mpr (kept nofun)
  · cases finished with
    | recorded key => exact .pure fun _ _ => trivial
    | leaseLost => exact .pure fun w kept => placing_account.mpr (kept nofun)

variable (sha256 : Bytes → Text)

theorem triple_complete {done : Completion} {lease : Text} {at_ : Instant} :
    Triple (Holds done.upload c)
      (complete (backendPorts done.upload ttl now) sha256 done lease at_) fun r w =>
        ∀ e, r = .error e → Holds done.upload c w := by
  unfold complete
  have read : Triple (Holds done.upload c) ((backendPorts done.upload ttl now).segments done.upload)
      fun _ => Holds done.upload c := by
    unfold backendPorts
    dsimp only
    exact triple_query fun _ _ => rfl
  apply read.bind
  intro answer
  rcases answer with e | segments
  · exact .pure fun _ kept _ _ => kept
  · dsimp only
    split
    · exact .pure fun _ kept _ _ => kept
    · apply (triple_readAll ttl now _).bind
      intro answer
      rcases answer with e | body
      · cases e
        all_goals exact .pure fun _ kept _ _ => kept
      · dsimp only
        split
        · exact .pure fun _ kept _ _ => kept
        · apply (triple_place ttl now).bind
          intro answer
          rcases answer with e | _
          · have failed : ∀ e', Triple (Settled (account (Holds done.upload c)) (fun _ _ => True)
                (Except.error e : Except PlaceError Unit))
                (pure (.error e') : Prog Backend (Except OciWriteError Unit)) fun r w =>
                  ∀ e, r = .error e → Holds done.upload c w :=
              fun e' => .pure fun _ kept _ _ => kept
            split
            all_goals first
              | exact failed _
              | cases ‹_ = _›
          · have deleted : Triple (fun _ => True) ((backendPorts done.upload ttl now).deleteBatch
                (segments.map Segment.key)) fun _ _ => True := ⟨fun _ _ _ _ _ => trivial⟩
            refine Triple.bind (deleted.weaken (fun _ _ => trivial) fun _ _ kept => kept) ?_
            exact fun _ => .pure fun _ _ e bad => by cases bad

theorem triple_completeLeased {done : Completion} {at_ : Instant} :
    Triple (Holds done.upload c)
      (completeLeased (backendPorts done.upload ttl now) sha256 done at_) fun r w =>
        ∀ e, r = .error e → Holds done.upload c w := by
  unfold completeLeased
  have read : Triple (Holds done.upload c) ((backendPorts done.upload ttl now).upload done.upload)
      fun _ => Holds done.upload c := by
    unfold backendPorts
    dsimp only
    exact triple_query fun _ _ => rfl
  have leased : Triple (Holds done.upload c)
      ((backendPorts done.upload ttl now).beginComplete done.upload at_)
      fun _ => Holds done.upload c := by
    unfold backendPorts
    dsimp only
    apply triple_query
    intro turn db
    unfold Db.lease
    split
    · rfl
    · split
      · rfl
      · exact Db.content_setUpload fun _ => rfl
  have released : ∀ lease, Triple (Holds done.upload c)
      ((backendPorts done.upload ttl now).releaseComplete done.upload lease)
      fun _ => Holds done.upload c := by
    intro lease
    unfold backendPorts
    dsimp only
    apply triple_query
    intro turn db
    apply Db.content_setUpload
    intro row
    split <;> rfl
  apply read.bind
  intro answer
  rcases answer with e | found
  · exact .pure fun _ kept _ _ => kept
  · dsimp only
    split
    · exact .pure fun _ kept _ _ => kept
    · apply leased.bind
      intro answer
      rcases answer with e | answer
      · exact .pure fun _ kept _ _ => kept
      · cases answer with
        | held => exact .pure fun _ kept _ _ => kept
        | unknown => exact .pure fun _ kept _ _ => kept
        | lease lease =>
            apply (triple_complete ttl now sha256).bind
            intro answer
            rcases answer with e | _
            · refine Triple.bind ((released lease).weaken (fun w kept => kept e rfl) fun _ _ kept => kept) ?_
              exact fun _ => .pure fun _ kept _ _ => kept
            · exact .pure fun _ _ e bad => by cases bad

end Calls

/-! ### What a failed completion leaves -/

/-- What a failed request leaves of its session: what it had received, or that and, where the request
brought a body, the body as one more segment, where the session stood. -/
inductive Resumable (done : Completion) (before after : Db) : Prop where
  | unchanged : after.upload done.upload = before.upload done.upload →
      (after.session done.upload).2 = (before.session done.upload).2 → Resumable done before after
  | appended (session : UploadSession) (key : Text) : done.body ≠ [] →
      before.upload done.upload = some session →
      after.upload done.upload = some { session with
        received := session.received + done.body.length, segments := session.segments + 1 } →
      (after.session done.upload).2 = (before.session done.upload).2 ++
        [⟨done.upload, session.received, done.body.length, key⟩] → Resumable done before after

end OpenCargo.Oci
