/-
Module: OpenCargo.Durable.Completion
Purpose: `CompleteUpload` at work in the system it is part of, from any state that is reached, restored
  databases included. The blob row it ends in names an object with the digest, exactly when the row had
  no key before, or had one that named such an object already.
Trusted boundary: an upload's tree is named by uuids, so no key in it has a `~`
Main exports: recordedKey, DurableRow, ReadyRow, completed_blob_is_durable_iff
-/
import OpenCargo.Durable.Reached
import OpenCargo.Oci.UseCases
import OpenCargo.Place.World

namespace OpenCargo.Durable

open OpenCargo.Lib
open OpenCargo.Reclaim
open OpenCargo.Place (World Turn call own writeCall readCall pinCall worldPorts others Stable Account
  Served Placing Settled Committed Entry Source PlaceError placeShared)
open OpenCargo.Oci (Db BlobRow Completion NewBlob Finished Segment UploadSession OciWriteError
  appendChunk appendBody readAll finishWith complete completeLeased completeUpload blobEntry)

/-! ### The world of one completion -/

section Calls

variable (sha256 : Bytes → Text) (logical digest incarnation : Text)

/-- What is asked of a step of the completion's own: the reclamation's condition, and nothing of what
it writes. -/
def Mine (w : World Db) (act : Act Bytes) (after : World Db) : Prop := Admitted w.state act after.state

instance (w : World Db) (act : Act Bytes) (after : World Db) : Decidable (Mine w act after) := by
  unfold Mine
  infer_instance

/-- What is asked of anybody else's step. -/
def Theirs (w : World Db) (act : Act Bytes) (after : World Db) : Prop :=
  Faithful sha256 logical digest w.state act after.state

instance (w : World Db) (act : Act Bytes) (after : World Db) :
    Decidable (Theirs sha256 logical digest w act after) := by
  unfold Theirs
  infer_instance

/-- A transaction over the OCI tables. -/
def tablesCall {α : Type} (does : Turn Db → Db → α × Db) : Prog (World Db) (Except StoreError α) :=
  call (Theirs sha256 logical digest) true fun turn w =>
    match turn.storeFails with
    | some e => some (.error e, w)
    | none => some (.ok (does turn w.rest).1, { w with rest := (does turn w.rest).2 })

/-- A key of an upload's tree: it lies under the incarnation, and is no generation of anything. -/
def inTree (key : Text) : Bool :=
  Layout.sqlWithin key (Layout.incarnationPrefix incarnation) && !key.contains '~'

/-- A call at keys of an upload's tree. -/
def treeCall {α : Type} (keys : List Text) (program : Prog (World Db) α) : Prog (World Db) α := fun w =>
  if keys.all (inTree incarnation) then program w else none

/-- The objects of these keys are deleted; where the call fails, they may be there still. -/
def deleteCall (keys : List Text) : Prog (World Db) (Except StorageError Unit) :=
  treeCall incarnation keys (call (Theirs sha256 logical digest) true fun turn w =>
    let gone := { w with state := { w.state with objects := w.state.objects.deleteBatch keys } }
    match turn.storageFails with
    | some e => some (.error e, if turn.landed then gone else w)
    | none => some (.ok (), gone))

/-- `finish`, as the commit of the reclamation it is: the pin is spent, the key it records is
referenced, and the pin's own key is queued where another is recorded. -/
def finishCall (id lease : Text) (pin : PinToken) (blob : NewBlob) (now : Instant) :
    Prog (World Db) (Except StoreError Finished) :=
  call (Theirs sha256 logical digest) true fun turn w =>
    match turn.storeFails with
    | some e => some (.error e, w)
    | none =>
        match { w.rest with reclaim := w.state.tables }.finish id lease pin blob now with
        | .error e => some (.error e, w)
        | .ok (.leaseLost, _) => some (.ok .leaseLost, w)
        | .ok (.recorded key, db) =>
            let queued := if key != pin.physicalKey then [pin.physicalKey] else []
            if Referenced turn.rows key then
              (own Mine w (.commit [pin] turn.rows queued now)).map fun after =>
                (.ok (.recorded key),
                  { after with
                    rest := db
                    commits := ((w.state, w.rest), (after.state, db)) :: after.commits })
            else none

/-- What a completion under this incarnation asks for. -/
def uploadPorts (ttl : Duration) (until_ now : Instant) :
    Oci.Ports (World Db) where
  toPorts := { worldPorts Mine (Theirs sha256 logical digest) true incarnation until_ now with
    put := fun key body => treeCall incarnation [key]
      (writeCall Mine (Theirs sha256 logical digest) true (fun _ => some body) key) }
  upload := fun id => tablesCall sha256 logical digest fun _ db => (db.upload id, db)
  claimSegment := fun id segment limit now => tablesCall sha256 logical digest fun _ db =>
    db.claimOneSegment id segment limit now
  segments := fun id => tablesCall sha256 logical digest fun _ db => (db.segmentsOf id, db)
  beginComplete := fun id now => tablesCall sha256 logical digest fun turn db =>
    db.lease id now ttl (turn.draws.headD default).2
  releaseComplete := fun id lease => tablesCall sha256 logical digest fun _ db =>
    ((), db.releaseComplete id lease)
  finishUpload := finishCall sha256 logical digest
  readStream := fun key => treeCall incarnation [key]
    (readCall (Theirs sha256 logical digest) true fun objects => (objects.get key).elim (.error .notFound) .ok)
  delete := fun key => deleteCall sha256 logical digest incarnation [key]
  deleteBatch := deleteCall sha256 logical digest incarnation
  nonce := call (Theirs sha256 logical digest) true fun turn w =>
    some ((turn.draws.headD default).1, w)

end Calls

/-! ### What the finishing transaction records -/

/-- The key of a repository's blob row for a digest. -/
def recordedKey (db : Db) (repository : Nat) (digest : Text) : Option Text :=
  (db.blobRow repository digest).bind BlobRow.storageKey

theorem recordedKey_upsertBlob (db : Db) (blob : NewBlob) (key : Text) (now : Instant) :
    recordedKey (db.upsertBlob blob key now) blob.repository blob.digest = some key := by
  unfold Db.upsertBlob
  cases found : db.blobRow blob.repository blob.digest with
  | none =>
      unfold Db.blobRow at found
      simp [recordedKey, Db.blobRow, List.find?_append, found]
  | some row =>
      have same : (fun r : BlobRow => r.repository == blob.repository && r.digest == blob.digest) ∘
          (fun r : BlobRow => if r.repository == blob.repository && r.digest == blob.digest then
            { r with storageKey := some key } else r) =
          fun r => r.repository == blob.repository && r.digest == blob.digest := by
        funext r
        simp only [Function.comp]
        split
        · rfl
        · rfl
      have fits := List.find?_some found
      unfold Db.blobRow at found
      simp only [Option.isSome_some, if_true, recordedKey, Db.blobRow, List.find?_map, same, found,
        Option.map_some, Option.bind_some, if_pos fits]

theorem recordBlob_records (db : Db) (pin : PinToken) (blob : NewBlob) (now : Instant) {key : Text}
    {after : Db} (recorded : db.recordBlob pin blob now = (key, after)) :
    key = (recordedKey db blob.repository blob.digest).getD pin.physicalKey ∧
      recordedKey after blob.repository blob.digest = some key ∧
      after.reclaim = db.reclaim.enqueueKeys
        (if key != pin.physicalKey then [pin.physicalKey] else []) now := by
  unfold Db.recordBlob at recorded
  split at recorded
  case h_1 old had =>
    have before : recordedKey db blob.repository blob.digest = some old := had
    cases recorded
    rw [before]
    refine ⟨rfl, ?_, ?_⟩
    · rw [← before]
      split
      · rfl
      · rfl
    · split
      · rfl
      · rfl
  case h_2 had =>
    have before : recordedKey db blob.repository blob.digest = none := had
    cases recorded
    rw [before]
    refine ⟨rfl, recordedKey_upsertBlob db blob _ now, ?_⟩
    unfold Db.upsertBlob
    split
    · simp [Tables.enqueueKeys]
    · simp [Tables.enqueueKeys]

/-- What `finish` records, and what it does to the reclamation tables: the pin is spent, and its key is
queued where the row has another. -/
theorem finish_records {db after : Db} {id lease key : Text} {pin : PinToken} {blob : NewBlob}
    {now : Instant} (finished : db.finish id lease pin blob now = .ok (.recorded key, after)) :
    key = (recordedKey db blob.repository blob.digest).getD pin.physicalKey ∧
      recordedKey after blob.repository blob.digest = some key ∧
      ∃ spent, db.reclaim.spendPins [pin] = .ok spent ∧ after.reclaim = spent.enqueueKeys
        (if key != pin.physicalKey then [pin.physicalKey] else []) now := by
  unfold Db.finish at finished
  split at finished
  case isFalse => cases finished
  case isTrue =>
    split at finished
    case h_1 => cases finished
    case h_2 spent ok =>
      cases records : Db.recordBlob { db with reclaim := spent } pin blob now with
      | mk recorded left =>
          rw [records] at finished
          cases finished
          obtain ⟨which, stands, queue⟩ := recordBlob_records _ pin blob now records
          exact ⟨which, stands, spent, ok, queue⟩

/-! ### Where a completion stands -/

section Stands

variable {sha256 : Bytes → Text} {logical digest : Text} {w after : World Db} {act : Act Bytes}

/-- A key of an upload's tree, and the body that was read there: nobody writes there again, so the body
is still there, or nothing is. -/
structure Still (part : Text × Bytes) (state : State Bytes) : Prop where
  plain : '~' ∉ part.1
  named : part.1 ∈ state.seen
  same : ∀ body, state.objects.get part.1 = some body → body = part.2

/-- What the completion relies on: the store is what it is in every state that is reached, and the
segments it has read are as it read them. It has committed nothing yet. -/
structure Stands (sha256 : Bytes → Text) (logical digest : Text) (parts : List (Text × Bytes))
    (w : World Db) : Prop where
  stocked : Stocked sha256 logical digest w.state
  still : ∀ part ∈ parts, Still part w.state
  uncommitted : w.commits = []

theorem not_rewritten {key : Text} {body : Bytes} (stocked : Stocked sha256 logical digest w.state)
    (fair : Place.genuine w (.write key body) = true) (plain : '~' ∉ key) : key ∉ w.state.seen := by
  simp only [Place.genuine, Bool.or_eq_true, List.contains_iff_mem, Bool.not_eq_true',
    ← Bool.not_eq_true] at fair
  rcases fair with placed | fresh
  · exact absurd (stocked.placed _ placed) plain
  · exact fresh

theorem Still.step {part : Text × Bytes} (still : Still part w.state)
    (stocked : Stocked sha256 logical digest w.state) (taken : World.step w act = some after) :
    Still part after.state := by
  obtain ⟨fair, state, moved, rfl⟩ := World.step_some taken
  refine ⟨still.plain, seen_step (effect_of moved) still.named, ?_⟩
  intro body there
  rcases object_fate stocked.sound (effect_of moved) part.1 with left | ⟨written, rfl, _⟩ | ⟨none, _⟩
  · exact still.same body (left ▸ there)
  · exact absurd still.named (not_rewritten stocked fair still.plain)
  · rw [none] at there
    cases there

variable {parts : List (Text × Bytes)}

theorem Stands.step (stands : Stands sha256 logical digest parts w)
    (taken : World.step w act = some after)
    (faithful : Faithful sha256 logical digest w.state act after.state) :
    Stands sha256 logical digest parts after := by
  have still : ∀ part ∈ parts, Still part after.state :=
    fun part mem => (stands.still part mem).step stands.stocked taken
  obtain ⟨_, state, moved, rfl⟩ := World.step_some taken
  exact ⟨stands.stocked.step moved faithful, still, stands.uncommitted⟩

theorem stable_stands :
    Stable (Theirs sha256 logical digest) (Stands sha256 logical digest parts) where
  turns := fun _ _ _ stands => ⟨stands.stocked, stands.still, stands.uncommitted⟩
  step := fun _ _ _ stands taken _ faithful => stands.step taken faithful

theorem inTree_iff {incarnation key : Text} : inTree incarnation key = true ↔
    Layout.sqlWithin key (Layout.incarnationPrefix incarnation) = true ∧ '~' ∉ key := by
  simp [inTree]

theorem isGeneration_tilde {key : Text} (generation : isGeneration logical key = true) : '~' ∈ key := by
  obtain ⟨gen, _, rfl⟩ := isGeneration_iff.mp generation
  simp [Layout.physicalKey]

/-- A body that is written at a generation of the blob's key is to have the digest; any other step of
the completion's own is as faithful as it is admitted. -/
theorem faithful_own (taken : own Mine w act = some after)
    (digested : ∀ key body, act = .write key body → isGeneration logical key = true →
      sha256 body = digest) :
    World.step w act = some after ∧ Faithful sha256 logical digest w.state act after.state := by
  obtain ⟨moved, admitted⟩ := (checked_eq_some_iff World.step Mine).mp taken
  refine ⟨moved, admitted, ?_⟩
  cases act with
  | write key body => exact digested key body rfl
  | _ => trivial

theorem Stocked.deleteBatch {state : State Bytes} (stocked : Stocked sha256 logical digest state)
    (keys : List Text) :
    Stocked sha256 logical digest { state with objects := state.objects.deleteBatch keys } where
  sound := { stocked.sound with
    objects := fun key mem =>
      stocked.sound.objects key (Objects.mem_keys_deleteBatch.mp mem).1
    holders := fun h mem => { stocked.sound.holders h mem with } }
  typed := by
    intro key body generation there
    apply stocked.typed key body generation
    by_cases hit : key ∈ keys
    · rw [Objects.get_deleteBatch_self hit] at there
      cases there
    · rwa [Objects.get_deleteBatch hit] at there
  placed := stocked.placed

theorem Still.deleteBatch {state : State Bytes} {part : Text × Bytes} (still : Still part state)
    (keys : List Text) : Still part { state with objects := state.objects.deleteBatch keys } := by
  refine ⟨still.plain, still.named, ?_⟩
  intro body there
  by_cases hit : part.1 ∈ keys
  · rw [Objects.get_deleteBatch_self hit] at there
    cases there
  · rw [Objects.get_deleteBatch hit] at there
    exact still.same body there

theorem Stands.deleteBatch (stands : Stands sha256 logical digest parts w) (keys : List Text) :
    Stands sha256 logical digest parts
      { w with state := { w.state with objects := w.state.objects.deleteBatch keys } } :=
  ⟨stands.stocked.deleteBatch keys, fun part mem => (stands.still part mem).deleteBatch keys,
    stands.uncommitted⟩

theorem gather_still {state : State Bytes} (still : ∀ part ∈ parts, Still part state) {body : Bytes}
    (gathered : state.objects.gather (parts.map Prod.fst) = some body) :
    body = (parts.map Prod.snd).flatten := by
  induction parts generalizing body with
  | nil =>
      cases gathered
      rfl
  | cons part parts ih =>
      simp only [List.map_cons, Objects.gather, Option.bind_eq_some_iff, Option.map_eq_some_iff]
        at gathered
      obtain ⟨first, there, rest, later, rfl⟩ := gathered
      rw [List.map_cons, List.flatten_cons, (still part List.mem_cons_self).same first there,
        ih (fun other mem => still other (List.mem_cons_of_mem _ mem)) later]

end Stands

/-! ### The calls -/

section Triples

variable {sha256 : Bytes → Text} {logical digest : Text} {parts : List (Text × Bytes)}
  {incarnation : Text} {ttl : Duration} {until_ now : Instant}

theorem triple_treeCall {α : Type} {P : World Db → Prop} {Q : α → World Db → Prop} {keys : List Text}
    {program : Prog (World Db) α}
    (inside : (∀ key ∈ keys, inTree incarnation key = true) → Triple P program Q) :
    Triple P (treeCall incarnation keys program) Q := by
  constructor
  intro w holds a after run
  change (if keys.all (inTree incarnation) then program w else none) = _ at run
  split at run
  case isTrue all => exact (inside (List.all_eq_true.mp all)).outcome w holds a after run
  case isFalse => cases run

theorem triple_tables {α : Type} {P : World Db → Prop} (stable : Stable (Theirs sha256 logical digest) P)
    (does : Turn Db → Db → α × Db) :
    Triple P (tablesCall sha256 logical digest does) fun _ => P := by
  apply Place.Triple.call stable
  intro turn w a after holds _ run
  split at run
  · cases run
    exact holds
  · cases run
    exact stable.turns w w.turns _ holds

theorem triple_delete {P : World Db → Prop} (stable : Stable (Theirs sha256 logical digest) P)
    (keys : List Text)
    (kept : (∀ key ∈ keys, inTree incarnation key = true) → ∀ w, P w →
      P { w with state := { w.state with objects := w.state.objects.deleteBatch keys } }) :
    Triple P (deleteCall sha256 logical digest incarnation keys) fun _ => P := by
  apply triple_treeCall
  intro plain
  apply Place.Triple.call stable
  intro turn w a after holds _ run
  dsimp only at run
  split at run
  · cases run
    split
    · exact kept plain w holds
    · exact holds
  · cases run
    exact kept plain w holds

theorem triple_nonce {P : World Db → Prop} (stable : Stable (Theirs sha256 logical digest) P) :
    Triple P (uploadPorts sha256 logical digest incarnation ttl until_ now).nonce fun _ => P := by
  apply Place.Triple.call stable
  intro turn w a after holds _ run
  cases run
  exact holds

theorem triple_put (key : Text) (body : Bytes) :
    Triple (Stands sha256 logical digest parts)
      ((uploadPorts sha256 logical digest incarnation ttl until_ now).put key body)
      fun _ => Stands sha256 logical digest parts := by
  apply triple_treeCall
  intro plain
  apply Place.triple_write stable_stands
  · exact fun _ _ stands => stands
  · intro w written after r stands _ wrote _
    obtain ⟨v, taken, rfl⟩ := Option.map_eq_some_iff.mp wrote
    have digested : ∀ other bytes, Act.write key written = .write other bytes →
        isGeneration logical other = true → sha256 bytes = digest := by
      intro other _ same generation
      cases same
      exact absurd (isGeneration_tilde generation) (inTree_iff.mp (plain key List.mem_cons_self)).2
    obtain ⟨moved, faithful⟩ := faithful_own taken digested
    have next := stands.step moved faithful
    exact ⟨next.stocked, next.still, next.uncommitted⟩

theorem triple_readStream (key : Text) :
    Triple (Stands sha256 logical digest parts)
      ((uploadPorts sha256 logical digest incarnation ttl until_ now).readStream key)
      fun r w => ∀ body, r = .ok body → Stands sha256 logical digest ((key, body) :: parts) w := by
  apply triple_treeCall
  intro plain
  apply Place.triple_read stable_stands
  · exact fun _ _ _ _ => nofun
  · intro w stands body read
    cases there : w.state.objects.get key with
    | none =>
        rw [there] at read
        cases read
    | some found =>
        rw [there] at read
        cases read
        refine ⟨stands.stocked, ?_, stands.uncommitted⟩
        intro part mem
        rcases List.mem_cons.mp mem with rfl | old
        · refine ⟨(inTree_iff.mp (plain key List.mem_cons_self)).2, ?_, ?_⟩
          · exact stands.stocked.sound.objects key (Objects.mem_keys_iff.mpr ⟨_, there⟩)
          · intro other same
            exact Option.some.inj (same.symm.trans there)
        · exact stands.still part old

theorem triple_readAll (keys : List Text) (parts : List (Text × Bytes)) :
    Triple (Stands sha256 logical digest parts)
      (readAll (uploadPorts sha256 logical digest incarnation ttl until_ now) keys)
      fun r w => ∀ body, r = .ok body → ∃ more, more.map Prod.fst = keys ∧
        (more.map Prod.snd).flatten = body ∧ Stands sha256 logical digest (parts ++ more) w := by
  induction keys generalizing parts with
  | nil =>
      apply Triple.pure
      intro w stands body read
      cases read
      exact ⟨[], rfl, rfl, by simpa using stands⟩
  | cons key keys ih =>
      unfold readAll
      apply (triple_readStream key).bind
      intro answer
      rcases answer with e | first
      · exact .pure fun _ _ _ => nofun
      · refine Triple.bind ((ih ((key, first) :: parts)).weaken (fun _ stands => stands first rfl)
          fun _ _ kept => kept) ?_
        intro answer
        rcases answer with e | rest
        · exact .pure fun _ _ _ => nofun
        · apply Triple.pure
          intro w kept body read
          cases read
          obtain ⟨more, keys_, bodies, stands⟩ := kept rest rfl
          refine ⟨(key, first) :: more, by rw [List.map_cons, keys_], ?_, stands.stocked, ?_,
            stands.uncommitted⟩
          · rw [List.map_cons, List.flatten_cons, bodies]
          · intro part mem
            apply stands.still
            simp only [List.mem_append, List.mem_cons, List.cons_append] at mem ⊢
            tauto

theorem triple_appendChunk (id : Text) (repository : Nat) (start : Option Nat) (body : Bytes)
    (at_ : Instant) :
    Triple (Stands sha256 logical digest parts)
      (appendChunk (uploadPorts sha256 logical digest incarnation ttl until_ now) id repository start
        body at_) fun _ => Stands sha256 logical digest parts := by
  unfold appendChunk
  have uploads : Triple (Stands sha256 logical digest parts)
      ((uploadPorts sha256 logical digest incarnation ttl until_ now).upload id)
      fun _ => Stands sha256 logical digest parts :=
    triple_tables stable_stands fun _ db => (db.upload id, db)
  have deletes : ∀ key, Triple (Stands sha256 logical digest parts)
      ((uploadPorts sha256 logical digest incarnation ttl until_ now).delete key)
      fun _ => Stands sha256 logical digest parts :=
    fun key => triple_delete stable_stands [key] fun _ _ stands => stands.deleteBatch [key]
  have claims : ∀ segment limit, Triple (Stands sha256 logical digest parts)
      ((uploadPorts sha256 logical digest incarnation ttl until_ now).claimSegment id segment limit at_)
      fun _ => Stands sha256 logical digest parts :=
    fun segment limit => triple_tables stable_stands fun _ db =>
      db.claimOneSegment id segment limit at_
  apply uploads.bind
  intro answer
  rcases answer with e | found
  · exact .pure fun _ stands => stands
  · dsimp only
    split
    · exact .pure fun _ stands => stands
    · split
      · exact .pure fun _ stands => stands
      · split
        · exact .pure fun _ stands => stands
        · apply (triple_nonce stable_stands).bind
          intro nonce
          apply (triple_put _ body).bind
          intro answer
          rcases answer with e | _
          · exact .pure fun _ stands => stands
          · apply (claims _ _).bind
            intro answer
            rcases answer with e | claim
            · exact .pure fun _ stands => stands
            · cases claim with
              | won => exact .pure fun _ stands => stands
              | tooManySegments =>
                  apply (deletes _).bind
                  exact fun _ => .pure fun _ stands => stands
              | lost =>
                  apply (deletes _).bind
                  intro _
                  apply uploads.bind
                  intro answer
                  rcases answer with e | _
                  · exact .pure fun _ stands => stands
                  · exact .pure fun _ stands => stands

theorem triple_appendBody (done : Completion) (at_ : Instant) :
    Triple (Stands sha256 logical digest parts)
      (appendBody (uploadPorts sha256 logical digest incarnation ttl until_ now) done at_)
      fun _ => Stands sha256 logical digest parts := by
  unfold appendBody
  apply Triple.ite
  · exact fun _ => .pure fun _ stands => stands
  · intro _
    apply (triple_appendChunk _ _ _ _ _).bind
    exact fun _ => .pure fun _ stands => stands

end Triples

/-! ### The placement of the blob -/

section Placement

variable {sha256 : Bytes → Text} {logical digest : Text} {parts : List (Text × Bytes)}
  {incarnation : Text} {ttl : Duration} {until_ now : Instant}

/-- What is said of the world while the blob is placed: it stands as before, and once the blob is in
place its generation is kept. -/
def blobAccount (sha256 : Bytes → Text) (logical digest : Text) (parts : List (Text × Bytes)) :
    Account (World Db) where
  kept := fun _ => Stands sha256 logical digest parts
  doomed := fun _ _ => True
  held := fun _ _ => True
  placed := fun _ token w =>
    isGeneration logical token.physicalKey = true ∧ Kept sha256 digest token.physicalKey w.state
  clean := fun _ => True

variable {written doomed : List Text} {held : List PinToken} {pairs : List (Entry × PinToken)}

theorem placing_step {w after : World Db} {act : Act Bytes}
    (placing : Placing (blobAccount sha256 logical digest parts) written doomed held pairs w)
    (taken : World.step w act = some after)
    (faithful : Faithful sha256 logical digest w.state act after.state) :
    Placing (blobAccount sha256 logical digest parts) written doomed held pairs after := by
  have stands := Stands.step placing.kept taken faithful
  obtain ⟨_, state, moved, rfl⟩ := World.step_some taken
  refine ⟨stands, fun _ _ => trivial, fun _ _ => trivial, ?_⟩
  intro x mem
  obtain ⟨generation, kept⟩ := placing.placed x mem
  exact ⟨generation, kept.step placing.kept.stocked moved faithful generation⟩

theorem stable_placing : Stable (Theirs sha256 logical digest)
    (Placing (blobAccount sha256 logical digest parts) written doomed held pairs) where
  turns := fun w turns rest placing =>
    ⟨stable_stands.turns w turns rest placing.kept, fun _ _ => trivial, fun _ _ => trivial,
      placing.placed⟩
  step := fun _ _ _ placing taken _ faithful => placing_step placing taken faithful

theorem forall₂_drawsOf {Given : Text → PinToken → Prop} {place : Tables.Draw → PinToken}
    (keys : List Text) (draws : List (Text × Text)) (counted : draws.length = keys.length)
    (fits : ∀ draw ∈ Place.drawsOf keys draws, Given draw.logical (place draw)) :
    List.Forall₂ Given keys ((Place.drawsOf keys draws).map place) := by
  induction keys generalizing draws with
  | nil => exact .nil
  | cons key keys ih =>
      cases draws with
      | nil => cases counted
      | cons draw draws =>
          refine .cons (fits _ List.mem_cons_self) (ih draws (Nat.succ.inj counted) ?_)
          exact fun other mem => fits other (List.mem_cons_of_mem _ mem)

theorem triple_pin (repoPrefix : Text) (keys : List Text) :
    Triple (Placing (blobAccount sha256 logical digest parts) written doomed held pairs)
      (pinCall Mine (Theirs sha256 logical digest) true incarnation until_ repoPrefix keys) fun r w =>
        Placing (blobAccount sha256 logical digest parts) written doomed held pairs w ∧
          ∀ tokens, r = .ok (.tokens tokens) →
            List.Forall₂ (fun key token => isGeneration key token.physicalKey = true) keys tokens := by
  apply Place.Triple.call stable_placing
  intro turn w a after placing _ run
  split at run
  case h_1 =>
    cases run
    exact ⟨placing, nofun⟩
  case h_2 =>
    split at run
    case isFalse => cases run
    case isTrue fits =>
      obtain ⟨rfl, counted⟩ := fits
      obtain ⟨v, taken, same⟩ := Option.map_eq_some_iff.mp run
      obtain ⟨rfl, rfl⟩ := Prod.mk.inj same
      obtain ⟨moved, faithful⟩ := faithful_own taken nofun
      have next := placing_step placing moved faithful
      refine ⟨⟨⟨next.kept.stocked, next.kept.still, next.kept.uncommitted⟩, fun _ _ => trivial,
        fun _ _ => trivial, next.placed⟩, ?_⟩
      intro tokens answer
      have given := Except.ok.inj answer
      rw [Place.pinAll_tokens given]
      apply forall₂_drawsOf keys turn.draws counted
      obtain ⟨_, state, stepped, _⟩ := World.step_some moved
      intro draw mem
      have effect := effect_of stepped
      cases effect with
      | refused retired =>
          simp [Tables.pinAll, retired] at given
      | pinned _ fair => exact isGeneration_iff.mpr (place_generation (fair draw mem))
      | moved _ _ whose => cases whose

theorem triple_stat (key : Text) (generation : isGeneration logical key = true) :
    Triple (Placing (blobAccount sha256 logical digest parts) written doomed held pairs)
      ((uploadPorts sha256 logical digest incarnation ttl until_ now).stat key) fun r w =>
        Placing (blobAccount sha256 logical digest parts) written doomed held pairs w ∧
          ∀ size, r = .ok (some size) → Kept sha256 digest key w.state := by
  unfold uploadPorts worldPorts
  dsimp only
  apply Place.triple_read stable_placing
  · exact fun _ _ placing => ⟨placing, nofun⟩
  · intro w placing
    refine ⟨placing, ?_⟩
    intro size found
    obtain ⟨body, there, _⟩ := Option.map_eq_some_iff.mp (Except.ok.inj found)
    have stocked : Stocked sha256 logical digest w.state := placing.kept.stocked
    exact Stored.kept stocked ⟨body, there, stocked.typed key body generation there⟩

/-- The segments that were digested are copied: a blob with the digest is written. -/
theorem triple_concat (key : Text)
    (digested : sha256 (parts.map Prod.snd).flatten = digest) :
    Triple (Placing (blobAccount sha256 logical digest parts) written doomed held pairs)
      ((uploadPorts sha256 logical digest incarnation ttl until_ now).concat (parts.map Prod.fst) key)
      fun r w => Placing (blobAccount sha256 logical digest parts) written doomed held pairs w ∧
        (r = .ok () → Kept sha256 digest key w.state) := by
  unfold uploadPorts worldPorts
  dsimp only
  apply Place.triple_write stable_placing
  · exact fun _ _ placing => ⟨placing, nofun⟩
  · intro w body after r placing gathered wrote _
    obtain ⟨v, taken, rfl⟩ := Option.map_eq_some_iff.mp wrote
    have whole : sha256 body = digest := by
      rw [gather_still placing.kept.still gathered]
      exact digested
    have faithfully : ∀ other bytes, Act.write key body = .write other bytes →
        isGeneration logical other = true → sha256 bytes = digest := by
      intro other bytes same _
      cases same
      exact whole
    obtain ⟨moved, faithful⟩ := faithful_own taken faithfully
    have next := placing_step placing moved faithful
    refine ⟨⟨⟨next.kept.stocked, next.kept.still, next.kept.uncommitted⟩, fun _ _ => trivial,
      fun _ _ => trivial, next.placed⟩, fun _ => ?_⟩
    obtain ⟨_, state, stepped, rfl⟩ := World.step_some moved
    have effect := effect_of stepped
    cases effect with
    | wrote => exact ⟨List.mem_cons_self, .inr ⟨body, Objects.get_put_self, whole⟩⟩
    | moved _ _ whose => cases whose

theorem placing_cons {w : World Db} {entry : Entry} {token : PinToken} (wrote : Bool)
    (placing : Placing (blobAccount sha256 logical digest parts) written doomed held pairs w)
    (generation : isGeneration logical token.physicalKey = true)
    (kept : Kept sha256 digest token.physicalKey w.state) :
    Placing (blobAccount sha256 logical digest parts) (Place.note written token.physicalKey wrote)
      doomed held ((entry, token) :: pairs) w := by
  refine ⟨placing.kept, fun _ _ => trivial, fun _ _ => trivial, ?_⟩
  intro x mem
  rcases List.mem_cons.mp mem with rfl | old
  · exact ⟨generation, kept⟩
  · exact placing.placed x old

/-- The blob is put in place: it is there already, or it is copied from the segments. -/
theorem triple_write_blob (entry : Entry) (token : PinToken) (size : Nat)
    (source : entry.source = .segments (parts.map Prod.fst) size)
    (generation : isGeneration logical token.physicalKey = true)
    (digested : sha256 (parts.map Prod.snd).flatten = digest) :
    Triple (Placing (blobAccount sha256 logical digest parts) written doomed held pairs)
      (Place.write (uploadPorts sha256 logical digest incarnation ttl until_ now).toPorts entry.source
        token.physicalKey) fun r w => match r with
        | .ok wrote => Placing (blobAccount sha256 logical digest parts)
            (Place.note written token.physicalKey wrote) doomed held ((entry, token) :: pairs) w
        | .error _ => Placing (blobAccount sha256 logical digest parts) written doomed held pairs w := by
  rw [source]
  unfold Place.write
  apply (triple_stat token.physicalKey generation).bind
  intro answer
  rcases answer with e | found
  · exact .pure fun w kept => kept.1
  · apply Triple.ite
    · intro whole
      apply Triple.pure
      intro w kept
      have there : found = some size := by simpa using whole
      exact placing_cons false kept.1 generation (kept.2 size (by rw [there]))
    · intro _
      refine Triple.bind ((triple_concat token.physicalKey digested).weaken (fun _ kept => kept.1)
        fun _ _ kept => kept) ?_
      intro answer
      rcases answer with e | _
      · exact .pure fun w kept => kept.1
      · exact .pure fun w kept => placing_cons true kept.1 generation (kept.2 rfl)

theorem served_blob (size : Nat) (digested : sha256 (parts.map Prod.snd).flatten = digest) :
    Served (uploadPorts sha256 logical digest incarnation ttl until_ now).toPorts
      (blobAccount sha256 logical digest parts)
      (fun entry => entry = ⟨logical, .segments (parts.map Prod.fst) size⟩)
      fun key token => isGeneration key token.physicalKey = true where
  pin := by
    intro written doomed held pairs repoPrefix keys
    refine (triple_pin repoPrefix keys).weaken (fun _ placing => placing) ?_
    rintro answer w ⟨placing, given⟩
    exact ⟨placing, fun tokens same => ⟨given tokens same, fun _ _ => trivial⟩⟩
  stat := by
    intro written doomed held pairs key
    unfold uploadPorts worldPorts
    dsimp only
    apply Place.triple_read stable_placing
    · exact fun _ _ placing => placing
    · exact fun _ placing => placing
  write := by
    intro written doomed held pairs entry token ours given _
    subst ours
    exact triple_write_blob _ token size rfl given digested
  rewrite := by
    intro written doomed held pairs entry token revoked found ours given _
    subst ours
    unfold Place.rewrite
    refine Triple.bind (triple_write_blob _ token size rfl given digested) ?_
    intro answer
    rcases answer with e | wrote
    · exact .pure fun _ placing => placing
    · exact .pure fun _ placing => placing
  enqueue := fun _ _ _ _ => ⟨fun _ _ _ _ _ => trivial⟩
  nothing := fun _ _ => trivial

end Placement

/-! ### The finishing transaction -/

section Finish

variable {sha256 : Bytes → Text} {logical digest incarnation : Text} {repository : Nat}

/-- The blob row for a digest has a key, and the key names an object with the digest. -/
def DurableRow (sha256 : Bytes → Text) (digest : Text) (repository : Nat) (at_ : State Bytes × Db) : Prop :=
  ∃ key, recordedKey at_.2 repository digest = some key ∧ Stored sha256 digest key at_.1

/-- The key the blob row has, if it has one, names an object with the digest. -/
def ReadyRow (sha256 : Bytes → Text) (digest : Text) (repository : Nat) (at_ : State Bytes × Db) : Prop :=
  ∀ key, recordedKey at_.2 repository digest = some key → Stored sha256 digest key at_.1

/-- A key nobody writes another body at: a generation of the blob's key, or a key of before there were
generations, outside the incarnation's own prefix. -/
def Lasting (incarnation logical key : Text) : Prop :=
  isGeneration logical key = true ∨
    Layout.sqlWithin key (Layout.incarnationPrefix incarnation) = false ∧ '~' ∉ key

theorem Lasting.not_inTree {incarnation key : Text} (lasting : Lasting incarnation logical key) :
    inTree incarnation key ≠ true := by
  intro hit
  obtain ⟨within, plain⟩ := inTree_iff.mp hit
  rcases lasting with generation | ⟨apart, _⟩
  · exact plain (isGeneration_tilde generation)
  · rw [within] at apart
    cases apart

theorem Kept.lasts {w after : World Db} {act : Act Bytes} {incarnation key : Text}
    (kept : Kept sha256 digest key w.state) (lasting : Lasting incarnation logical key)
    (stocked : Stocked sha256 logical digest w.state) (taken : World.step w act = some after)
    (faithful : Faithful sha256 logical digest w.state act after.state) :
    Kept sha256 digest key after.state := by
  obtain ⟨fair, state, moved, rfl⟩ := World.step_some taken
  rcases lasting with generation | ⟨_, plain⟩
  · exact kept.step stocked moved faithful generation
  · obtain ⟨named, gone | ⟨body, there, same⟩⟩ := kept
    · exact ⟨seen_step (effect_of moved) named, .inl (gone.step named (effect_of moved))⟩
    · refine ⟨seen_step (effect_of moved) named, ?_⟩
      rcases object_fate stocked.sound (effect_of moved) key with left | ⟨_, rfl, _⟩ | ⟨_, gone⟩
      · exact .inr ⟨body, left.trans there, same⟩
      · exact absurd named (not_rewritten stocked fair plain)
      · exact .inl (gone.step named (effect_of moved))

/-- A completion has made its one commit: its row is durable exactly when it was ready, and a durable
object is kept. -/
structure Recorded (sha256 : Bytes → Text) (logical digest incarnation : Text) (repository : Nat)
    (w : World Db) : Prop where
  stocked : Stocked sha256 logical digest w.state
  commit : ∃ before after, w.commits = [(before, after)] ∧
    (DurableRow sha256 digest repository after ↔ ReadyRow sha256 digest repository before) ∧
    ∀ key, recordedKey after.2 repository digest = some key → Lasting incarnation logical key →
      Stored sha256 digest key after.1 → Kept sha256 digest key w.state

theorem stable_recorded :
    Stable (Theirs sha256 logical digest) (Recorded sha256 logical digest incarnation repository) where
  turns := fun _ _ _ recorded => ⟨recorded.stocked, recorded.commit⟩
  step := by
    intro w act after recorded taken _ faithful
    have same := World.step_some taken
    obtain ⟨_, state, moved, rfl⟩ := same
    obtain ⟨old, new, commits, iff, kept⟩ := recorded.commit
    refine ⟨recorded.stocked.step moved faithful, old, new, commits, iff, ?_⟩
    intro key at_ lasting stored
    exact (kept key at_ lasting stored).lasts lasting recorded.stocked taken faithful

theorem Recorded.deleteBatch {w : World Db} {keys : List Text}
    (inside : ∀ key ∈ keys, inTree incarnation key = true)
    (recorded : Recorded sha256 logical digest incarnation repository w) :
    Recorded sha256 logical digest incarnation repository
      { w with state := { w.state with objects := w.state.objects.deleteBatch keys } } := by
  obtain ⟨old, new, commits, iff, kept⟩ := recorded.commit
  refine ⟨recorded.stocked.deleteBatch keys, old, new, commits, iff, ?_⟩
  intro key at_ lasting stored
  have apart : key ∉ keys := fun hit => lasting.not_inTree (inside key hit)
  obtain ⟨named, gone | ⟨body, there, same⟩⟩ := kept key at_ lasting stored
  · exact ⟨named, .inl gone⟩
  · exact ⟨named, .inr ⟨body, (Objects.get_deleteBatch apart).trans there, same⟩⟩

theorem stored_of_pinned {state : State Bytes} {token : PinToken} {spent : Tables}
    (ok : state.tables.spendPins [token] = .ok spent)
    (kept : Kept sha256 digest token.physicalKey state) :
    Stored sha256 digest token.physicalKey state := by
  obtain ⟨pinned, _⟩ := Tables.spendPins_ok ok
  obtain ⟨pin, mem, _, same⟩ := pinned token List.mem_cons_self
  rcases kept.2 with gone | stored
  · exact absurd same (gone.unpinned pin mem)
  · exact stored

theorem finish_durable_iff {state after : State Bytes} {db left : Db} {id lease key : Text}
    {token : PinToken} {blob : NewBlob} {now : Instant}
    (finished : { db with reclaim := state.tables }.finish id lease token blob now =
      .ok (.recorded key, left)) (same : after.objects = state.objects)
    (kept : Kept sha256 digest token.physicalKey state) (named : blob.digest = digest) :
    DurableRow sha256 digest blob.repository (after, left) ↔
      ReadyRow sha256 digest blob.repository (state, db) := by
  subst named
  obtain ⟨which, stands, spent, ok, _⟩ := finish_records finished
  have stored := stored_of_pinned ok kept
  change key = (recordedKey db blob.repository blob.digest).getD token.physicalKey at which
  have moved : DurableRow sha256 blob.digest blob.repository (after, left) ↔
      Stored sha256 blob.digest key state := by
    simp only [DurableRow, Stored, stands, same, Option.some.injEq, exists_eq_left']
  rw [moved]
  cases had : recordedKey db blob.repository blob.digest with
  | none =>
      rw [had] at which
      subst which
      refine ⟨fun _ other found => ?_, fun _ => stored⟩
      rw [had] at found
      cases found
  | some old =>
      rw [had] at which
      subst which
      simp only [ReadyRow, had, Option.some.injEq, forall_eq']

variable {parts : List (Text × Bytes)} {written doomed : List Text} {held : List PinToken}
  {pairs : List (Entry × PinToken)}

theorem triple_finish {entry : Entry} {token : PinToken} (id lease : Text) (blob : NewBlob)
    (now : Instant) (named : blob.digest = digest) :
    Triple (Placing (blobAccount sha256 logical digest parts) written doomed [] [(entry, token)])
      (finishCall sha256 logical digest id lease token blob now) fun r w => match r with
        | .ok (.recorded _) => Recorded sha256 logical digest incarnation blob.repository w
        | _ => Placing (blobAccount sha256 logical digest parts) written doomed [] [(entry, token)] w := by
  apply Place.Triple.call stable_placing
  intro turn w a after placing _ run
  split at run
  case h_1 =>
    cases run
    exact placing
  case h_2 =>
    split at run
    case h_1 =>
      cases run
      exact placing
    case h_2 =>
      cases run
      exact placing
    case h_3 key db finished =>
      dsimp only at run
      split at run
      case isFalse => cases run
      case isTrue =>
        obtain ⟨v, taken, same⟩ := Option.map_eq_some_iff.mp run
        obtain ⟨rfl, rfl⟩ := Prod.mk.inj same
        obtain ⟨moved, faithful⟩ := faithful_own taken nofun
        have next := placing_step placing moved faithful
        have kept : Kept sha256 digest token.physicalKey w.state :=
          (placing.placed _ List.mem_cons_self).2
        obtain ⟨_, state, stepped, rfl⟩ := World.step_some moved
        have objects : state.objects = w.state.objects := by
          cases effect_of stepped with
          | moved _ _ whose => cases whose
          | superseded => rfl
          | committed => rfl
        refine ⟨next.kept.stocked, (w.state, w.rest), (state, db), ?_, ?_, ?_⟩
        · have none : w.commits = [] := placing.kept.uncommitted
          change _ :: w.commits = _
          rw [none]
        · exact finish_durable_iff finished objects kept named
        · exact fun other _ _ stored => stored.kept next.kept.stocked

theorem triple_finishWith {done : Completion} {entry : Entry} {ttl : Duration}
    {until_ now : Instant} (lease : Text) (size : Nat) (at_ : Instant)
    (single : pairs.map Prod.fst = [entry]) :
    Triple (Placing (blobAccount sha256 logical done.digest parts) written doomed [] pairs)
      (finishWith (uploadPorts sha256 logical done.digest incarnation ttl until_ now) done lease size at_
        (pairs.map Prod.snd))
      (Committed (blobAccount sha256 logical done.digest parts)
        (fun _ => Recorded sha256 logical done.digest incarnation done.repository) written doomed pairs) := by
  obtain ⟨⟨_, token⟩, rfl, rfl⟩ := List.map_eq_singleton_iff.mp single
  unfold finishWith
  apply (triple_finish done.upload lease ⟨done.repository, done.digest, size, done.contentType⟩ at_
    rfl).bind
  intro answer
  rcases answer with e | finished
  · apply Triple.pure
    intro w placing
    cases e with
    | superseded revoked => exact { placing with doomed := fun _ _ => trivial }
    | _ => exact placing
  · cases finished with
    | recorded key => exact .pure fun _ recorded => recorded
    | leaseLost => exact .pure fun _ placing => placing

end Finish

/-! ### Whole completions -/

section Completion

variable {sha256 : Bytes → Text} {done : Completion} {incarnation : Text} {ttl : Duration}
  {until_ now : Instant} {parts : List (Text × Bytes)}

/-- The logical key of the completion's blob. -/
def blobKey (done : Completion) : Text := Layout.ociBlobKey done.repoPrefix (Oci.hex done.digest)

/-- What an answer of the completion says of the world: of an error, nothing. -/
def Answered (sha256 : Bytes → Text) (done : Completion) (incarnation : Text) {α : Type} (r : Except OciWriteError α)
    (w : World Db) : Prop :=
  r.isOk = true → Recorded sha256 (blobKey done) done.digest incarnation done.repository w

theorem triple_place {segments : List Segment} (lease : Text) (at_ : Instant)
    (keys : parts.map Prod.fst = segments.map Segment.key)
    (digested : sha256 (parts.map Prod.snd).flatten = done.digest) :
    Triple (Stands sha256 (blobKey done) done.digest parts)
      (placeShared (uploadPorts sha256 (blobKey done) done.digest incarnation ttl until_ now).toPorts
        done.repoPrefix [blobEntry done segments]
        (finishWith (uploadPorts sha256 (blobKey done) done.digest incarnation ttl until_ now) done lease
          (segments.map Segment.len).sum at_))
      (Settled (blobAccount sha256 (blobKey done) done.digest parts)
        fun _ => Recorded sha256 (blobKey done) done.digest incarnation done.repository) := by
  apply Served.placeShared (served_blob (segments.map Segment.len).sum digested)
  · intro entry mem
    rw [List.mem_singleton.mp mem, keys]
    rfl
  · exact fun _ _ _ single _ => triple_finishWith lease _ at_ single

theorem triple_complete (lease : Text) (at_ : Instant) :
    Triple (Stands sha256 (blobKey done) done.digest [])
      (complete (uploadPorts sha256 (blobKey done) done.digest incarnation ttl until_ now) sha256 done
        lease at_) (Answered sha256 done incarnation) := by
  unfold complete
  have segmentsOf : Triple (Stands sha256 (blobKey done) done.digest [])
      ((uploadPorts sha256 (blobKey done) done.digest incarnation ttl until_ now).segments done.upload)
      fun _ => Stands sha256 (blobKey done) done.digest [] :=
    triple_tables stable_stands fun _ db => (db.segmentsOf done.upload, db)
  apply segmentsOf.bind
  intro answer
  rcases answer with e | segments
  · exact .pure fun _ _ => nofun
  · dsimp only
    split
    · exact .pure fun _ _ => nofun
    · apply (triple_readAll _ []).bind
      intro answer
      rcases answer with e | body
      · cases e
        all_goals exact .pure fun _ _ => nofun
      · dsimp only
        split
        · exact .pure fun _ _ => nofun
        case isFalse matches_ =>
          refine Triple.weaken (Triple.of_exists fun parts => ?_) (fun _ read => read body rfl)
            fun _ _ kept => kept
          apply Triple.assuming fun _ read => And.intro read.1 read.2.1
          rintro ⟨keys, bodies⟩
          have digested : sha256 (parts.map Prod.snd).flatten = done.digest := by
            rw [bodies]
            exact not_not.mp matches_
          refine Triple.bind ((triple_place lease at_ keys digested).weaken (fun _ read => read.2.2)
            fun _ _ kept => kept) ?_
          intro answer
          rcases answer with e | _
          · have failed : ∀ e', Triple (Settled (blobAccount sha256 (blobKey done) done.digest parts)
                (fun _ => Recorded sha256 (blobKey done) done.digest incarnation done.repository)
                (Except.error e : Except PlaceError Unit))
                (pure (.error e') : Prog (World Db) (Except OciWriteError Unit))
                (Answered sha256 done incarnation) := fun _ => .pure fun _ _ => nofun
            split
            all_goals first
              | exact failed _
              | cases ‹_ = _›
          · have deleted : Triple (Recorded sha256 (blobKey done) done.digest incarnation done.repository)
                ((uploadPorts sha256 (blobKey done) done.digest incarnation ttl until_
                  now).deleteBatch (segments.map Segment.key))
                fun _ => Recorded sha256 (blobKey done) done.digest incarnation done.repository :=
              triple_delete stable_recorded _ fun inside _ recorded => recorded.deleteBatch inside
            apply deleted.bind
            exact fun _ => .pure fun _ recorded _ => recorded

theorem triple_completeLeased (at_ : Instant) :
    Triple (Stands sha256 (blobKey done) done.digest [])
      (completeLeased (uploadPorts sha256 (blobKey done) done.digest incarnation ttl until_ now) sha256
        done at_) (Answered sha256 done incarnation) := by
  unfold completeLeased
  have uploads : Triple (Stands sha256 (blobKey done) done.digest [])
      ((uploadPorts sha256 (blobKey done) done.digest incarnation ttl until_ now).upload done.upload)
      fun _ => Stands sha256 (blobKey done) done.digest [] :=
    triple_tables stable_stands fun _ db => (db.upload done.upload, db)
  have leases : Triple (Stands sha256 (blobKey done) done.digest [])
      ((uploadPorts sha256 (blobKey done) done.digest incarnation ttl until_ now).beginComplete
        done.upload at_) fun _ => Stands sha256 (blobKey done) done.digest [] :=
    triple_tables stable_stands fun turn db =>
      db.lease done.upload at_ ttl (turn.draws.headD default).2
  apply uploads.bind
  intro answer
  rcases answer with e | found
  · exact .pure fun _ _ => nofun
  · dsimp only
    split
    · exact .pure fun _ _ => nofun
    · apply leases.bind
      intro answer
      rcases answer with e | begun
      · exact .pure fun _ _ => nofun
      · cases begun with
        | held => exact .pure fun _ _ => nofun
        | unknown => exact .pure fun _ _ => nofun
        | lease lease =>
            apply (triple_complete lease at_).bind
            intro answer
            rcases answer with e | _
            · refine Triple.bind (Q := fun _ _ => True) ⟨fun _ _ _ _ _ => trivial⟩ ?_
              exact fun _ => .pure fun _ _ => nofun
            · exact .pure fun _ recorded => recorded

theorem triple_completeUpload (at_ : Instant) :
    Triple (Stands sha256 (blobKey done) done.digest [])
      (completeUpload (uploadPorts sha256 (blobKey done) done.digest incarnation ttl until_ now) sha256
        done at_) (Answered sha256 done incarnation) := by
  unfold completeUpload
  apply (triple_appendBody done at_).bind
  intro answer
  rcases answer with e | _
  · exact .pure fun _ _ => nofun
  · exact triple_completeLeased at_

/-- A completion that is answered `Ok` has made one commit, and the blob row it ends in names an object
with the digest exactly when the row's key named one before, if it had one. The object is there when
the answer is given too, as long as a row references it. This holds whatever state was reached before,
by whatever steps and restores, whatever the other tables hold, whatever anybody else does meanwhile
and whichever calls fail. -/
theorem completed_blob_is_durable_iff {state : State Bytes} {db : Db} {turns : List (Turn Db)}
    {w : World Db} {at_ : Instant} (reached : Reached sha256 (blobKey done) done.digest state)
    (answered : (completeUpload (uploadPorts sha256 (blobKey done) done.digest incarnation ttl until_ now)
      sha256 done at_).run (World.start state db turns) = some (.ok (), w)) :
    ∃ before after, w.commits = [(before, after)] ∧
      (DurableRow sha256 done.digest done.repository after ↔
        ReadyRow sha256 done.digest done.repository before) ∧
      ∀ key, recordedKey after.2 done.repository done.digest = some key →
        Lasting incarnation (blobKey done) key → Stored sha256 done.digest key after.1 →
        Referenced w.state.rows key → Stored sha256 done.digest key w.state := by
  have start : Stands sha256 (blobKey done) done.digest [] (World.start state db turns) :=
    ⟨reached.stocked, nofun, rfl⟩
  have recorded := (triple_completeUpload at_).outcome _ start _ _ answered rfl
  obtain ⟨before, after, commits, iff, kept⟩ := recorded.commit
  refine ⟨before, after, commits, iff, ?_⟩
  intro key at_ lasting stored referenced
  rcases (kept key at_ lasting stored).2 with gone | still
  · exact absurd referenced gone.unreferenced
  · exact still

end Completion

/-! ### Two completions -/

theorem Reached.played {sha256 : Bytes → Text} {logical digest : Text} {state after : State Bytes}
    {acts : List (Act Bytes)} (reached : Reached sha256 logical digest state)
    (played : exec (checked Reclaim.step (Faithful sha256 logical digest)) state acts = some after) :
    Reached sha256 logical digest after := by
  have run : Run Reclaim.step (Faithful sha256 logical digest) state acts after := by
    simpa using Run.of_exec_from Reclaim.step _ Run.nil played
  exact run.invariant _ reached fun _ _ _ before taken faithful => before.step taken faithful

/-- A turn in which nobody else acts and nothing fails. -/
def quiet : Turn Db := ⟨[], none, none, none, false, [], [], []⟩

/-- Four bytes, sent with the request that completes their upload. -/
def request : Completion :=
  ⟨"u".toList, 1, Layout.incarnationPrefix "i".toList, Oci.fourBytesDigest, "layer".toList,
    Oci.fourBytes⟩

/-- The tree of the upload. -/
def tree : Text := Layout.uploadPrefix (Layout.incarnationPrefix "i".toList) "u".toList

/-- The session is open, with these blob rows. -/
def session (blobs : List BlobRow) : Db :=
  { Db.empty with
    blobs := blobs
    uploads := [⟨"u".toList, 1, "web".toList, some tree, some 0, 0, 0, none, none⟩] }

/-- The completion's calls, one after the other; its finishing transaction leaves these references. -/
def calls (rows : List Ref) : List (Turn Db) :=
  let drawing := { quiet with draws := [("m".toList, "v".toList)] }
  [quiet, drawing, quiet, quiet, quiet, drawing, quiet, quiet, drawing, quiet, quiet,
    { quiet with rows := rows }, quiet]

/-- The blob's generations: of the epoch before the restore, and of the one after it. -/
def firstKey : Text := Layout.physicalKey (blobKey request) "e-n".toList

def freshKey : Text := Layout.physicalKey (blobKey request) "f-m".toList

def completes (state : State Bytes) (db : Db) (rows : List Ref) :
    Option (Except OciWriteError Unit × World Db) :=
  (completeUpload (uploadPorts Oci.sha256Sample (blobKey request) request.digest "i".toList 0 9000000000
    0) Oci.sha256Sample request 0).run (World.start state db (calls rows))

def opening : List (Act Bytes) :=
  [.create .oci "web".toList "i".toList 0, .startUpload "i".toList "u".toList]

/-- The first completion of a blob: its row is durable. -/
theorem first_completion_is_durable :
    ∃ state w before after, Reached Oci.sha256Sample (blobKey request) request.digest state ∧
      completes state (session []) [⟨Layout.physicalKey (blobKey request) "e-m".toList, false⟩] =
        some (.ok (), w) ∧
      w.commits = [(before, after)] ∧ DurableRow Oci.sha256Sample request.digest 1 after := by
  have test : (exec (checked Reclaim.step
      (Faithful Oci.sha256Sample (blobKey request) request.digest))
      (start [] noTables "e".toList []) opening).any (fun state =>
        (completes state (session [])
          [⟨Layout.physicalKey (blobKey request) "e-m".toList, false⟩]).any fun (r, w) =>
            decide (r = .ok ()) &&
              w.commits.all fun x => decide (recordedKey x.1.2 1 request.digest = none)) = true := by
    decide +kernel
  obtain ⟨state, played, test⟩ := (Option.any_eq_true _ _).mp test
  obtain ⟨⟨r, w⟩, answered, test⟩ := (Option.any_eq_true _ _).mp test
  simp only [Bool.and_eq_true, decide_eq_true_eq, List.all_eq_true] at test
  obtain ⟨rfl, bare⟩ := test
  have reached := (Reached.empty "e".toList).played played
  obtain ⟨before, after, commits, iff, _⟩ := completed_blob_is_durable_iff reached answered
  refine ⟨state, w, before, after, reached, answered, commits, iff.mpr ?_⟩
  intro key found
  have missing := bare (before, after) (by rw [commits]; exact List.mem_cons_self)
  cases missing.symm.trans found

/-- A blob is completed and its row committed. -/
def stored : List (Act Bytes) :=
  [.create .oci "web".toList "i".toList 0,
   .pin "i".toList [⟨blobKey request, "n".toList, "t".toList⟩] 9000000000,
   .write firstKey Oci.fourBytes,
   .commit [⟨"t".toList, blobKey request, firstKey⟩] [⟨firstKey, false⟩] [] 0]

/-- Its row is dropped, and its object reclaimed. -/
def reclaimed : List (Act Bytes) :=
  [.commit [] [] [firstKey] 0, .due 0 9000000000 10,
   .claim 1 ⟨firstKey, false⟩ 0 9000000000 18000000000 "c".toList, .delete 1, .release 1, .settle 1]

/-- The database of before the reclamation is put back, under a new epoch; its row names an object that
is gone. A completion of the same blob writes a good copy, queues it for reclamation, and is answered
`Ok`: the row names nothing. -/
theorem restored_row_is_not_durable :
    ∃ state w, Reached Oci.sha256Sample (blobKey request) request.digest state ∧
      completes state (session [⟨1, request.digest, 4, none, some firstKey, 0⟩]) [⟨firstKey, false⟩] =
        some (.ok (), w) ∧
      recordedKey w.rest 1 request.digest = some firstKey ∧ w.state.objects.get firstKey = none ∧
      w.state.objects.get freshKey = some Oci.fourBytes ∧
      (w.state.tables.candidates.map CandidateRow.key).contains freshKey = true ∧
      ¬ DurableRow Oci.sha256Sample request.digest 1 (w.state, w.rest) := by
  have test : (exec (checked Reclaim.step
      (Faithful Oci.sha256Sample (blobKey request) request.digest))
      (start [] noTables "e".toList []) stored).any (fun kept =>
        (exec (checked Reclaim.step
          (Faithful Oci.sha256Sample (blobKey request) request.digest)) kept reclaimed).any fun now =>
        (exec (checked Reclaim.step
          (Faithful Oci.sha256Sample (blobKey request) request.digest))
            (restored kept now "f".toList) [.startUpload "i".toList "u".toList]).any fun state =>
        (completes state (session [⟨1, request.digest, 4, none, some firstKey, 0⟩])
          [⟨firstKey, false⟩]).any fun (r, w) =>
            decide (r = .ok () ∧ recordedKey w.rest 1 request.digest = some firstKey ∧
              w.state.objects.get firstKey = none ∧
              w.state.objects.get freshKey = some Oci.fourBytes ∧
              (w.state.tables.candidates.map CandidateRow.key).contains freshKey = true)) = true := by
    decide +kernel
  obtain ⟨kept, before, test⟩ := (Option.any_eq_true _ _).mp test
  obtain ⟨now, later, test⟩ := (Option.any_eq_true _ _).mp test
  obtain ⟨state, last, test⟩ := (Option.any_eq_true _ _).mp test
  obtain ⟨⟨r, w⟩, answered, test⟩ := (Option.any_eq_true _ _).mp test
  obtain ⟨rfl, row, gone, copied, queued⟩ := of_decide_eq_true test
  have first := (Reached.empty "e".toList).played before
  have reached := (Reached.restored "f".toList first (first.played later)).played last
  refine ⟨state, w, reached, answered, row, gone, copied, queued, ?_⟩
  rintro ⟨key, named, body, there, _⟩
  have same : key = firstKey := Option.some.inj (named.symm.trans row)
  rw [same, gone] at there
  cases there

end OpenCargo.Durable
