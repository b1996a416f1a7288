/-
Module: OpenCargo.Oci.Tiling
Purpose: What a session's segments make. In every run they tile what was received, as many as the
  session counts. A blob holds every chunk that was won, in their order, along the runs in which no
  chunk is taken under the nose of a completion that has read the segments: `finish` checks that the
  lease's token is still there, and a claim after the lease ran out leaves it there.
Trusted boundary: none
Main exports: Tiled, Assembled, Sound, fenced_runs_assemble_every_chunk
-/
import OpenCargo.Lib.Tiling
import OpenCargo.Oci.Session

namespace OpenCargo.Oci

open OpenCargo.Lib
open OpenCargo.Reclaim (PinToken)

variable (id : Text)

/-! ### The condition -/

/-- A chunk that comes where the session stands, while the session's lease token is that of a
completion which has read the segments, finds the lease in force. -/
def Fenced (w : World) (act : Act) (_ : World) : Prop :=
  match act with
  | .claim segment now =>
      (w.db.receiving id).all fun (row, received) =>
        w.completers.all fun c =>
          match c.progress with
          | .assembled _ =>
              row.leaseToken != some c.lease || Db.leased row now || received != segment.start ||
                row.segmentCount ≥ maxSegments
          | _ => true
  | _ => True

/-! ### The property -/

/-- The segments, in the order of their offsets, tile what the session has received. -/
structure Tiled (db : Db) (row : UploadRow) : Prop where
  tiles : ∃ received, row.received = some received ∧
    Tiles Segment.start Segment.len 0 (db.segmentsOf id) received
  counted : (db.segmentsOf id).length = row.segmentCount
  limited : row.segmentCount ≤ maxSegments

/-- What is claimed of a state: the session is tiled, and a blob that was recorded is made of the chunks
that were won, each once and in the order of their offsets. -/
structure Assembled (w : World) : Prop where
  tiled : ∀ row ∈ w.db.uploads, row.id = id → Tiled id w.db row
  whole : ∀ blob, w.recorded = some blob →
    blob = w.won ∧ blob.Pairwise fun s t => s.start + s.len ≤ t.start

/-! ### The invariant -/

/-- A segment's row, as the use cases hold it. -/
def SegmentRow.segment (row : SegmentRow) : Segment := ⟨row.startAt, row.length, row.storageKey⟩

/-- The session is open: the rows are in the order of their offsets as they stand, they are the chunks
that were won, and who holds the lease and has read them has read these. -/
structure Open (w : World) (row : UploadRow) (received : Nat) : Prop where
  alone : (w.db.session id).1 = [row]
  receiving : row.received = some received
  tiles : Tiles SegmentRow.startAt SegmentRow.length 0 (w.db.session id).2 received
  counted : (w.db.session id).2.length = row.segmentCount
  limited : row.segmentCount ≤ maxSegments
  won : w.won = (w.db.session id).2.map SegmentRow.segment
  fenced : ∀ c ∈ w.completers, ∀ segments, c.progress = .assembled segments →
    row.leaseToken = some c.lease → segments = w.won
  unrecorded : w.recorded = none

/-- The session is over, finished or reaped. -/
structure Closed (w : World) : Prop where
  ended : w.db.session id = ([], [])
  recorded : ∀ blob, w.recorded = some blob →
    blob = w.won ∧ blob.Pairwise fun s t => s.start + s.len ≤ t.start

structure Sound (w : World) : Prop where
  pending : ∀ segment ∈ w.pending, 0 < segment.len
  session : (∃ row received, Open id w row received) ∨ Closed id w

variable {id}

theorem segmentsOf_eq {db : Db} {received : Nat}
    (tiles : Tiles SegmentRow.startAt SegmentRow.length 0 (db.session id).2 received) :
    db.segmentsOf id = (db.session id).2.map SegmentRow.segment := by
  have sorted : (db.session id).2.Pairwise fun a b => a.startAt ≤ b.startAt := by
    apply tiles.ordered.imp
    intro a b apart
    exact Nat.le_of_add_right_le apart
  change ((db.session id).2.insertionSort fun a b => a.startAt ≤ b.startAt).map _ = _
  rw [sorted.insertionSort_eq]
  rfl

theorem tiles_segments {rows : List SegmentRow} {a b : Nat}
    (tiles : Tiles SegmentRow.startAt SegmentRow.length a rows b) :
    Tiles Segment.start Segment.len a (rows.map SegmentRow.segment) b :=
  tiles.map (fun _ => rfl) fun _ => rfl

theorem Open.ordered {w : World} {row : UploadRow} {received : Nat} (state : Open id w row received) :
    w.won.Pairwise fun s t => s.start + s.len ≤ t.start := by
  rw [state.won]
  exact (tiles_segments state.tiles).ordered

theorem Sound.assembled {w : World} (sound : Sound id w) : Assembled id w := by
  rcases sound.session with ⟨row, received, state⟩ | state
  · constructor
    · intro other mem mine
      have same : other = row := by
        have inside := Db.mem_session.mpr ⟨mem, mine⟩
        rw [state.alone] at inside
        exact List.mem_singleton.mp inside
      subst same
      constructor
      · rw [segmentsOf_eq state.tiles]
        exact ⟨received, state.receiving, tiles_segments state.tiles⟩
      · rw [segmentsOf_eq state.tiles, List.length_map]
        exact state.counted
      · exact state.limited
    · intro blob recorded
      rw [state.unrecorded] at recorded
      cases recorded
  · constructor
    · intro row mem mine
      have inside := Db.mem_session.mpr ⟨mem, mine⟩
      rw [state.ended] at inside
      cases inside
    · exact state.recorded

theorem Open.row {w : World} {row : UploadRow} {received : Nat} (state : Open id w row received) :
    w.db.receiving id = some (row, received) := by
  simp [Db.receiving, Db.uploadRow_eq, state.alone, state.receiving]

theorem Closed.row {w : World} (state : Closed id w) : w.db.receiving id = none := by
  simp [Db.receiving, Db.uploadRow_eq, state.ended]

/-! ### The steps -/

/-- A step that leaves the history and the segments as they are, and changes at most the lease of the
session's row. A completion that has read the segments has read them now, or before; and if it holds
the lease now, it held it before. -/
theorem Sound.calm {w after : World} (change : UploadRow → UploadRow) (sound : Sound id w)
    (rows : after.db.session id = ((w.db.session id).1.map change, (w.db.session id).2))
    (kept : ∀ row, (change row).received = row.received ∧ (change row).segmentCount = row.segmentCount)
    (pending : ∀ segment ∈ after.pending, segment ∈ w.pending ∨ 0 < segment.len)
    (won : after.won = w.won) (recorded : after.recorded = w.recorded)
    (completers : ∀ c ∈ after.completers, ∀ segments, c.progress = .assembled segments →
      segments = w.db.segmentsOf id ∨
        c ∈ w.completers ∧ ∀ row, (change row).leaseToken = some c.lease →
          row.leaseToken = some c.lease) : Sound id after where
  pending := by
    intro segment mem
    rcases pending segment mem with old | new
    · exact sound.pending segment old
    · exact new
  session := by
    rcases sound.session with ⟨row, received, state⟩ | state
    · left
      refine ⟨change row, received, ?_⟩
      constructor
      · rw [rows, state.alone]
        rfl
      · rw [(kept row).1]
        exact state.receiving
      · rw [rows]
        exact state.tiles
      · rw [rows, (kept row).2]
        exact state.counted
      · rw [(kept row).2]
        exact state.limited
      · rw [rows, won]
        exact state.won
      · intro c mem segments has holds
        rw [won]
        rcases completers c mem segments has with read | ⟨old, held⟩
        · rw [read, segmentsOf_eq state.tiles, state.won]
        · exact state.fenced c old segments has (held row holds)
      · rw [recorded]
        exact state.unrecorded
    · right
      constructor
      · rw [rows, state.ended]
        rfl
      · rw [recorded, won]
        exact state.recorded

theorem Sound.still {w after : World} (sound : Sound id w)
    (rows : after.db.session id = w.db.session id)
    (pending : ∀ segment ∈ after.pending, segment ∈ w.pending ∨ 0 < segment.len)
    (won : after.won = w.won) (recorded : after.recorded = w.recorded)
    (completers : ∀ c ∈ after.completers, ∀ segments, c.progress = .assembled segments →
      segments = w.db.segmentsOf id ∨ c ∈ w.completers) : Sound id after := by
  apply sound.calm (fun row => row)
  · rw [rows, List.map_id']
  · exact fun _ => ⟨rfl, rfl⟩
  · exact pending
  · exact won
  · exact recorded
  · intro c mem segments has
    exact (completers c mem segments has).imp_right fun old => ⟨old, fun _ holds => holds⟩

theorem World.mem_setProgress {w : World} {token : Text} {progress : Progress} {c : Completer}
    (mem : c ∈ (w.setProgress token progress).completers) :
    c ∈ w.completers ∨ c.progress = progress := by
  obtain ⟨old, inside, same⟩ := List.mem_map.mp mem
  split at same
  · right
    rw [← same]
  · left
    rw [← same]
    exact inside

theorem World.mem_dismiss {w : World} {token : Text} {c : Completer}
    (mem : c ∈ (w.dismiss token).completers) : c ∈ w.completers ∧ c.lease ≠ token := by
  simpa [World.dismiss] using mem

theorem chunk_len {db : Db} {repository : Nat} {start : Option Nat} {length : Nat} {nonce : Text}
    {segment : Segment} (made : chunk db id repository start length nonce = some segment) :
    0 < segment.len := by
  unfold chunk at made
  split at made
  · cases made
  · split at made
    · cases made
    · split at made
      case isTrue => cases made
      case isFalse some_ =>
        cases made
        exact Nat.pos_of_ne_zero some_

theorem Sound.append {w after : World} {repository : Nat} {start : Option Nat} {length : Nat}
    {nonce : Text} (sound : Sound id w)
    (taken : sessionStep id w (.append repository start length nonce) = some after) :
    Sound id after := by
  simp only [sessionStep] at taken
  split at taken
  case h_1 segment made =>
    cases taken
    apply sound.still
    · rfl
    · intro other mem
      rcases List.mem_cons.mp mem with same | old
      · rw [same]
        exact .inr (chunk_len made)
      · exact .inl old
    · rfl
    · rfl
    · exact fun c mem _ _ => .inr mem
  case h_2 =>
    cases taken
    exact sound

/-- A chunk that is won goes where the session stands, and nobody who holds the lease has read the
segments. -/
theorem Sound.claim {w after : World} {segment : Segment} {now : Instant} (sound : Sound id w)
    (taken : claimStep id w segment now = some after)
    (fenced : Fenced id w (.claim segment now) after) : Sound id after := by
  unfold claimStep at taken
  split at taken
  case isFalse => cases taken
  case isTrue written =>
    have left : ∀ other ∈ w.pending.erase segment, other ∈ w.pending ∨ 0 < other.len :=
      fun other mem => .inl (List.mem_of_mem_erase mem)
    have unchanged : Sound id { w with pending := w.pending.erase segment } := by
      apply sound.still
      · rfl
      · exact left
      · rfl
      · rfl
      · exact fun c mem _ _ => .inr mem
    split at taken
    case h_1 db won =>
      cases taken
      obtain ⟨row, found, free, room, rows⟩ := Db.claimOneSegment_won won
      rcases sound.session with ⟨row', received, state⟩ | state
      · obtain ⟨rfl, rfl⟩ : row' = row ∧ received = segment.start := by
          simpa [state.row] using found
        have nonempty : 0 < segment.len :=
          sound.pending segment (List.contains_iff_mem.mp written)
        refine ⟨unchanged.pending, .inl ⟨Db.grow segment now row', segment.start + segment.len, ?_⟩⟩
        constructor
        · rw [rows, state.alone]
          rfl
        · simp [Db.grow, state.receiving]
        · rw [rows]
          exact state.tiles.snoc rfl nonempty
        · rw [rows]
          simp [Db.grow, state.counted]
        · exact room
        · rw [rows, state.won]
          simp [SegmentRow.segment]
        · intro c mem segments has holds
          simp only [Fenced, state.row, Option.all_some, List.all_eq_true] at fenced
          have late := fenced c mem
          have same : row'.leaseToken = some c.lease := holds
          simp [has, same, free, not_le.mpr room] at late
        · exact state.unrecorded
      · rw [state.row] at found
        cases found
    case h_2 answer db lost claimed =>
      cases taken
      have same := Db.claimOneSegment_lost claimed lost
      rw [same]
      exact unchanged

theorem Sound.lease {w after : World} {now : Instant} {ttl : Duration} {token : Text}
    (sound : Sound id w) (taken : leaseStep id w now ttl token = some after) : Sound id after := by
  unfold leaseStep at taken
  split at taken
  case isFalse => cases taken
  case isTrue fresh =>
    have new : ∀ c ∈ w.completers, c.lease ≠ token := by
      simpa [World.completer, List.find?_eq_none] using fresh
    split at taken
    case h_1 given db leased =>
      cases taken
      rcases Db.lease_given leased with ⟨same, rows⟩ | ⟨none, _⟩
      · cases same
        apply sound.calm (Db.hold token now ttl)
        · exact rows
        · exact fun _ => ⟨rfl, rfl⟩
        · exact fun _ mem => .inl mem
        · rfl
        · rfl
        · intro c mem segments has
          rcases List.mem_cons.mp mem with own | old
          · rw [own] at has
            cases has
          · refine .inr ⟨old, ?_⟩
            intro row holds
            exact absurd (Option.some.inj holds).symm (new c old)
      · exact absurd rfl (none given)
    case h_2 answer db refused leased =>
      cases taken
      rcases Db.lease_given leased with ⟨same, _⟩ | ⟨_, same⟩
      · exact absurd same (refused token)
      · rw [same]
        exact sound

theorem Sound.read {w after : World} {token : Text} (sound : Sound id w)
    (taken : readStep id w token = some after) : Sound id after := by
  unfold readStep at taken
  split at taken
  case h_2 => cases taken
  case h_1 =>
    simp only at taken
    split at taken
    case isTrue =>
      cases taken
      apply sound.still
      · rfl
      · exact fun _ mem => .inl mem
      · rfl
      · rfl
      · intro c mem segments has
        rcases World.mem_setProgress mem with old | failed
        · exact .inr old
        · rw [failed] at has
          cases has
    case isFalse =>
      cases taken
      apply sound.still
      · rfl
      · exact fun _ mem => .inl mem
      · rfl
      · rfl
      · intro c mem segments has
        rcases World.mem_setProgress mem with old | read
        · exact .inr old
        · rw [read] at has
          cases has
          exact .inl rfl

theorem Sound.release {w : World} {token : Text} (sound : Sound id w) :
    Sound id ({ w with db := w.db.releaseComplete id token }.dismiss token) := by
  apply sound.calm fun row =>
    if row.leaseToken == some token then { row with leaseToken := none, leaseUntil := none } else row
  · apply Db.session_setUpload
    intro row
    split <;> rfl
  · intro row
    split <;> exact ⟨rfl, rfl⟩
  · exact fun _ mem => .inl mem
  · rfl
  · rfl
  · intro c mem segments _
    refine .inr ⟨(World.mem_dismiss mem).1, ?_⟩
    intro row holds
    split at holds
    · cases holds
    · exact holds

theorem Sound.reap {w : World} {idle : Duration} {now : Instant} {limit : Nat} (sound : Sound id w) :
    Sound id { w with db := w.db.reap idle now limit } := by
  rcases w.db.session_reap id idle now limit with same | empty
  · apply sound.still
    · exact same
    · exact fun _ mem => .inl mem
    · rfl
    · rfl
    · exact fun c mem _ _ => .inr mem
  · refine ⟨sound.pending, .inr ⟨empty, ?_⟩⟩
    intro blob recorded
    rcases sound.session with ⟨row, received, state⟩ | state
    · rw [state.unrecorded] at recorded
      cases recorded
    · exact state.recorded blob recorded

/-- Whoever is answered `Recorded` holds the lease, so what it has read is all there is. -/
theorem Sound.finish {w after : World} {token : Text} {pin : PinToken} {repository : Nat}
    {digest contentType : Text} {now : Instant} (sound : Sound id w)
    (taken : finishStep id w token pin repository digest contentType now = some after) :
    Sound id after := by
  unfold finishStep at taken
  split at taken
  case h_2 => cases taken
  case h_1 lease segments found =>
    simp only at taken
    obtain ⟨mem, same⟩ := World.completer_mem found
    cases same
    split at taken
    case h_1 key db recorded =>
      cases taken
      obtain ⟨⟨row, inside, holds⟩, ended⟩ := Db.finish_recorded recorded
      refine ⟨sound.pending, .inr ⟨ended, ?_⟩⟩
      rcases sound.session with ⟨row', received, state⟩ | state
      · rw [state.alone] at inside
        cases List.mem_singleton.mp inside
        have whole := state.fenced _ mem segments rfl holds
        intro blob made
        cases made
        refine ⟨whole, ?_⟩
        rw [whole]
        exact state.ordered
      · rw [state.ended] at inside
        cases inside
    case h_2 db lost =>
      cases taken
      have same := Db.finish_lost lost
      apply sound.still
      · rw [same]
        rfl
      · exact fun _ mem => .inl mem
      · rfl
      · rfl
      · intro c inside segments has
        rcases World.mem_setProgress inside with old | failed
        · exact .inr old
        · rw [failed] at has
          cases has
    case h_3 =>
      cases taken
      exact sound

theorem Sound.elsewhere {w : World} {db : Db} (sound : Sound id w)
    (rows : db.session id = w.db.session id) : Sound id { w with db := db } := by
  apply sound.still
  · exact rows
  · exact fun _ mem => .inl mem
  · rfl
  · rfl
  · exact fun c mem _ _ => .inr mem

theorem Sound.step {w after : World} {act : Act} (sound : Sound id w)
    (taken : sessionStep id w act = some after) (fenced : Fenced id w act after) :
    Sound id after := by
  cases act with
  | append repository start length nonce => exact sound.append taken
  | claim segment now => exact sound.claim taken fenced
  | lease now ttl token => exact sound.lease taken
  | read token => exact sound.read taken
  | finish token pin repository digest contentType now => exact sound.finish taken
  | release token =>
      simp only [sessionStep] at taken
      split at taken
      · cases taken
        exact sound.release
      · cases taken
  | reap idle now limit =>
      cases taken
      exact sound.reap
  | elsewhere db =>
      simp only [sessionStep] at taken
      split at taken
      case isTrue rows =>
        cases taken
        exact sound.elsewhere rows
      case isFalse => cases taken

theorem sound_opened {db : Db} {repository : Nat} {name root : Text} {now : Instant}
    (fresh : db.session id = ([], [])) : Sound id (opened db id repository name root now) where
  pending := by simp [opened]
  session := by
    have uploads : db.uploads.filter (fun row => row.id == id) = [] := congrArg Prod.fst fresh
    have segments : db.segments.filter (fun row => row.uploadId == id) = [] := congrArg Prod.snd fresh
    left
    refine ⟨⟨id, repository, name, some root, some 0, 0, bindTs now, none, none⟩, 0, ?_⟩
    constructor
    · simp [opened, Db.session, uploads]
    · rfl
    · simp only [opened, Db.session, segments]
      exact .nil
    · simp [opened, Db.session, segments]
    · exact Nat.zero_le _
    · simp [opened, Db.session, segments]
    · simp [opened]
    · rfl

/-- In every state of every fenced run the session's segments tile what it has received, as many as it
counts and no more than the limit, and a blob that was recorded holds every chunk that was won, each
once, in the order of their offsets. -/
theorem fenced_runs_assemble_every_chunk {db : Db} {repository : Nat} {name root : Text} {now : Instant}
    {acts : List Act} {w : World} (fresh : db.session id = ([], []))
    (run : Run (sessionStep id) (Fenced id) (opened db id repository name root now) acts w) :
    Assembled id w := by
  have sound : Sound id w := by
    apply run.invariant (Sound id) (sound_opened fresh)
    intro before act after sound taken fenced
    exact sound.step taken fenced
  exact sound.assembled

/-! ### Two interleavings -/

instance (w : World) (act : Act) (after : World) : Decidable (Fenced id w act after) := by
  unfold Fenced
  apply @Act.casesOn _ act <;> intros <;> infer_instance

/-- The session `s`, opened in a database where nothing has happened yet. -/
def session : World := opened Db.empty "s".toList 1 "app".toList "u".toList 0

def first : Segment := ⟨0, 3, Layout.segmentKey "u".toList 0 "n".toList⟩

def second : Segment := ⟨3, 2, Layout.segmentKey "u".toList 3 "o".toList⟩

def blobPin : PinToken := ⟨"t".toList, "l".toList, "l~e-n".toList⟩

/-- Another transaction pins the blob's key; the rows of the session are given. -/
def pinBlob (uploads : List UploadRow) (segments : List SegmentRow) : Act :=
  .elsewhere { Db.empty with
    uploads := uploads, segments := segments
    reclaim := ⟨[⟨blobPin.token, blobPin.physicalKey, [], 9⟩], [], [], [], [], []⟩ }

/-- The session's row with the lease of a completion, for ten seconds. -/
def completing (received count : Nat) (touched : Int) : UploadRow :=
  ⟨"s".toList, 1, "app".toList, some "u".toList, some received, count, touched, some "c".toList, some 10⟩

/-- Two chunks, then the completion; a third chunk that comes while the lease is in force is lost. -/
def inTime : List Act :=
  [.append 1 none 3 "n".toList, .claim first 0, .append 1 none 2 "o".toList, .claim second 0,
   .lease 0 10000000000 "c".toList, .append 1 none 9 "p".toList, .read "c".toList,
   .claim ⟨5, 9, Layout.segmentKey "u".toList 5 "p".toList⟩ 0,
   pinBlob [completing 5 2 0]
     [⟨"s".toList, 0, 3, first.key⟩, ⟨"s".toList, 3, 2, second.key⟩],
   .finish "c".toList blobPin 1 "d".toList "tar".toList 0]

theorem completion_in_time_assembles_chunks :
    ∃ w, Run (sessionStep "s".toList) (Fenced "s".toList) session inTime w ∧
      w.recorded = some [first, second] ∧ Assembled "s".toList w := by
  obtain ⟨w, run, test⟩ := Run.of_test (sessionStep "s".toList) (Fenced "s".toList) session inTime
    (fun w => w.recorded == some [first, second]) (by decide +kernel)
  exact ⟨w, run, by simpa using test, fenced_runs_assemble_every_chunk rfl run⟩

/-- The completion reads one chunk, its lease runs out, a second chunk is won, and the completion
finishes with the token the session still holds. -/
def tooLate : List Act :=
  [.append 1 none 3 "n".toList, .claim first 0, .lease 0 10000000000 "c".toList, .read "c".toList,
   .append 1 none 2 "o".toList, .claim second 11000000000,
   pinBlob [completing 5 2 11]
     [⟨"s".toList, 0, 3, first.key⟩, ⟨"s".toList, 3, 2, second.key⟩],
   .finish "c".toList blobPin 1 "d".toList "tar".toList 12000000000]

theorem expired_lease_drops_won_chunk :
    ∃ w, Run (sessionStep "s".toList) Any session tooLate w ∧ second ∈ w.won ∧
      w.recorded = some [first] ∧ ¬ Assembled "s".toList w := by
  obtain ⟨w, run, test⟩ := Run.of_test (sessionStep "s".toList) Any session tooLate
    (fun w => w.won == [first, second] && w.recorded == some [first]) (by decide +kernel)
  simp only [Bool.and_eq_true, beq_iff_eq] at test
  obtain ⟨won, recorded⟩ := test
  refine ⟨w, run, by rw [won]; simp, recorded, fun assembled => ?_⟩
  have whole := (assembled.whole [first] recorded).1
  rw [won] at whole
  exact absurd whole (by decide)

end OpenCargo.Oci
