/-
Module: OpenCargo.Backup.Complete
Purpose: One `Backup::run` with storage (`backup/mod.rs`) beside a running server: the database is copied, then the
  store is listed and its objects are copied in turn, while writers write and reclaimers delete. Where no object of a
  copied row is deleted or replaced before it is copied, the snapshot holds them all.
Trusted boundary: a listing gives each key at most once, and every key it shows that was there all along; which keys
  a backend shows is a parameter (the filesystem leaves out the names of legacy parts)
Main exports: Sound, Kept, snapshot_restores_as_it_is, undisturbed_snapshot_is_complete
-/
import OpenCargo.Backup.Snapshot
import OpenCargo.Fs.Tree
import OpenCargo.Reclaim.Fate

namespace OpenCargo.Backup

open OpenCargo.Lib
open OpenCargo.Reclaim (Ref Referenced)

/-- A server whose store holds objects under keys that may be named. -/
structure Server (budget : Nat) where
  state : Reclaim.State Body
  valid : ∀ key ∈ state.objects.keys, Keys.validate key budget = .ok ()

inductive Stage where
  | idle
  | copied
  | listing
  /-- The listing gave this key. -/
  | reading (key : Text)
  | listed
  | done
  | failed
deriving Repr, DecidableEq, Inhabited

/-- The server, and the run: the rows of the copied database, what the listing gave, and the snapshot. `removed`: the
snapshot was pruned at once. `before` is history: the store when the database was copied; and so is `present`: the
keys that have been in the store since the listing began. -/
structure World where
  server : Reclaim.State Body
  stage : Stage
  rows : List Ref
  given : List Text
  snapshot : Snapshot
  removed : Bool
  before : Objects Body
  present : List Text

def start {budget : Nat} (server : Server budget) : World where
  server := server.state
  stage := .idle
  rows := []
  given := []
  snapshot := .empty
  removed := false
  before := []
  present := []

inductive Act where
  | server (act : Reclaim.Act Body)
  /-- A writer deletes what it staged: the segments of an upload, a draft. -/
  | unstage (keys : List Text)
  | copyDatabase
  | list
  /-- The listing gives a key, -/
  | give (key : Text)
  /-- whose object is copied. -/
  | copy
  | listEnds
  /-- The manifest is written, and all but the newest snapshots are removed; `names` are the others. -/
  | finish (dir : Text) (names : List Text) (keep : Nat)
  | fail

section Run

variable (sha256 : Bytes → Vector UInt8 32) (budget : Nat) (shows : Text → Bool)

/-- A writer's key is one that may be named. -/
def nameable : Reclaim.Act Body → Bool
  | .write key _ => decide (Keys.validate key budget = .ok ())
  | _ => true

def World.moved (w : World) (server : Reclaim.State Body) : World :=
  { w with server := server, present := w.present.filter server.objects.keys.contains }

def copyStep (w : World) (key : Text) : World :=
  match w.server.objects.get key with
  | none => { w with stage := .failed }
  | some body =>
      match w.snapshot.copy sha256 key body.1 with
      | none => { w with stage := .failed }
      | some snapshot => { w with stage := .listing, snapshot := snapshot }

def step (w : World) : Act → Option World
  | .server act => if nameable budget act then (Reclaim.step w.server act).map w.moved else none
  | .unstage keys => some (w.moved { w.server with objects := w.server.objects.deleteBatch keys })
  | .copyDatabase =>
      if w.stage = .idle then
        some { w with stage := .copied, rows := w.server.rows, before := w.server.objects }
      else none
  | .list => if w.stage = .copied then some { w with stage := .listing, present := w.server.objects.keys } else none
  | .give key =>
      if w.stage = .listing ∧ shows key ∧ key ∉ w.given then
        some { w with stage := .reading key, given := key :: w.given }
      else none
  | .copy =>
      match w.stage with
      | .reading key => some (copyStep sha256 w key)
      | _ => none
  | .listEnds =>
      if w.stage = .listing ∧ ∀ key ∈ w.present, shows key → key ∈ w.given then some { w with stage := .listed } else none
  | .finish dir names keep =>
      if w.stage = .listed ∧ (dir :: names).Nodup then
        some { w with stage := .done, removed := !(prune (dir :: names) (max keep 1)).contains dir }
      else none
  | .fail => if w.stage = .done then none else some { w with stage := .failed }

/-- Between the copy of the database and the last object's. -/
def Stage.copying : Stage → Bool
  | .copied => true
  | .listing => true
  | .reading _ => true
  | _ => false

/-- No object that a copied row references, and that was there, is deleted or replaced before it is copied; the backend
shows their keys; and no more snapshots are newer than are kept. -/
def Undisturbed (w : World) (act : Act) (after : World) : Prop :=
  match act with
  | .server _ => w.stage.copying = true → ∀ key ∈ w.before.keys, Referenced w.rows key →
      key ∉ w.snapshot.files.keys → after.server.objects.get key = w.server.objects.get key
  | .unstage _ => w.stage.copying = true → ∀ key ∈ w.before.keys, Referenced w.rows key →
      key ∉ w.snapshot.files.keys → after.server.objects.get key = w.server.objects.get key
  | .list => ∀ key ∈ w.before.keys, Referenced w.rows key → shows key
  | .finish dir names keep => names.countP (fun name => dir < name) < max keep 1
  | _ => True

end Run

/-! ### What holds of every run -/

/-- The store's keys may be named; the snapshot was made object by object, of keys that were given. -/
structure Sound (sha256 : Bytes → Vector UInt8 32) (budget : Nat) (w : World) : Prop where
  valid : ∀ key ∈ w.server.objects.keys, Keys.validate key budget = .ok ()
  made : w.snapshot.Made sha256 budget
  given : ∀ key ∈ w.snapshot.files.keys, key ∈ w.given
  reading : ∀ key, w.stage = .reading key → key ∈ w.given ∧ key ∉ w.snapshot.files.keys
  early : w.stage = .idle ∨ w.stage = .copied → w.given = []

section Kept

variable {sha256 : Bytes → Vector UInt8 32} {budget : Nat} {shows : Text → Bool} {w after : World} {act : Act}

theorem keys_of_server {act : Reclaim.Act Body} {state after : Reclaim.State Body}
    (taken : Reclaim.step state act = some after) (named : nameable budget act = true) {key : Text}
    (mem : key ∈ after.objects.keys) : key ∈ state.objects.keys ∨ Keys.validate key budget = .ok () := by
  cases Reclaim.effect_of taken with
  | wrote at_ body =>
      rcases Objects.mem_keys_put.mp mem with rfl | earlier
      · exact .inr (by simpa [nameable] using named)
      · exact .inl earlier
  | moved id h _ _ moves =>
      cases moves with
      | deleted => exact .inl (Objects.mem_keys_delete.mp mem).1
      | swept => exact .inl (Objects.mem_keys_deleteBatch.mp mem).1
      | _ => exact .inl mem
  | _ => exact .inl mem

theorem start_sound {server : Server budget} : Sound sha256 budget (start server) where
  valid := server.valid
  made := Snapshot.made_empty
  given _ mem := absurd mem List.not_mem_nil
  reading _ stage := nomatch stage
  early _ := rfl

theorem copy_sound {key : Text} (sound : Sound sha256 budget w) (reading : w.stage = .reading key) :
    Sound sha256 budget (copyStep sha256 w key) := by
  rw [copyStep]
  split
  · exact { sound with reading := fun _ stage => (nomatch stage), early := fun stage => by simp at stage }
  · rename_i body held
    split
    · exact { sound with reading := fun _ stage => (nomatch stage), early := fun stage => by simp at stage }
    · rename_i snapshot copied
      have valid := sound.valid key (Objects.mem_keys_iff.mpr ⟨body, held⟩)
      obtain ⟨given, fresh⟩ := sound.reading key reading
      obtain ⟨made, files⟩ := sound.made.copy fresh valid body.2 copied
      refine ⟨sound.valid, made, ?_, fun _ stage => (nomatch stage), fun stage => by simp at stage⟩
      intro other mem
      rw [files] at mem
      rcases List.mem_cons.mp mem with rfl | earlier
      · exact given
      · exact sound.given other earlier

theorem step_sound (sound : Sound sha256 budget w) (taken : step sha256 budget shows w act = some after) :
    Sound sha256 budget after := by
  cases act with
  | server act =>
      rw [step] at taken
      split at taken
      case isFalse => cases taken
      case isTrue named =>
        obtain ⟨server, moved, rfl⟩ := Option.map_eq_some_iff.mp taken
        refine { sound with valid := fun key mem => ?_ }
        exact (keys_of_server moved named mem).elim (sound.valid key) id
  | unstage keys =>
      cases taken
      exact { sound with valid := fun key mem => sound.valid key (Objects.mem_keys_deleteBatch.mp mem).1 }
  | copyDatabase =>
      rw [step] at taken
      split at taken
      case isFalse => cases taken
      case isTrue idle =>
        cases taken
        exact { sound with reading := fun _ stage => (nomatch stage), early := fun _ => sound.early (.inl idle) }
  | list =>
      rw [step] at taken
      split at taken
      case isFalse => cases taken
      case isTrue =>
        cases taken
        exact { sound with reading := fun _ stage => (nomatch stage), early := fun stage => by simp at stage }
  | give key =>
      rw [step] at taken
      split at taken
      case isFalse => cases taken
      case isTrue new =>
        obtain ⟨-, -, fresh⟩ := new
        cases taken
        refine ⟨sound.valid, sound.made, fun other mem => List.mem_cons_of_mem _ (sound.given other mem), ?_,
          fun stage => by simp at stage⟩
        rintro _ ⟨⟩
        exact ⟨List.mem_cons_self, fun mem => fresh (sound.given key mem)⟩
  | copy =>
      rw [step] at taken
      split at taken
      case h_1 key reading =>
        cases taken
        exact copy_sound sound reading
      case h_2 => cases taken
  | listEnds =>
      rw [step] at taken
      split at taken
      case isFalse => cases taken
      case isTrue =>
        cases taken
        exact { sound with reading := fun _ stage => (nomatch stage), early := fun stage => by simp at stage }
  | finish dir names keep =>
      rw [step] at taken
      split at taken
      case isFalse => cases taken
      case isTrue =>
        cases taken
        exact { sound with reading := fun _ stage => (nomatch stage), early := fun stage => by simp at stage }
  | fail =>
      rw [step] at taken
      split at taken
      case isTrue => cases taken
      case isFalse =>
        cases taken
        exact { sound with reading := fun _ stage => (nomatch stage), early := fun stage => by simp at stage }

/-- Whatever the server does meanwhile, a snapshot restores into an empty store as it is. -/
theorem snapshot_restores_as_it_is {server : Server budget} {acts : List Act} {R : World → Act → World → Prop}
    (run : Run (step sha256 budget shows) R (start server) acts w) :
    restoreStorage sha256 budget w.snapshot [] = some (w.snapshot.files.length, w.snapshot.files) := by
  have sound : Sound sha256 budget w :=
    run.invariant (Sound sha256 budget) start_sound fun _ _ _ sound taken _ => step_sound sound taken
  exact restoreStorage_empty sound.made

/-! ### What holds of the undisturbed ones -/

/-- The object still is as it was, and the run will come to it. -/
def Pending (shows : Text → Bool) (w : World) (key : Text) (body : Body) : Prop :=
  match w.stage with
  | .idle => False
  | .copied => w.server.objects.get key = some body
  | .listing => w.server.objects.get key = some body ∧ key ∈ w.present ∧ shows key = true ∧ key ∉ w.given
  | .reading other =>
      w.server.objects.get key = some body ∧ key ∈ w.present ∧ shows key = true ∧ (key = other ∨ key ∉ w.given)
  | .listed => False
  | .done => False
  | .failed => True

/-- What a copied row references, and was there, is copied as it was, or will be. -/
structure Kept (shows : Text → Bool) (w : World) : Prop where
  whole : ∀ key body, Referenced w.rows key → w.before.get key = some body →
    w.snapshot.files.get key = some body.1 ∨ key ∉ w.snapshot.files.keys ∧ Pending shows w key body
  idle : w.stage = .idle → w.rows = []
  stays : w.stage = .done → w.removed = false

theorem start_kept {server : Server budget} : Kept shows (start server) where
  whole _ _ referenced := by
    obtain ⟨row, mem, -⟩ := referenced
    cases mem
  idle _ := rfl
  stays stage := nomatch stage

theorem moved_kept {server : Reclaim.State Body} (kept : Kept shows w)
    (undisturbed : w.stage.copying = true → ∀ key ∈ w.before.keys, Referenced w.rows key →
      key ∉ w.snapshot.files.keys → server.objects.get key = w.server.objects.get key) :
    Kept shows (w.moved server) := by
  refine ⟨fun key body referenced there => ?_, kept.idle, kept.stays⟩
  refine (kept.whole key body referenced there).imp_right fun ⟨fresh, pending⟩ => ⟨fresh, ?_⟩
  have same := fun copying =>
    undisturbed copying key (Objects.mem_keys_iff.mpr ⟨body, there⟩) referenced fresh
  have still : server.objects.get key = some body → key ∈ w.present →
      key ∈ (w.moved server).present := fun held mem =>
    List.mem_filter.mpr ⟨mem, by simpa using Objects.mem_keys_iff.mpr ⟨body, held⟩⟩
  rw [Pending] at pending ⊢
  have stage : (w.moved server).stage = w.stage := rfl
  rw [stage]
  cases at_ : w.stage <;> rw [at_] at pending same
  case copied => exact (same rfl).trans pending
  case listing =>
    obtain ⟨held, present, rest⟩ := pending
    have held := (same rfl).trans held
    exact ⟨held, still held present, rest⟩
  case reading =>
    obtain ⟨held, present, rest⟩ := pending
    have held := (same rfl).trans held
    exact ⟨held, still held present, rest⟩
  all_goals exact pending

theorem copy_kept {other : Text} (sound : Sound sha256 budget w) (kept : Kept shows w)
    (reading : w.stage = .reading other) : Kept shows (copyStep sha256 w other) := by
  have failing : Kept shows { w with stage := .failed } :=
    ⟨fun key body referenced there => (kept.whole key body referenced there).imp_right fun both => ⟨both.1, trivial⟩,
      fun stage => (nomatch stage), fun stage => (nomatch stage)⟩
  rw [copyStep]
  split
  · exact failing
  · rename_i theirs held
    split
    · exact failing
    · rename_i snapshot copied
      obtain ⟨-, fresh⟩ := sound.reading other reading
      have valid := sound.valid other (Objects.mem_keys_iff.mpr ⟨theirs, held⟩)
      obtain ⟨-, files⟩ := sound.made.copy fresh valid theirs.2 copied
      refine ⟨fun key body referenced there => ?_, fun stage => (nomatch stage), fun stage => (nomatch stage)⟩
      have whole := kept.whole key body referenced there
      rw [Pending, reading] at whole
      rw [← put_fresh fresh] at files
      dsimp only
      rw [files]
      by_cases own : key = other
      · subst own
        left
        rcases whole with copied | ⟨-, same, -⟩
        · exact absurd (Objects.mem_keys_iff.mpr ⟨_, copied⟩) fresh
        · cases held.symm.trans same
          exact Objects.get_put_self
      · rcases whole with copied | ⟨absent, same, present, shown, later⟩
        · exact .inl ((Objects.get_put_ne own).trans copied)
        · refine .inr ⟨fun mem => ?_, same, present, shown, later.resolve_left own⟩
          exact (Objects.mem_keys_put.mp mem).elim own absent

theorem step_kept (sound : Sound sha256 budget w) (kept : Kept shows w)
    (taken : step sha256 budget shows w act = some after) (undisturbed : Undisturbed shows w act after) :
    Kept shows after := by
  cases act with
  | server act =>
      rw [step] at taken
      split at taken
      case isFalse => cases taken
      case isTrue =>
        obtain ⟨server, -, rfl⟩ := Option.map_eq_some_iff.mp taken
        exact moved_kept kept undisturbed
  | unstage keys =>
      cases taken
      exact moved_kept kept undisturbed
  | copyDatabase =>
      rw [step] at taken
      split at taken
      case isFalse => cases taken
      case isTrue idle =>
        cases taken
        refine ⟨fun key body _ there => .inr ⟨fun mem => ?_, there⟩, fun stage => (nomatch stage),
          fun stage => (nomatch stage)⟩
        have given := sound.given key mem
        rw [sound.early (.inl idle)] at given
        cases given
  | list =>
      rw [step] at taken
      split at taken
      case isFalse => cases taken
      case isTrue copied =>
        cases taken
        refine ⟨fun key body referenced there => ?_, fun stage => (nomatch stage), fun stage => (nomatch stage)⟩
        have whole := kept.whole key body referenced there
        rw [Pending, copied] at whole
        refine whole.imp_right fun ⟨fresh, held⟩ => ⟨fresh, held, Objects.mem_keys_iff.mpr ⟨body, held⟩, ?_, ?_⟩
        · exact undisturbed key (Objects.mem_keys_iff.mpr ⟨body, there⟩) referenced
        · rw [sound.early (.inr copied)]
          exact List.not_mem_nil
  | give other =>
      rw [step] at taken
      split at taken
      case isFalse => cases taken
      case isTrue new =>
        obtain ⟨listing, -, -⟩ := new
        cases taken
        refine ⟨fun key body referenced there => ?_, fun stage => (nomatch stage), fun stage => (nomatch stage)⟩
        have whole := kept.whole key body referenced there
        rw [Pending, listing] at whole
        refine whole.imp_right fun ⟨fresh, held, present, shown, later⟩ => ⟨fresh, held, present, shown, ?_⟩
        rw [List.mem_cons, not_or]
        exact (em (key = other)).imp_right fun apart => ⟨apart, later⟩
  | copy =>
      rw [step] at taken
      split at taken
      case h_1 key reading =>
        cases taken
        exact copy_kept sound kept reading
      case h_2 => cases taken
  | listEnds =>
      rw [step] at taken
      split at taken
      case isFalse => cases taken
      case isTrue ended =>
        obtain ⟨listing, all⟩ := ended
        cases taken
        refine ⟨fun key body referenced there => ?_, fun stage => (nomatch stage), fun stage => (nomatch stage)⟩
        have whole := kept.whole key body referenced there
        rw [Pending, listing] at whole
        refine whole.imp_right fun ⟨_, _, present, shown, later⟩ => absurd (all key present shown) later
  | finish dir names keep =>
      rw [step] at taken
      split at taken
      case isFalse => cases taken
      case isTrue ready =>
        obtain ⟨listed, nodup⟩ := ready
        cases taken
        refine ⟨fun key body referenced there => ?_, fun stage => (nomatch stage), fun _ => ?_⟩
        · have whole := kept.whole key body referenced there
          rw [Pending, listed] at whole
          exact whole
        · have newer : (dir :: names).countP (fun name => dir < name) < max keep 1 := by
            rw [List.countP_cons_of_neg (by simp)]
            exact undisturbed
          have stays := (mem_prune_iff nodup List.mem_cons_self (max keep 1)).mpr newer
          simpa using stays
  | fail =>
      rw [step] at taken
      split at taken
      case isTrue => cases taken
      case isFalse =>
        cases taken
        exact ⟨fun key body referenced there =>
          (kept.whole key body referenced there).imp_right fun both => ⟨both.1, trivial⟩,
          fun stage => (nomatch stage), fun stage => (nomatch stage)⟩

end Kept

/-! ### A snapshot holds an object for every row -/

/-- A run that ends well while nothing it has yet to copy is deleted or replaced: the snapshot holds what the copied rows
reference as it was, and restores as it is. -/
theorem undisturbed_snapshot_is_complete {sha256 : Bytes → Vector UInt8 32} {budget : Nat} {shows : Text → Bool}
    {server : Server budget} {acts : List Act} {w : World}
    (run : Run (step sha256 budget shows) (Undisturbed shows) (start server) acts w) (ok : w.stage = .done) :
    w.removed = false ∧
      (∀ key body, Referenced w.rows key → w.before.get key = some body →
        w.snapshot.files.get key = some body.1) ∧
      ∃ n objects, restoreStorage sha256 budget w.snapshot [] = some (n, objects) ∧
        ∀ key, objects.get key = w.snapshot.files.get key := by
  have both : Sound sha256 budget w ∧ Kept shows w :=
    run.invariant (fun w => Sound sha256 budget w ∧ Kept shows w) ⟨start_sound, start_kept⟩
      fun _ _ _ inv taken undisturbed => ⟨step_sound inv.1 taken, step_kept inv.1 inv.2 taken undisturbed⟩
  refine ⟨both.2.stays ok, fun key body referenced there => ?_, _, _, snapshot_restores_as_it_is run, fun _ => rfl⟩
  have whole := both.2.whole key body referenced there
  rw [Pending, ok] at whole
  exact whole.resolve_right And.right

/-! ### Runs -/

instance (shows : Text → Bool) (w : World) (act : Act) (after : World) : Decidable (Undisturbed shows w act after) := by
  unfold Undisturbed
  apply @Act.casesOn _ act <;> intros <;> infer_instance

/-- What the filesystem shows. -/
def showsFile (key : Text) : Bool := !Fs.Tree.isLegacyPart (key.splitOn '/')

/-- The digest of no bytes, for every input. -/
def digestOfNothing (_ : Bytes) : Vector UInt8 32 :=
  #v[0xe3, 0xb0, 0xc4, 0x42, 0x98, 0xfc, 0x1c, 0x14, 0x9a, 0xfb, 0xf4, 0xc8, 0x99, 0x6f, 0xb9, 0x24,
    0x27, 0xae, 0x41, 0xe4, 0x64, 0x9b, 0x93, 0x4c, 0xa4, 0x95, 0x99, 0x1b, 0x78, 0x52, 0xb8, 0x55]

def nothing : Body := ⟨[], by decide⟩

/-- One file, of no bytes. -/
def oneFile : Server 1024 where
  state := Reclaim.start [⟨"k".toList, false⟩] ⟨[], [], [], [], [], []⟩ "e".toList [("k".toList, nothing)]
  valid := by decide

/-- The file is copied while another is queued. -/
def copied : List Act :=
  [.copyDatabase, .server (.enqueue ["x".toList] 0), .list, .give "k".toList, .copy, .listEnds,
    .finish "opencargo-2".toList ["opencargo-1".toList] 1]

/-- The file's row is dropped after the copy of the database, and a reclaimer deletes its object before the listing. -/
def reclaimed : List Act :=
  [.copyDatabase, .server (.commit [] [] ["k".toList] 2000000000), .server (.due 0 3000000000 10),
    .server (.claim 1 ⟨"k".toList, false⟩ 0 3000000000 4000000000 "c".toList), .server (.delete 1), .list, .listEnds,
    .finish "opencargo-2".toList ["opencargo-1".toList] 1]

theorem copied_file_is_in_the_snapshot :
    ∃ w, Run (step digestOfNothing 1024 showsFile) (Undisturbed showsFile) (start oneFile) copied w ∧
      w.stage = .done ∧ Referenced w.rows "k".toList ∧ w.snapshot.files.get "k".toList = some [] ∧
      ∃ n objects, restoreStorage digestOfNothing 1024 w.snapshot [] = some (n, objects) ∧
        ∀ key, objects.get key = w.snapshot.files.get key := by
  obtain ⟨w, run, tested⟩ := Run.of_test (step digestOfNothing 1024 showsFile) (Undisturbed showsFile) (start oneFile)
    copied (fun w => decide (w.stage = .done ∧ Referenced w.rows "k".toList ∧
      w.before.get "k".toList = some nothing)) (by decide +kernel)
  obtain ⟨ok, referenced, there⟩ := of_decide_eq_true tested
  obtain ⟨-, whole, restores⟩ := undisturbed_snapshot_is_complete run ok
  exact ⟨w, run, ok, referenced, whole _ _ referenced there, restores⟩

/-- The run ends well, with a row and without its object. -/
theorem reclaimed_file_is_not_in_the_snapshot :
    ∃ w, Run (step digestOfNothing 1024 showsFile) Any (start oneFile) reclaimed w ∧ w.stage = .done ∧
      Referenced w.rows "k".toList ∧ w.before.get "k".toList = some nothing ∧
      w.snapshot.files.get "k".toList = none := by
  obtain ⟨w, run, tested⟩ := Run.of_test (step digestOfNothing 1024 showsFile) Any (start oneFile) reclaimed
    (fun w => decide (w.stage = .done ∧ Referenced w.rows "k".toList ∧ w.before.get "k".toList = some nothing ∧
      w.snapshot.files.get "k".toList = none)) (by decide +kernel)
  exact ⟨w, run, of_decide_eq_true tested⟩

end OpenCargo.Backup
