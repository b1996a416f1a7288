/-
Module: OpenCargo.Reclaim.Safety
Purpose: Reclaim safety: no committed row references a key whose object a reclaimer deleted, along every
  interleaving of writers and reclaimers in which no key is placed under a prefix that is being emptied
  while it is still in use; and the interleaving in which one is.
Trusted boundary: none
Main exports: Admitted, Kept, Sound.step, admitted_runs_delete_no_referenced_object
-/
import OpenCargo.Reclaim.Invariant

namespace OpenCargo.Reclaim

open OpenCargo.Lib

variable {β : Type}

/-! ### What is claimed, and the condition it needs -/

/-- The condition on a step. A placement or an upload is given no key under a prefix that a reclaimer
is emptying, unless the prefix is a retired incarnation's (whose placements the code refuses itself);
and a reclaimer that empties a prefix was answered for a queued prefix, and not for the empty one. -/
def Admitted (state : State β) (act : Act β) (_ : State β) : Prop :=
  match act with
  | .pin incarnation draws _ =>
      state.tables.isLivePrefix (Layout.incarnationPrefix incarnation) = true →
        ∀ h ∈ state.holders, h.isPrefix = true → h.retired = false →
          ∀ draw ∈ draws, ¬ Covers h.key draw.logical
  | .startUpload incarnation upload =>
      ∀ h ∈ state.holders, h.isPrefix = true → h.retired = false →
        ¬ Covers h.key (Layout.uploadPrefix (Layout.incarnationPrefix incarnation) upload)
  | .claim _ candidate _ _ _ _ =>
      (candidate.isPrefix = true → candidate.key ≠ []) ∧
        Flagged state.tables candidate.key candidate.isPrefix
  | _ => True

/-- No committed row references a key whose object a reclaimer deleted, and nothing that is covered by
a claim whose holder is still at work is referenced or pinned. -/
structure Intact (state : State β) : Prop where
  deleted : ∀ key ∈ state.deleted, ¬ Referenced state.rows key
  held : ∀ h ∈ state.holders, ∀ key, ClaimCovers h.key h.isPrefix key →
    Gone state.rows state.tables.pins key

/-- What is claimed is neither referenced nor pinned: the step by which a reclaimer is answered
`Claimed` finds nothing it covers referenced, and only pins that have run out, unless the prefix is a
retired incarnation's. -/
def ClaimsFree (before : State β) (act : Act β) (after : State β) : Prop :=
  ∀ id candidate grace now until_ token, act = .claim id candidate grace now until_ token →
    after.holders ≠ before.holders → ∀ key, ClaimCovers candidate.key candidate.isPrefix key →
      ¬ Referenced before.rows key ∧
        (before.tables.isRetiredPrefix candidate.key = true ∨
          ∀ pin ∈ before.tables.pins, pin.physicalKey = key →
            pin.until_ ≤ bindTs (Tables.cutoff grace now))

def Kept (before : State β) (act : Act β) (after : State β) : Prop :=
  Intact after ∧ ClaimsFree before act after

/-! ### Steps and runs -/

theorem Sound.step {state after : State β} {act : Act β} (sound : Sound state)
    (taken : step state act = some after) (admitted : Admitted state act after) : Sound after := by
  cases act with
  | create format name incarnation now => exact sound.create taken
  | retire incarnation group rows now => exact sound.retire taken
  | pin incarnation draws until_ => exact sound.pin taken admitted
  | write key body => exact sound.write taken
  | commit tokens rows enqueued now => exact sound.commit taken
  | startUpload incarnation upload => exact sound.startUpload taken admitted
  | enqueue keys now =>
      cases taken
      exact sound.enqueue
  | enqueuePrefix key now =>
      cases taken
      exact sound.enqueuePrefix
  | due grace now limit =>
      cases taken
      exact sound.due
  | claim id candidate grace now until_ token => exact sound.claim taken admitted.1 admitted.2
  | delete id =>
      obtain ⟨h, found, moved⟩ := Option.bind_eq_some_iff.mp taken
      exact sound.delete (State.mem_of_holder found) moved
  | release id =>
      obtain ⟨h, found, moved⟩ := Option.bind_eq_some_iff.mp taken
      exact sound.release (State.mem_of_holder found) moved
  | settle id =>
      obtain ⟨h, found, moved⟩ := Option.bind_eq_some_iff.mp taken
      exact sound.settle moved
  | list id budget batch =>
      obtain ⟨h, found, moved⟩ := Option.bind_eq_some_iff.mp taken
      exact sound.list (State.mem_of_holder found) moved
  | deleteBatch id keys =>
      obtain ⟨h, found, moved⟩ := Option.bind_eq_some_iff.mp taken
      exact sound.deleteBatch (State.mem_of_holder found) moved
  | renew id until_ =>
      obtain ⟨h, found, moved⟩ := Option.bind_eq_some_iff.mp taken
      exact sound.renew (State.mem_of_holder found) moved
  | forgetRetired id =>
      obtain ⟨h, found, moved⟩ := Option.bind_eq_some_iff.mp taken
      exact sound.forgetRetired (State.mem_of_holder found) moved
  | prune grace now limit =>
      cases taken
      exact sound.shrinkTables (Tables.prunePins_shrinks _ _ _ _) sound.holders
  | newEpoch epoch =>
      cases taken
      exact sound.newEpoch

theorem Sound.intact {state : State β} (sound : Sound state) : Intact state where
  deleted := fun key mem => (sound.deleted key mem).2.unreferenced
  held := fun h mem key covered => (sound.holders h mem).gone key covered

/-- The step by which a reclaimer is answered `Claimed` finds nothing it covers referenced, and no pin
on it that has not run out. -/
theorem claimsFree {state after : State β} {act : Act β} (taken : step state act = some after)
    (admitted : Admitted state act after) : ClaimsFree state act after := by
  rintro id candidate grace now until_ token rfl new key covered
  change claimStep state id candidate grace now until_ token = some after at taken
  obtain ⟨_, flagged⟩ := admitted
  unfold claimStep at taken
  split at taken
  case isFalse => cases taken
  case isTrue =>
    split at taken
    case h_2 =>
      cases taken
      exact absurd rfl new
    case h_1 claim =>
      obtain ⟨row, claimable, _⟩ := Tables.claimOne_claimed claim
      have wider := covered.widen claimable flagged
      refine ⟨not_referenced_of_covered claimable.unreferenced wider, ?_⟩
      rcases claimable.unpinned with retired | unpinned
      · exact .inl retired
      · right
        intro pin mem same
        by_contra late
        have protects : state.tables.protectedBy candidate.key row.isPrefix grace now = true := by
          simp only [Tables.protectedBy, List.any_eq_true, Bool.and_eq_true, Bool.or_eq_true,
            decide_eq_true_eq, beq_iff_eq, Layout.sqlWithin_iff]
          refine ⟨pin, mem, not_le.mp late, ?_⟩
          rw [same]
          unfold ClaimCovers at wider
          split at wider
          case isTrue wide => exact wider.imp (fun here => here) fun inside => ⟨wide, inside⟩
          case isFalse => exact .inl wider
        rw [unpinned] at protects
        cases protects

/-- In every run in which every step is admitted, from any database and any store with nobody at work:
no committed row ever references a key whose object a reclaimer deleted, nothing a working reclaimer's
claim covers is referenced or pinned, and nothing referenced or pinned is claimed. -/
theorem admitted_runs_delete_no_referenced_object {rows : List Ref} {tables : Tables} {epoch : Text}
    {objects : Objects β} {acts : List (Act β)} {state : State β}
    (formed : ∀ row ∈ tables.prefixes, Formed row)
    (run : Run step Admitted (start rows tables epoch objects) acts state) :
    Run step Kept (start rows tables epoch objects) acts state := by
  refine run.strengthen Sound (sound_start formed) ?_
  intro before act after sound taken admitted
  have next := sound.step taken admitted
  exact ⟨next, next.intact, claimsFree taken admitted⟩

/-! ### Two interleavings -/

instance (state : State β) (act : Act β) (after : State β) : Decidable (Admitted state act after) := by
  unfold Admitted Flagged
  apply @Act.casesOn _ _ act <;> intros <;> infer_instance

/-- A database in which nothing has happened yet. -/
def noTables : Tables := ⟨[], [], [], [], [], []⟩

def published : Text := "r/i/p/s/f~e-n".toList

/-- A placement of one file under the incarnation `i`: the pin, the write and the commit. -/
def publish : List (Act Unit) :=
  [.pin "i".toList [⟨"r/i/p/s/f".toList, "n".toList, "t".toList⟩] 9000000000,
   .write published (),
   .commit [⟨"t".toList, "r/i/p/s/f".toList, published⟩] [⟨published, false⟩] [] 1000000000]

/-- A file is published and deleted, and its object reclaimed. -/
def reclaimed : List (Act Unit) :=
  .create .npm "web".toList "i".toList 0 :: publish ++
    [.commit [] [] [published] 2000000000,
     .due 0 3000000000 10, .claim 0 ⟨published, false⟩ 0 3000000000 4000000000 "c".toList,
     .delete 0, .release 0, .settle 0]

theorem reclaimed_run_keeps_rows :
    ∃ state, Run step Admitted (start [] noTables "e".toList []) reclaimed state ∧
      state.deleted = [published] ∧
      Run step Kept (start [] noTables "e".toList []) reclaimed state := by
  obtain ⟨state, run, test⟩ := Run.of_test step Admitted (start [] noTables "e".toList []) reclaimed
    (fun state => state.deleted == [published]) (by decide +kernel)
  refine ⟨state, run, by simpa using test, ?_⟩
  exact admitted_runs_delete_no_referenced_object (by simp [noTables]) run

/-- The operator empties `r/i/p` while a file is published under it: the claim is answered before the
pin, and the listing is made after the commit. -/
def emptied : List (Act Unit) :=
  [.create .npm "web".toList "i".toList 0, .enqueuePrefix "r/i/p".toList 0,
   .claim 0 ⟨"r/i/p".toList, true⟩ 0 1000000000 8000000000 "c".toList] ++ publish ++
  [.list 0 1024 1000, .deleteBatch 0 [published]]

theorem emptied_prefix_deletes_published_file :
    ∃ state, Run step Any (start [] noTables "e".toList []) emptied state ∧
      state.rows = [⟨published, false⟩] ∧ published ∈ state.deleted ∧
      ¬ Run step Kept (start [] noTables "e".toList []) emptied state := by
  obtain ⟨state, run, test⟩ := Run.of_test step Any (start [] noTables "e".toList []) emptied
    (fun state => state.rows == [⟨published, false⟩] && state.deleted.contains published)
    (by decide +kernel)
  simp only [Bool.and_eq_true, beq_iff_eq, List.contains_iff_mem] at test
  obtain ⟨rows, deleted⟩ := test
  refine ⟨state, run, rows, deleted, fun kept => ?_⟩
  obtain ⟨_, _, intact, _⟩ := kept.last_met (by decide)
  apply intact.deleted published deleted
  rw [rows]
  exact referenced_of_key (List.mem_singleton.mpr rfl)

end OpenCargo.Reclaim
