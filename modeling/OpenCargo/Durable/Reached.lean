/-
Module: OpenCargo.Durable.Reached
Purpose: The states a completion may start in: reached by any steps of the reclamation, and by putting
  back the database of one state under the store of another. In each of them every object at a
  generation of a blob's key has the blob's digest.
Trusted boundary: whoever writes at a generation of a blob's key has checked the digest, as
  `CompleteUpload` does before it places; nobody else writes there
Main exports: Reached.stocked, Stored, Kept, Kept.step
-/
import OpenCargo.Place.World

namespace OpenCargo.Durable

open OpenCargo.Lib
open OpenCargo.Reclaim

/-! ### The states that are reached -/

/-- The generation of a logical key: everything after the key and a `~`, in one segment. -/
def isGeneration (logical key : Text) : Bool :=
  key.take (logical.length + 1) == logical ++ ['~'] && !(key.drop (logical.length + 1)).contains '/'

theorem isGeneration_iff {logical key : Text} : isGeneration logical key = true ↔
    ∃ gen, '/' ∉ gen ∧ key = Layout.physicalKey logical gen := by
  simp only [isGeneration, Bool.and_eq_true, beq_iff_eq, Bool.not_eq_true', List.contains_eq_mem,
    decide_eq_false_iff_not]
  constructor
  · rintro ⟨stem, flat⟩
    refine ⟨_, flat, ?_⟩
    conv_lhs => rw [← List.take_append_drop (logical.length + 1) key, stem]
    simp [Layout.physicalKey]
  · rintro ⟨gen, flat, rfl⟩
    have cut : Layout.physicalKey logical gen = (logical ++ ['~']) ++ gen := by
      simp [Layout.physicalKey]
    have length : (logical ++ ['~']).length = logical.length + 1 := by simp
    rw [cut, ← length, List.take_left, List.drop_left]
    exact ⟨rfl, flat⟩

section Digest

variable (sha256 : Bytes → Text) (logical digest : Text)

/-- The condition on a step: that of the reclamation itself, and that whoever writes at a generation of
the blob's key writes a body with its digest. -/
def Faithful (state : State Bytes) (act : Act Bytes) (after : State Bytes) : Prop :=
  Admitted state act after ∧
    match act with
    | .write key body => isGeneration logical key = true → sha256 body = digest
    | _ => True

instance (state : State Bytes) (act : Act Bytes) (after : State Bytes) :
    Decidable (Faithful sha256 logical digest state act after) := by
  unfold Faithful
  apply @Act.casesOn _ _ act <;> intros <;> infer_instance

/-- An earlier database under the store of now, with a new epoch: nobody is at work. -/
def restored (kept now : State Bytes) (epoch : Text) : State Bytes where
  rows := kept.rows
  tables := kept.tables
  epoch := epoch
  objects := now.objects
  handed := []
  holders := []
  placed := []
  uploads := kept.uploads
  seen := kept.seen ++ now.seen
  incarnations := kept.incarnations ++ now.incarnations
  deleted := []

/-- The states that are reached: by steps from an empty depot, and by putting back the database of one
under the store of another. -/
inductive Reached : State Bytes → Prop where
  | empty (epoch : Text) : Reached (start [] noTables epoch [])
  | step {state after : State Bytes} {act : Act Bytes} : Reached state →
      Reclaim.step state act = some after → Faithful sha256 logical digest state act after →
      Reached after
  | restored {kept now : State Bytes} (epoch : Text) : Reached kept → Reached now →
      Reached (restored kept now epoch)

/-- What holds in every state that is reached: the reclamation's invariant, every generation of the
blob's key has its digest, and every key that was given is a generation. -/
structure Stocked (state : State Bytes) : Prop where
  sound : Sound state
  typed : ∀ key body, isGeneration logical key = true → state.objects.get key = some body →
    sha256 body = digest
  placed : ∀ key ∈ state.placed, '~' ∈ key

variable {sha256 logical digest}

theorem place_generation {state : State Bytes} {incarnation : Text} {draw : Tables.Draw}
    (fair : drawn state incarnation draw = true) : ∃ gen, '/' ∉ gen ∧
      state.tables.place state.rows state.epoch draw.logical draw.nonce =
        Layout.physicalKey draw.logical gen := by
  obtain ⟨_, flat, _⟩ := drawn_iff.mp fair
  obtain ⟨gen, plain, placed, _⟩ :=
    @Tables.place_cases state.tables state.rows state.epoch draw.logical draw.nonce flat
  exact ⟨gen, plain, placed⟩

theorem Stocked.step {state after : State Bytes} {act : Act Bytes}
    (stocked : Stocked sha256 logical digest state) (taken : Reclaim.step state act = some after)
    (faithful : Faithful sha256 logical digest state act after) :
    Stocked sha256 logical digest after where
  sound := stocked.sound.step taken faithful.1
  typed := by
    intro key body generation there
    rcases object_fate stocked.sound (effect_of taken) key with same | ⟨written, rfl, here⟩ | ⟨none, _⟩
    · exact stocked.typed key body generation (same ▸ there)
    · rw [here] at there
      cases there
      exact faithful.2 generation
    · rw [none] at there
      cases there
  placed := by
    intro key mem
    cases effect_of taken with
    | pinned _ fair =>
        rcases List.mem_append.mp mem with new | old
        · rw [List.map_map] at new
          obtain ⟨draw, given, rfl⟩ := List.mem_map.mp new
          obtain ⟨gen, _, placed⟩ := place_generation (fair draw given)
          change '~' ∈ state.tables.place state.rows state.epoch draw.logical draw.nonce
          rw [placed]
          simp [Layout.physicalKey]
        · exact stocked.placed key old
    | moved id h _ found moves =>
        rw [moves.leaves.2.2.2] at mem
        exact stocked.placed key mem
    | _ => exact stocked.placed key mem

theorem stocked_restored {kept now : State Bytes} {epoch : Text}
    (before : Stocked sha256 logical digest kept) (current : Stocked sha256 logical digest now) :
    Stocked sha256 logical digest (restored kept now epoch) where
  sound :=
    { objects := fun key mem => List.mem_append_right _ (current.sound.objects key mem)
      queued := fun row mem => List.mem_append_left _ (before.sound.queued row mem)
      handed := nofun
      placed := nofun
      deleted := nofun
      holders := nofun
      prefixes := fun row mem =>
        ⟨(before.sound.prefixes row mem).1,
          List.mem_append_left _ (before.sound.prefixes row mem).2⟩ }
  typed := current.typed
  placed := nofun

theorem Reached.stocked {state : State Bytes} (reached : Reached sha256 logical digest state) :
    Stocked sha256 logical digest state := by
  induction reached with
  | empty epoch => exact ⟨sound_start nofun, nofun, nofun⟩
  | step _ taken faithful ih => exact ih.step taken faithful
  | restored epoch _ _ before current => exact stocked_restored before current

/-! ### What stays of a key while others act -/

/-- The key names an object with the digest. -/
def Stored (sha256 : Bytes → Text) (digest key : Text) (state : State Bytes) : Prop :=
  ∃ body, state.objects.get key = some body ∧ sha256 body = digest

/-- The object of a key has the digest, unless nothing refers to the key any more. -/
def Kept (sha256 : Bytes → Text) (digest key : Text) (state : State Bytes) : Prop :=
  key ∈ state.seen ∧ (Gone state.rows state.tables.pins key ∨ Stored sha256 digest key state)

theorem Stored.kept {state : State Bytes} {key : Text} (stocked : Stocked sha256 logical digest state)
    (stored : Stored sha256 digest key state) : Kept sha256 digest key state := by
  obtain ⟨body, there, same⟩ := stored
  exact ⟨stocked.sound.objects key (Objects.mem_keys_iff.mpr ⟨body, there⟩), .inr ⟨body, there, same⟩⟩

theorem Kept.step {state after : State Bytes} {act : Act Bytes} {key : Text}
    (stocked : Stocked sha256 logical digest state) (taken : Reclaim.step state act = some after)
    (faithful : Faithful sha256 logical digest state act after)
    (generation : isGeneration logical key = true) (kept : Kept sha256 digest key state) :
    Kept sha256 digest key after := by
  obtain ⟨named, gone | ⟨body, there, same⟩⟩ := kept
  · exact ⟨seen_step (effect_of taken) named, .inl (gone.step named (effect_of taken))⟩
  · refine ⟨seen_step (effect_of taken) named, ?_⟩
    rcases object_fate stocked.sound (effect_of taken) key with left | ⟨written, rfl, here⟩ | ⟨_, gone⟩
    · exact .inr ⟨body, left.trans there, same⟩
    · exact .inr ⟨written, here, faithful.2 generation⟩
    · exact .inl (gone.step named (effect_of taken))

end Digest

end OpenCargo.Durable
