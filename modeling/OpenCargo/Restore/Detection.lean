/-
Module: OpenCargo.Restore.Detection
Purpose: What the mark tells of a database that was put back. A batch deletes under a permit whose
  counter the mark carries, so a database that misses what a later batch deleted is never level with
  the mark, and no batch is permitted until its epoch is settled. A batch that was permitted before the
  database was kept leaves no trace of what it deletes afterwards.
Trusted boundary: none
Main exports: Unsettled, Audited, Stale, timely_deletions_are_detected
-/
import OpenCargo.Restore.System

namespace OpenCargo.Restore

open OpenCargo.Lib
open OpenCargo.Reclaim (Referenced)

variable {β : Type}

/-! ### The conditions -/

/-- No mark is written over another call's work. -/
def Ordered (w : World β) (act : Act β) (after : World β) : Prop :=
  match act with
  | .mark act => HighWater.Unoverwritten w.water act after.water
  | _ => True

/-- And what the kept database needs is deleted only by a batch that was permitted after it was kept. -/
def Timely (kept : World β) (w : World β) (act : Act β) (after : World β) : Prop :=
  Ordered w act after ∧
    match act with
    | .reclaim (.delete id) => ∀ key ∈ deletes w.state (.delete id), Needed kept key →
        (w.batches id).any Batch.later = true
    | .reclaim (.deleteBatch id keys) => ∀ key ∈ keys, Needed kept key →
        (w.batches id).any Batch.later = true
    | _ => True

/-- No verify ends: the epoch is not settled. -/
def Unsettled (_ : World β) (act : Act β) (_ : World β) : Prop :=
  ∀ epoch, act ≠ .mark (.verified epoch)

/-! ### What the mark's side only adds to -/

/-- A step of the mark's side: the counter does not go back, no drawn epoch is forgotten, and a counter
that is granted is above what the database had. -/
structure Grows (before after : HighWater.World) : Prop where
  counter : before.row.counter ≤ after.row.counter
  used : ∀ epoch ∈ before.used, epoch ∈ after.used
  granted : after.granted = before.granted ∨
    ∃ grant, after.granted = grant :: before.granted ∧ before.row.counter < grant.counter

theorem Grows.of_same {before after : HighWater.World} (counter : after.row.counter = before.row.counter)
    (used : after.used = before.used) (granted : after.granted = before.granted) :
    Grows before after where
  counter := counter.ge
  used := by
    rw [used]
    exact fun _ mem => mem
  granted := .inl granted

theorem grows_next {before after : HighWater.World} {id : Nat} {undisturbed : Bool}
    {phase : HighWater.Phase} (taken : HighWater.next before id undisturbed phase = some after) :
    Grows before after := by
  cases phase with
  | opened state =>
      cases taken
      unfold HighWater.compared
      split
      all_goals exact .of_same rfl rfl rfl
  | drawing seen => cases taken
  | reserving state =>
      cases taken
      unfold HighWater.reserve
      split
      all_goals exact .of_same rfl rfl rfl
  | advancing state =>
      cases taken
      unfold HighWater.advance
      split
      case h_2 => exact .of_same rfl rfl rfl
      case h_1 row advanced =>
        unfold HighWater.Epoch.advance at advanced
        split at advanced
        case isFalse => cases advanced
        case isTrue above =>
          cases advanced
          obtain ⟨_, below, _⟩ := above
          refine ⟨below.le, fun _ mem => mem, .inr ⟨_, rfl, ?_⟩⟩
          exact lt_of_lt_of_le below (Nat.min_le_left _ _)
  | _ =>
      cases taken
      exact .of_same rfl rfl rfl

theorem grows_step {before after : HighWater.World} {act : HighWater.Act}
    (taken : HighWater.step before act = some after) : Grows before after := by
  cases act with
  | call id =>
      simp only [HighWater.step] at taken
      split at taken
      · cases taken
        exact .of_same rfl rfl rfl
      · cases taken
  | next id =>
      simp only [HighWater.step] at taken
      split at taken
      · exact grows_next taken
      · cases taken
  | draw id epoch =>
      simp only [HighWater.step] at taken
      split at taken
      · split at taken
        · cases taken
          exact ⟨Nat.le_max_left _ _, fun _ mem => List.mem_cons_of_mem _ mem, .inl rfl⟩
        · cases taken
      · cases taken
  | verified epoch =>
      cases taken
      refine .of_same ?_ rfl rfl
      unfold HighWater.Epoch.verified
      split <;> rfl

/-! ### Until the database is put back -/

/-- Every batch was granted its counter. -/
structure Granted (w : World β) : Prop where
  water : HighWater.Sound w.water
  batches : ∀ id batch, w.batches id = some batch →
    ∃ grant ∈ w.water.granted, grant.counter = batch.counter

/-- What is known of the run after a database was kept: the batches permitted since were granted more
than its counter, and so whatever it needs and misses was deleted under such a grant. -/
structure Audited (kept w : World β) : Prop extends Granted w where
  counter : kept.water.row.counter ≤ w.water.row.counter
  used : kept.water.row.epoch ∈ w.water.used
  later : ∀ id batch, w.batches id = some batch → batch.later = true →
    kept.water.row.counter < batch.counter
  missed : ∀ key ∈ w.deletions, Needed kept key →
    ∃ grant ∈ w.water.granted, kept.water.row.counter < grant.counter

theorem Grows.mem {before after : HighWater.World} (grows : Grows before after)
    {grant : HighWater.Grant} (mem : grant ∈ before.granted) : grant ∈ after.granted := by
  rcases grows.granted with same | ⟨new, more, _⟩
  · rw [same]
    exact mem
  · rw [more]
    exact List.mem_cons_of_mem _ mem

/-- The batches after a step of the mark's side: those there were, and the one that was permitted. -/
theorem permitted_cases {before after : HighWater.World} {act : HighWater.Act}
    {batches : Nat → Option Batch} {id : Nat} {batch : Batch} (grows : Grows before after)
    (found : permitted before after act batches id = some batch) :
    batches id = some batch ∨ ∃ grant, after.granted = grant :: before.granted ∧
      before.row.counter < grant.counter ∧ batch = ⟨grant.counter, true⟩ := by
  unfold permitted at found
  split at found
  case h_2 => exact .inl found
  case h_1 caller =>
    split at found
    case isFalse => exact .inl found
    case isTrue longer =>
      rcases grows.granted with same | ⟨grant, more, above⟩
      · rw [same] at longer
        exact absurd longer (lt_irrefl _)
      · by_cases own : id = caller
        · subst own
          rw [Function.update_self, more] at found
          exact .inr ⟨grant, more, above, (Option.some.inj found).symm⟩
        · rw [Function.update_of_ne own] at found
          exact .inl found

theorem Granted.mark {w after : World β} {act : HighWater.Act} (granted : Granted w)
    (taken : markStep w act = some after)
    (ordered : HighWater.Unoverwritten w.water act after.water) : Granted after := by
  obtain ⟨water, moved, rfl⟩ := Option.map_eq_some_iff.mp taken
  have grows := grows_step moved
  refine ⟨granted.water.step moved ordered, ?_⟩
  intro id batch found
  rcases permitted_cases grows found with old | ⟨grant, more, _, rfl⟩
  · obtain ⟨grant, mem, same⟩ := granted.batches id batch old
    exact ⟨grant, grows.mem mem, same⟩
  · refine ⟨grant, ?_, rfl⟩
    change grant ∈ water.granted
    rw [more]
    exact List.mem_cons_self

theorem batch_of_done {batches : Nat → Option Batch} {id other : Nat} {batch : Batch}
    (found : Function.update batches id none other = some batch) : batches other = some batch := by
  by_cases own : other = id
  · subst own
    simp at found
  · rw [Function.update_of_ne own] at found
    exact found

theorem Granted.done {w : World β} {id : Nat} (granted : Granted w) :
    Granted { w with batches := Function.update w.batches id none } where
  water := granted.water
  batches := fun other batch found => granted.batches other batch (batch_of_done found)

theorem Granted.step {w after : World β} {act : Act β} (granted : Granted w)
    (taken : step w act = some after) (ordered : Ordered w act after) : Granted after := by
  cases act with
  | mark act =>
      simp only [Restore.step] at taken
      split at taken
      · exact granted.mark taken ordered
      · cases taken
  | reclaim act =>
      simp only [Restore.step] at taken
      split at taken
      · obtain ⟨state, _, rfl⟩ := Option.map_eq_some_iff.mp taken
        exact ⟨granted.water, granted.batches⟩
      · cases taken
  | done id =>
      simp only [Restore.step] at taken
      split at taken
      · cases taken
        exact granted.done
      · cases taken

theorem granted_start {row : HighWater.Epoch} {mark : Option HighWater.Mark}
    {rows : List Reclaim.Ref} {tables : Reclaim.Tables} {objects : Objects β} :
    Granted (start row mark rows tables objects) :=
  ⟨HighWater.sound_start row mark, nofun⟩

theorem Granted.snapshot {w : World β} (granted : Granted w) : Granted (snapshot w) where
  water := granted.water
  batches := by
    intro id batch found
    obtain ⟨old, at_, rfl⟩ := Option.map_eq_some_iff.mp found
    exact granted.batches id old at_

theorem Granted.audited {w : World β} (granted : Granted w) : Audited w (Restore.snapshot w) where
  toGranted := granted.snapshot
  counter := le_refl _
  used := granted.water.current
  later := by
    intro id batch found later
    obtain ⟨old, _, rfl⟩ := Option.map_eq_some_iff.mp found
    cases later
  missed := by simp [Restore.snapshot]

theorem Audited.mark {kept w after : World β} {act : HighWater.Act} (audited : Audited kept w)
    (taken : markStep w act = some after)
    (ordered : HighWater.Unoverwritten w.water act after.water) : Audited kept after := by
  have granted := audited.toGranted.mark taken ordered
  obtain ⟨water, moved, rfl⟩ := Option.map_eq_some_iff.mp taken
  have grows := grows_step moved
  refine ⟨granted, audited.counter.trans grows.counter, grows.used _ audited.used, ?_, ?_⟩
  · intro id batch found later
    rcases permitted_cases grows found with old | ⟨grant, _, above, rfl⟩
    · exact audited.later id batch old later
    · exact lt_of_le_of_lt audited.counter above
  · intro key mem needed
    obtain ⟨grant, there, above⟩ := audited.missed key mem needed
    exact ⟨grant, grows.mem there, above⟩

/-- What a batch deletes that the kept database needs, it deletes under a later grant. -/
theorem Audited.reclaim {kept w after : World β} {act : Reclaim.Act β} (audited : Audited kept w)
    (taken : reclaimStep w act = some after) (timely : Timely kept w (.reclaim act) after) :
    Audited kept after := by
  obtain ⟨state, _, rfl⟩ := Option.map_eq_some_iff.mp taken
  refine ⟨⟨audited.water, audited.batches⟩, audited.counter, audited.used, audited.later, ?_⟩
  have granted : ∀ id, (w.batches id).any Batch.later = true →
      ∃ grant ∈ w.water.granted, kept.water.row.counter < grant.counter := by
    intro id later
    cases found : w.batches id with
    | none => simp [found] at later
    | some batch =>
        obtain ⟨grant, mem, same⟩ := audited.batches id batch found
        rw [found, Option.any_some] at later
        exact ⟨grant, mem, same ▸ audited.later id batch found later⟩
  intro key mem needed
  rcases List.mem_append.mp mem with new | old
  · cases act with
    | delete id => exact granted id (timely.2 key new needed)
    | deleteBatch id keys => exact granted id (timely.2 key new needed)
    | _ => simp [deletes] at new
  · exact audited.missed key old needed

theorem Audited.step {kept w after : World β} {act : Act β} (audited : Audited kept w)
    (taken : step w act = some after) (timely : Timely kept w act after) : Audited kept after := by
  cases act with
  | mark act =>
      simp only [Restore.step] at taken
      split at taken
      · exact audited.mark taken timely.1
      · cases taken
  | reclaim act =>
      simp only [Restore.step] at taken
      split at taken
      · exact audited.reclaim taken timely
      · cases taken
  | done id =>
      simp only [Restore.step] at taken
      split at taken
      · cases taken
        refine ⟨audited.toGranted.done, audited.counter, audited.used, ?_, audited.missed⟩
        exact fun other batch found => audited.later other batch (batch_of_done found)
      · cases taken

/-! ### Once the database is put back -/

/-- A mark that is not of this row, nor behind it: ahead of its counter, or of another epoch. -/
def Beyond (row : HighWater.Epoch) (mark : Option HighWater.Mark) : Prop :=
  ∃ m ∈ mark, m.epoch ≠ row.epoch ∨ row.counter < m.counter

/-- Such a mark makes the row's database behind, or the mark another installation's. -/
theorem Beyond.compare {row : HighWater.Epoch} {mark : Option HighWater.Mark}
    (beyond : Beyond row mark) :
    HighWater.compare row mark = .ok .databaseBehind ∨
      ∃ e, HighWater.compare row mark = .error e := by
  obtain ⟨m, rfl, further⟩ := beyond
  unfold HighWater.compare
  simp only
  split
  · exact .inr ⟨_, rfl⟩
  · left
    rfl

theorem Audited.beyond {kept w : World β} (audited : Audited kept w) {key : Text}
    (gone : key ∈ w.deletions) (needed : Needed kept key) :
    Beyond kept.water.row w.water.mark := by
  obtain ⟨grant, mem, above⟩ := audited.missed key gone needed
  obtain ⟨mark, found, covered, _⟩ := audited.water.covered grant mem
  exact ⟨mark, found, .inr (lt_of_lt_of_le above covered)⟩

/-- A row that owes a verify, under an epoch drawn after the database was put back. -/
def Owes (row state : HighWater.Epoch) : Prop := state.epoch ≠ row.epoch ∧ state.verifyPending = true

/-- What a call of `permit` can stand at. A call that found the row as it was put back finds it behind;
whoever found it later found that a verify is owed. -/
def Refused (row : HighWater.Epoch) (world : HighWater.World) : HighWater.Phase → Prop
  | .opened state => state = row ∨ Owes row state ∧ Owes row world.row
  | .behind => True
  | .drawing _ => True
  | .drawn state => state.epoch ≠ row.epoch
  | .ahead => Owes row world.row
  | .owing => Owes row world.row
  | .rewriting state => state.epoch ≠ row.epoch
  | .level => Owes row world.row
  | .reserving state => state.verifyPending = true
  | .advancing _ => False

/-- The mark's side since the database was put back. -/
structure Stale (row : HighWater.Epoch) (world : HighWater.World) : Prop where
  used : row.epoch ∈ world.used
  stands : world.row = row ∨ Owes row world.row
  mark : Beyond row world.mark
  calls : ∀ id call, world.calls id = some call → Refused row world call.phase

section Stale

variable {row : HighWater.Epoch} {world after : HighWater.World}

theorem Refused.mono {phase : HighWater.Phase} (refused : Refused row world phase)
    (owes : Owes row world.row → Owes row after.row) : Refused row after phase := by
  cases phase with
  | opened state => exact refused.imp_right fun both => ⟨both.1, owes both.2⟩
  | ahead => exact owes refused
  | owing => exact owes refused
  | level => exact owes refused
  | _ => exact refused

/-- A step after which each call stands where it stood, or where it is refused, and the row is what it
was, or owes a verify. -/
theorem Stale.move (stale : Stale row world) (used : ∀ epoch ∈ world.used, epoch ∈ after.used)
    (mark : Beyond row after.mark) (moved : after.row = world.row ∨ Owes row after.row)
    (calls : ∀ other c, after.calls other = some c →
      (∃ old, world.calls other = some old ∧ c.phase = old.phase) ∨ Refused row after c.phase) :
    Stale row after where
  used := used _ stale.used
  stands := by
    rcases moved with same | owes
    · rw [same]
      exact stale.stands
    · exact .inr owes
  mark := mark
  calls := by
    intro other c found
    rcases calls other c found with ⟨old, at_, same⟩ | refused
    · rw [same]
      apply (stale.calls other old at_).mono
      intro owes
      rcases moved with row | now
      · rw [row]
        exact owes
      · exact now
    · exact refused

theorem phase_of_set {id other : Nat} {call : Option HighWater.Call} {c : HighWater.Call}
    (found : (world.set id call).calls other = some c) :
    call = some c ∨ ∃ old, world.calls other = some old ∧ c.phase = old.phase := by
  change Function.update world.calls id call other = some c at found
  by_cases own : other = id
  · subst own
    rw [Function.update_self] at found
    exact .inl found
  · rw [Function.update_of_ne own] at found
    exact .inr ⟨c, found, rfl⟩

theorem phase_of_disturb {id other : Nat} {c : HighWater.Call}
    (found : (world.disturb id).calls other = some c) :
    ∃ old, world.calls other = some old ∧ c.phase = old.phase := by
  simp only [HighWater.World.disturb] at found
  split at found
  · exact ⟨c, found, rfl⟩
  · obtain ⟨old, at_, rfl⟩ := Option.map_eq_some_iff.mp found
    exact ⟨old, at_, rfl⟩

theorem Stale.set {id : Nat} {call : Option HighWater.Call} (stale : Stale row world)
    (phase : ∀ c, call = some c → Refused row world c.phase) : Stale row (world.set id call) := by
  apply stale.move
  · exact fun _ mem => mem
  · exact stale.mark
  · exact .inl rfl
  · intro other c found
    rcases phase_of_set found with own | old
    · exact .inr (phase c own)
    · exact .inl old

theorem Stale.put {id : Nat} {call : Option HighWater.Call} {mark : HighWater.Mark}
    (stale : Stale row world) (drawn : mark.epoch ≠ row.epoch)
    (phase : ∀ c, call = some c → Refused row world c.phase) :
    Stale row ((world.put id mark).set id call) := by
  apply stale.move
  · exact fun _ mem => mem
  · exact ⟨mark, rfl, .inl drawn⟩
  · exact .inl rfl
  · intro other c found
    rcases phase_of_set found with own | ⟨old, at_, same⟩
    · exact .inr (phase c own)
    · obtain ⟨older, here, also⟩ := phase_of_disturb at_
      exact .inl ⟨older, here, same.trans also⟩

/-- Who compares the row as it was put back with the mark finds it behind; who compares a later one
owes a verify. -/
theorem Stale.compared {id : Nat} {state : HighWater.Epoch} (stale : Stale row world)
    (refused : Refused row world (.opened state)) : Stale row (HighWater.compared world id state) := by
  unfold HighWater.compared
  rcases refused with rfl | ⟨_, owes⟩
  · rcases stale.mark.compare with behind | ⟨e, foreign⟩
    · rw [behind]
      exact stale.set fun c same => by cases same; trivial
    · rw [foreign]
      exact stale.set nofun
  · split
    · exact stale.set fun c same => by cases same; exact owes
    · exact stale.set fun c same => by cases same; trivial
    · exact stale.set fun c same => by cases same; exact owes
    · exact stale.set nofun

theorem Stale.next {id : Nat} {undisturbed : Bool} {phase : HighWater.Phase} (stale : Stale row world)
    (found : world.calls id = some ⟨phase, undisturbed⟩)
    (taken : HighWater.next world id undisturbed phase = some after) :
    Stale row after ∧ after.granted = world.granted := by
  have refused := stale.calls id _ found
  cases phase with
  | opened state =>
      cases taken
      refine ⟨stale.compared refused, ?_⟩
      unfold HighWater.compared
      split <;> rfl
  | behind =>
      cases taken
      exact ⟨stale.set fun c same => by cases same; trivial, rfl⟩
  | drawing seen => cases taken
  | drawn state =>
      cases taken
      exact ⟨stale.put refused nofun, rfl⟩
  | ahead =>
      cases taken
      have owes : Owes row world.row.requireVerify := ⟨refused.1, rfl⟩
      refine ⟨?_, rfl⟩
      apply stale.move
      · exact fun _ mem => mem
      · exact stale.mark
      · exact .inr owes
      · intro other c at_
        rcases phase_of_set at_ with own | old
        · cases own
          exact .inr owes
        · exact .inl old
  | owing =>
      cases taken
      exact ⟨stale.set fun c same => by cases same; exact refused.1, rfl⟩
  | rewriting state =>
      cases taken
      exact ⟨stale.put refused nofun, rfl⟩
  | level =>
      cases taken
      exact ⟨stale.set fun c same => by cases same; exact refused.2, rfl⟩
  | reserving state =>
      cases taken
      have pending : state.verifyPending = true := refused
      unfold HighWater.reserve
      rw [if_pos pending]
      exact ⟨stale.set nofun, rfl⟩
  | advancing state => exact absurd refused not_false

theorem Stale.step {act : HighWater.Act} (stale : Stale row world)
    (taken : HighWater.step world act = some after) (unsettled : ∀ epoch, act ≠ .verified epoch) :
    Stale row after ∧ after.granted = world.granted := by
  cases act with
  | call id =>
      simp only [HighWater.step] at taken
      split at taken
      · cases taken
        refine ⟨stale.set fun c same => ?_, rfl⟩
        cases same
        rcases stale.stands with same | owes
        · exact .inl same
        · exact .inr ⟨owes, owes⟩
      · cases taken
  | next id =>
      simp only [HighWater.step] at taken
      split at taken
      case h_1 found => exact stale.next found taken
      case h_2 => cases taken
  | draw id epoch =>
      simp only [HighWater.step] at taken
      split at taken
      case h_2 => cases taken
      case h_1 seen undisturbed found =>
        split at taken
        case isFalse => cases taken
        case isTrue fresh =>
          cases taken
          have differs : epoch ≠ row.epoch := fun same => fresh (same ▸ stale.used)
          have owes : Owes row (world.row.newEpoch epoch seen) := ⟨differs, rfl⟩
          refine ⟨?_, rfl⟩
          apply stale.move
          · exact fun _ mem => List.mem_cons_of_mem _ mem
          · exact stale.mark
          · exact .inr owes
          · intro other c at_
            rcases phase_of_set at_ with own | ⟨old, here, same⟩
            · cases own
              exact .inr differs
            · obtain ⟨older, there, also⟩ := phase_of_disturb here
              exact .inl ⟨older, there, same.trans also⟩
  | verified epoch => exact absurd rfl (unsettled epoch)

end Stale

/-- Without a claim nobody becomes a reclaimer, and without a reclaimer nothing is deleted. -/
theorem idle_step {state after : Reclaim.State β} {act : Reclaim.Act β} (idle : state.holders = [])
    (taken : Reclaim.step state act = some after)
    (unclaimed : ∀ id candidate grace now until_ token,
      act ≠ .claim id candidate grace now until_ token) :
    after.holders = [] ∧ deletes state act = [] := by
  have nobody : ∀ id, state.holder id = none := by
    intro id
    rw [Reclaim.State.holder, idle]
    rfl
  cases act with
  | claim id candidate grace now until_ token => exact absurd rfl (unclaimed _ _ _ _ _ _)
  | create format name incarnation now =>
      simp only [Reclaim.step, Reclaim.createStep] at taken
      split at taken
      · cases taken
        exact ⟨idle, rfl⟩
      · cases taken
  | retire incarnation group rows now =>
      simp only [Reclaim.step, Reclaim.retireStep] at taken
      split at taken
      · cases taken
        exact ⟨idle, rfl⟩
      · cases taken
  | pin incarnation draws until_ =>
      simp only [Reclaim.step, Reclaim.pinStep] at taken
      split at taken
      · split at taken
        · cases taken
          exact ⟨idle, rfl⟩
        · cases taken
          exact ⟨idle, rfl⟩
      · cases taken
  | write key body =>
      simp only [Reclaim.step, Reclaim.writeStep] at taken
      split at taken
      · cases taken
        exact ⟨idle, rfl⟩
      · cases taken
  | commit tokens rows enqueued now =>
      simp only [Reclaim.step, Reclaim.commitStep] at taken
      split at taken
      · split at taken
        · cases taken
          exact ⟨idle, rfl⟩
        · cases taken
          exact ⟨idle, rfl⟩
      · cases taken
  | startUpload incarnation upload =>
      simp only [Reclaim.step, Reclaim.startUploadStep] at taken
      split at taken
      · cases taken
        exact ⟨idle, rfl⟩
      · cases taken
  | enqueue keys now =>
      cases taken
      exact ⟨idle, rfl⟩
  | enqueuePrefix key now =>
      cases taken
      exact ⟨idle, rfl⟩
  | due grace now limit =>
      cases taken
      exact ⟨idle, rfl⟩
  | prune grace now limit =>
      cases taken
      exact ⟨idle, rfl⟩
  | newEpoch epoch =>
      cases taken
      exact ⟨idle, rfl⟩
  | _ => simp [Reclaim.step, nobody] at taken

/-- The system since the database was put back: no permit, no batch, no reclaimer, no deletion. -/
structure Fenced (row : HighWater.Epoch) (granted : List HighWater.Grant) (w : World β) : Prop where
  stale : Stale row w.water
  granted : w.water.granted = granted
  batches : ∀ id, w.batches id = none
  holders : w.state.holders = []
  deletions : w.deletions = []

theorem Fenced.step {row : HighWater.Epoch} {granted : List HighWater.Grant} {w after : World β}
    {act : Act β} (fenced : Fenced row granted w) (taken : step w act = some after)
    (unsettled : Unsettled w act after) : Fenced row granted after := by
  cases act with
  | mark act =>
      simp only [Restore.step] at taken
      split at taken
      case isFalse => cases taken
      case isTrue =>
        obtain ⟨water, moved, rfl⟩ := Option.map_eq_some_iff.mp taken
        obtain ⟨stale, same⟩ := fenced.stale.step moved fun epoch eq => unsettled epoch (eq ▸ rfl)
        refine ⟨stale, same.trans fenced.granted, ?_, fenced.holders, fenced.deletions⟩
        intro id
        change permitted w.water water act w.batches id = none
        unfold permitted
        rw [same]
        split
        · rw [if_neg (lt_irrefl _)]
          exact fenced.batches id
        · exact fenced.batches id
  | reclaim act =>
      simp only [Restore.step] at taken
      split at taken
      case isFalse => cases taken
      case isTrue allowed =>
        obtain ⟨state, moved, rfl⟩ := Option.map_eq_some_iff.mp taken
        have unclaimed : ∀ id candidate grace now until_ token,
            act ≠ .claim id candidate grace now until_ token := by
          rintro id candidate grace now until_ token rfl
          simp [enabled, fenced.batches id] at allowed
        obtain ⟨holders, deleted⟩ := idle_step fenced.holders moved unclaimed
        refine ⟨fenced.stale, fenced.granted, fenced.batches, holders, ?_⟩
        change deletes w.state act ++ w.deletions = []
        rw [deleted, fenced.deletions]
        rfl
  | done id =>
      simp only [Restore.step] at taken
      split at taken
      · cases taken
        refine ⟨fenced.stale, fenced.granted, ?_, fenced.holders, fenced.deletions⟩
        intro other
        change Function.update w.batches id none other = none
        by_cases own : other = id
        · subst own
          exact Function.update_self ..
        · rw [Function.update_of_ne own]
          exact fenced.batches other
      · cases taken

/-! ### Runs -/

/-- What is claimed of a database that is put back. -/
structure Detected (kept now : World β) : Prop where
  /-- `guard` does not report it level. -/
  guard : guard (restore kept now) ≠ .ok .level
  /-- Nothing is granted and nothing deleted as long as no verify ends. -/
  fenced : ∀ acts after, Run step Unsettled (restore kept now) acts after →
    after.deletions = [] ∧ after.water.granted = now.water.granted

/-- In every run, with a database kept at any moment of it: as long as no mark is written over another
call's work, and what the kept database needs is deleted only by batches permitted after it was kept,
putting the database back when at least one such object is gone is detected, and nothing is deleted
until its epoch is settled. -/
theorem timely_deletions_are_detected {row : HighWater.Epoch} {mark : Option HighWater.Mark}
    {rows : List Reclaim.Ref} {tables : Reclaim.Tables} {objects : Objects β} {before since : List (Act β)}
    {kept now : World β} (run : Run step Ordered (start row mark rows tables objects) before kept)
    (later : Run step (Timely kept) (snapshot kept) since now) {key : Text}
    (gone : key ∈ now.deletions) (needed : Needed kept key) : Detected kept now := by
  have granted : Granted kept := by
    apply run.invariant Granted granted_start
    intro w act after granted taken ordered
    exact granted.step taken ordered
  have audited : Audited kept now := by
    apply later.invariant (Audited kept) granted.audited
    intro w act after audited taken timely
    exact audited.step taken timely
  have beyond := audited.beyond gone needed
  constructor
  · have compared : guard (restore kept now) = .ok .databaseBehind ∨
        ∃ e, guard (restore kept now) = .error e := beyond.compare
    rcases compared with behind | ⟨e, foreign⟩
    · rw [behind]
      nofun
    · rw [foreign]
      nofun
  · intro acts after unsettled
    have fenced : Fenced kept.water.row now.water.granted after := by
      apply unsettled.invariant (Fenced kept.water.row now.water.granted)
      · exact ⟨⟨audited.used, .inl rfl, beyond, nofun⟩, rfl, fun _ => rfl, rfl, rfl⟩
      · intro w act after fenced taken unsettled
        exact fenced.step taken unsettled
    exact ⟨fenced.deletions, fenced.granted⟩

/-! ### Two restores -/

theorem needed_iff {kept : World β} {key : Text} :
    Needed kept key ↔ Referenced kept.state.rows key := by
  constructor
  · rintro (referenced | ⟨logical, reused⟩)
    · exact referenced
    · obtain ⟨row, found, rfl⟩ := Option.map_eq_some_iff.mp reused
      exact Reclaim.referenced_of_key (List.mem_of_find?_eq_some found)
  · exact .inl

instance (kept : World β) (key : Text) : Decidable (Needed kept key) :=
  decidable_of_iff _ needed_iff.symm

instance (w : World β) (act : Act β) (after : World β) : Decidable (Ordered w act after) := by
  unfold Ordered
  apply @Act.casesOn _ _ act <;> intros <;> infer_instance

instance (kept w : World β) (act : Act β) (after : World β) : Decidable (Timely kept w act after) := by
  unfold Timely
  apply @Act.casesOn _ _ act
  · exact fun _ => inferInstance
  · intro act
    apply @Reclaim.Act.casesOn _ _ act <;> intros <;> infer_instance
  · exact fun _ => inferInstance

/-- A database and a store in which nothing has happened yet. -/
def migrated : World Unit := start HighWater.migrated none [] Reclaim.noTables []

/-- A file is published, and batch 1 is permitted. -/
def publishedAndPermitted : List (Act Unit) :=
  .reclaim (.create .npm "web".toList "i".toList 0) :: Reclaim.publish.map .reclaim ++
    (HighWater.permit 1).map .mark

/-- The file's row is deleted, and a batch reclaims its object. -/
def unpublishedAndReclaimed (id : Nat) : List (Act Unit) :=
  [.reclaim (.commit [] [] [Reclaim.published] 2000000000), .reclaim (.due 0 3000000000 10),
   .reclaim (.claim id ⟨Reclaim.published, false⟩ 0 3000000000 4000000000 "c".toList),
   .reclaim (.delete id)]

/-- The file is needed by what was kept, and deleted since. -/
def missing (kept now : World Unit) : Bool :=
  decide (Needed kept Reclaim.published) && now.deletions.contains Reclaim.published

/-- The batch that reclaims the file is permitted after the database was kept. -/
theorem later_batch_is_detected :
    ∃ kept now : World Unit, Run step Ordered migrated publishedAndPermitted kept ∧
      Run step (Timely kept) (snapshot kept)
        ((HighWater.permit 2).map .mark ++ unpublishedAndReclaimed 2) now ∧
      Reclaim.published ∈ now.deletions ∧ Needed kept Reclaim.published ∧ Detected kept now := by
  obtain ⟨kept, run, test⟩ := Run.of_test step Ordered migrated publishedAndPermitted
    (fun kept => (exec (checked step (Timely kept)) (snapshot kept)
      ((HighWater.permit 2).map .mark ++ unpublishedAndReclaimed 2)).any (missing kept))
    (by decide +kernel)
  obtain ⟨now, later, gone⟩ := Run.of_test step (Timely kept) (snapshot kept) _ _ test
  simp only [missing, Bool.and_eq_true, decide_eq_true_eq, List.contains_iff_mem] at gone
  exact ⟨kept, now, run, later, gone.2, gone.1, timely_deletions_are_detected run later gone.2 gone.1⟩

/-- The batch that reclaims the file was permitted just before the database was kept. -/
theorem batch_under_way_is_not_detected :
    ∃ kept now : World Unit, Run step Any migrated publishedAndPermitted kept ∧
      Run step Any (snapshot kept) (unpublishedAndReclaimed 1) now ∧
      Reclaim.published ∈ now.deletions ∧ Needed kept Reclaim.published ∧
      guard (restore kept now) = .ok .level ∧ ¬ Detected kept now := by
  obtain ⟨kept, run, test⟩ := Run.of_test step Any migrated publishedAndPermitted
    (fun kept => (exec (checked step Any) (snapshot kept) (unpublishedAndReclaimed 1)).any fun now =>
      missing kept now && (guard (restore kept now)).toOption == some .level) (by decide +kernel)
  obtain ⟨now, later, gone⟩ := Run.of_test step Any (snapshot kept) _ _ test
  simp only [missing, Bool.and_eq_true, decide_eq_true_eq, List.contains_iff_mem] at gone
  obtain ⟨⟨needed, deleted⟩, level⟩ := gone
  have reported : guard (restore kept now) = .ok .level := by
    cases found : guard (restore kept now) with
    | error e => simp [found, Except.toOption] at level
    | ok standing => simpa [found, Except.toOption] using level
  exact ⟨kept, now, run, later, deleted, needed, reported, fun detected => detected.guard reported⟩

end OpenCargo.Restore
