/-
Module: OpenCargo.HighWater.Safety
Purpose: What the high-water mark keeps along every interleaving of its calls: the counters it grants
  are distinct, and, as long as no call writes the mark over what another one did since it read it, the
  mark of the current epoch never goes back and stays at or above every granted counter.
Trusted boundary: none
Main exports: Kept, Sound, Sound.step, unoverwritten_mark_never_goes_back
-/
import OpenCargo.HighWater.Calls

namespace OpenCargo.HighWater

open OpenCargo.Lib

/-! ### What is claimed, and the condition it needs -/

/-- The mark object stands at `counter` or above, under this epoch. -/
def World.Marked (world : World) (epoch : Text) (counter : Nat) : Prop :=
  ∃ mark ∈ world.mark, mark.epoch = epoch ∧ counter ≤ mark.counter

/-- One step keeps the mark: while the epoch is unchanged the mark of that epoch does not go back, it
stands at or above every counter granted under it, and no counter is granted twice. -/
def Kept (before : World) (_ : Act) (after : World) : Prop :=
  (before.row.epoch = after.row.epoch →
    ∀ mark ∈ before.mark, mark.epoch = before.row.epoch → after.Marked mark.epoch mark.counter) ∧
  (∀ grant ∈ after.granted, grant.epoch = after.row.epoch →
    after.Marked grant.epoch grant.counter) ∧
  (after.granted.map Grant.counter).Nodup

/-- The phases whose next step writes the mark. -/
def Phase.writes : Phase → Bool
  | .drawn _ => true
  | .rewriting _ => true
  | .reserving state => !state.verifyPending
  | _ => false

/-- No mark is written over another call's work: a call that writes the mark does so with no other
call having written the mark, advanced the counter or drawn an epoch since it last read the mark. -/
def Unoverwritten (world : World) (act : Act) (_ : World) : Prop :=
  match act with
  | .next id => ∀ call, world.calls id = some call → call.phase.writes → call.undisturbed
  | _ => True

/-! ### The invariant -/

/-- A row that was read: it is of an epoch that was drawn, and the counter of that epoch has not gone
back since. -/
structure Seen (world : World) (state : Epoch) : Prop where
  used : state.epoch ∈ world.used
  below : state.epoch = world.row.epoch → state.counter ≤ world.row.counter

/-- A row that still is the current one, as far as the mark can tell. -/
structure Current (world : World) (state : Epoch) : Prop where
  epoch : state.epoch = world.row.epoch
  counter : state.counter = world.row.counter

/-- The mark, where it is of the current epoch, stands at `bound` at most. -/
def World.MarkAtMost (world : World) (bound : Nat) : Prop :=
  ∀ mark ∈ world.mark, mark.epoch = world.row.epoch → mark.counter ≤ bound

/-- The mark, where it is of the current epoch, is behind the row: what `StorageBehind` found. -/
def World.MarkBehind (world : World) : Prop :=
  ∀ mark ∈ world.mark, mark.epoch = world.row.epoch → mark.counter < world.row.counter

/-- What a call that nobody disturbed knows since it read the mark. -/
def Phase.Fresh (world : World) : Phase → Prop
  | .drawn state => Current world state ∧ ∀ mark ∈ world.mark, mark.epoch ≠ state.epoch
  | .ahead => world.MarkBehind
  | .owing => world.MarkBehind
  | .rewriting state => Current world state ∧ world.MarkBehind
  | .level => world.MarkAtMost world.row.counter
  | .reserving state => Current world state ∧ world.MarkAtMost world.row.counter
  | _ => True

/-- A call that has written the mark ahead of `state` can still advance to it only if the mark is
there. -/
def World.Reserved (world : World) (state : Epoch) : Prop :=
  state.epoch = world.row.epoch → world.row.counter ≤ state.counter →
    world.Marked state.epoch (state.counter + 1)

/-- What a call knows whatever the others did. -/
def Phase.Lasting (world : World) : Phase → Prop
  | .opened state => Seen world state
  | .drawn state => Seen world state
  | .rewriting state => Seen world state
  | .reserving state => Seen world state
  | .advancing state => Seen world state ∧ world.Reserved state
  | _ => True

structure Call.Sound (world : World) (call : Call) : Prop where
  lasting : call.phase.Lasting world
  fresh : call.undisturbed → call.phase.Fresh world

structure Sound (world : World) : Prop where
  current : world.row.epoch ∈ world.used
  marked : ∀ mark ∈ world.mark, mark.epoch ∈ world.used
  calls : ∀ id call, world.calls id = some call → call.Sound world
  below : ∀ grant ∈ world.granted, grant.counter ≤ world.row.counter
  used : ∀ grant ∈ world.granted, grant.epoch ∈ world.used
  /-- The mark is at or above every counter granted so far, under whatever epoch. -/
  covered : ∀ grant ∈ world.granted, ∃ mark ∈ world.mark, grant.counter ≤ mark.counter ∧
    (grant.epoch = world.row.epoch → mark.epoch = world.row.epoch)
  distinct : (world.granted.map Grant.counter).Nodup

theorem sound_start (row : Epoch) (mark : Option Mark) : Sound (start row mark) where
  current := by simp [start]
  marked := by
    intro m mem
    have listed : m ∈ mark.toList := Option.mem_toList.mpr mem
    exact List.mem_cons_of_mem _ (List.mem_map_of_mem listed)
  calls := by
    intro id call found
    cases found
  below := by simp [start]
  used := by simp [start]
  covered := by simp [start]
  distinct := by simp [start]

/-! ### Steps that leave the mark, the counter and the epoch alone -/

/-- Two worlds no call can tell apart by the mark, the counter and the epoch. -/
structure Same (world after : World) : Prop where
  epoch : after.row.epoch = world.row.epoch
  counter : after.row.counter = world.row.counter
  mark : after.mark = world.mark
  used : after.used = world.used
  granted : after.granted = world.granted

/-- What lasts is carried over by what a step does to the rows that were read and to the counters that
were reserved. -/
theorem Phase.Lasting.carry {world after : World} {phase : Phase} (lasting : phase.Lasting world)
    (seen : ∀ state, Seen world state → Seen after state)
    (reserved : ∀ state, Seen world state → world.Reserved state → after.Reserved state) :
    phase.Lasting after := by
  cases phase with
  | opened state => exact seen state lasting
  | drawn state => exact seen state lasting
  | rewriting state => exact seen state lasting
  | reserving state => exact seen state lasting
  | advancing state => exact ⟨seen state lasting.1, reserved state lasting.1 lasting.2⟩
  | _ => trivial

theorem Phase.Lasting.same {world after : World} {phase : Phase} (same : Same world after)
    (lasting : phase.Lasting world) : phase.Lasting after := by
  apply lasting.carry
  · intro state h
    refine ⟨?_, ?_⟩
    · rw [same.used]
      exact h.used
    · rw [same.epoch, same.counter]
      exact h.below
  · intro state _ reserved
    unfold World.Reserved World.Marked at reserved ⊢
    rw [same.epoch, same.counter, same.mark]
    exact reserved

theorem Phase.Fresh.same {world after : World} {phase : Phase} (same : Same world after)
    (fresh : phase.Fresh world) : phase.Fresh after := by
  have current : ∀ state, Current world state → Current after state := by
    intro state h
    refine ⟨?_, ?_⟩
    · rw [same.epoch]
      exact h.epoch
    · rw [same.counter]
      exact h.counter
  have behind : world.MarkBehind → after.MarkBehind := by
    unfold World.MarkBehind
    rw [same.epoch, same.counter, same.mark]
    exact fun h => h
  have atMost : world.MarkAtMost world.row.counter → after.MarkAtMost after.row.counter := by
    unfold World.MarkAtMost
    rw [same.epoch, same.counter, same.mark]
    exact fun h => h
  cases phase with
  | drawn state =>
      refine ⟨current state fresh.1, ?_⟩
      rw [same.mark]
      exact fresh.2
  | ahead => exact behind fresh
  | owing => exact behind fresh
  | rewriting state => exact ⟨current state fresh.1, behind fresh.2⟩
  | level => exact atMost fresh
  | reserving state => exact ⟨current state fresh.1, atMost fresh.2⟩
  | _ => trivial

theorem Call.Sound.same {world after : World} {call : Call} (same : Same world after)
    (sound : call.Sound world) : call.Sound after where
  lasting := sound.lasting.same same
  fresh := fun undisturbed => (sound.fresh undisturbed).same same

theorem calls_set {world : World} {calls : Nat → Option Call} {id : Nat} {call : Option Call}
    (others : ∀ other c, other ≠ id → calls other = some c → c.Sound world)
    (moved : ∀ c ∈ call, c.Sound world) (other : Nat) (c : Call)
    (found : Function.update calls id call other = some c) : c.Sound world := by
  by_cases same : other = id
  · subst same
    rw [Function.update_self] at found
    exact moved c found
  · rw [Function.update_of_ne same] at found
    exact others other c same found

/-- A step that moves one call and neither the mark nor the counter nor the epoch. -/
theorem Sound.quiet {world : World} {row : Epoch} {id : Nat} {call : Option Call}
    (sound : Sound world) (epoch : row.epoch = world.row.epoch)
    (counter : row.counter = world.row.counter)
    (moved : ∀ c ∈ call, c.Sound world) : Sound ({ world with row := row }.set id call) := by
  have same : Same world ({ world with row := row }.set id call) := ⟨epoch, counter, rfl, rfl, rfl⟩
  refine
    { current := ?_
      marked := sound.marked
      calls := ?_
      below := ?_
      used := sound.used
      covered := ?_
      distinct := sound.distinct }
  · rw [same.epoch]
    exact sound.current
  · apply calls_set
    · intro other c _ found
      exact (sound.calls other c found).same same
    · intro c mem
      exact (moved c mem).same same
  · rw [same.counter]
    exact sound.below
  · rw [same.epoch]
    exact sound.covered

theorem Sound.set {world : World} {id : Nat} {call : Option Call} (sound : Sound world)
    (moved : ∀ c ∈ call, c.Sound world) : Sound (world.set id call) :=
  sound.quiet rfl rfl moved

/-! ### Steps that disturb the other calls -/

theorem disturbed_calls {world : World} {after : World} {id : Nat}
    (others : ∀ other c, world.calls other = some c → c.phase.Lasting after) (other : Nat) (c : Call)
    (apart : other ≠ id) (found : (world.disturb id).calls other = some c) : c.Sound after := by
  simp only [World.disturb, if_neg apart, Option.map_eq_some_iff] at found
  obtain ⟨call, found, rfl⟩ := found
  refine ⟨others other call found, ?_⟩
  intro impossible
  cases impossible

theorem Sound.put {world : World} {id : Nat} {mark : Mark} {call : Option Call} (sound : Sound world)
    (epoch : mark.epoch = world.row.epoch) (counter : world.row.counter ≤ mark.counter)
    (raised : ∀ counter, world.row.counter < counter → world.Marked world.row.epoch counter →
      counter ≤ world.row.counter + 1 → counter ≤ mark.counter)
    (moved : ∀ c ∈ call, c.Sound (world.put id mark)) : Sound ((world.put id mark).set id call) := by
  have alike : Same (world.put id mark) ((world.put id mark).set id call) := ⟨rfl, rfl, rfl, rfl, rfl⟩
  refine
    { current := sound.current
      marked := ?_
      calls := ?_
      below := sound.below
      used := sound.used
      covered := ?_
      distinct := sound.distinct }
  · intro m mem
    cases mem
    rw [epoch]
    exact sound.current
  · apply calls_set
    · intro other c apart found
      have lasting : ∀ o d, world.calls o = some d → d.phase.Lasting (world.put id mark) := by
        intro o d known
        apply (sound.calls o d known).lasting.carry
        · exact fun state h => ⟨h.used, h.below⟩
        · intro state h reserved same late
          change world.row.counter ≤ state.counter at late
          have below := h.below same
          have before := reserved same late
          rw [same] at before
          refine ⟨mark, rfl, epoch.trans same.symm, raised _ ?_ before ?_⟩
          · omega
          · omega
      exact (disturbed_calls lasting other c apart found).same alike
    · intro c mem
      exact (moved c mem).same alike
  · intro grant mem
    exact ⟨mark, rfl, le_trans (sound.below grant mem) counter, fun _ => epoch⟩

/-- `write` of a row that is still current, over a mark that is behind it or of another epoch. -/
theorem Sound.rewrite {world : World} {id : Nat} {state : Epoch} (sound : Sound world)
    (current : Current world state) (behind : world.MarkAtMost world.row.counter) :
    Sound ((world.put id (state.mark 0)).set id none) := by
  apply sound.put current.epoch
  · exact le_of_eq current.counter.symm
  · rintro counter above ⟨mark, mem, epoch, reached⟩ _
    have bound := behind mark mem epoch
    omega
  · intro c mem
    cases mem

theorem Sound.reserve {world : World} {id : Nat} {state : Epoch} {undisturbed : Bool}
    (sound : Sound world) (seen : Seen world state)
    (current : state.verifyPending = false → Current world state) :
    Sound (reserve world id state undisturbed) := by
  unfold HighWater.reserve
  split
  case isTrue =>
    apply sound.set
    intro c mem
    cases mem
  case isFalse pending =>
    have now := current (by simpa using pending)
    apply sound.put now.epoch
    · have same := now.counter
      simp only [Epoch.mark]
      omega
    · intro counter _ _ near
      have same := now.counter
      simp only [Epoch.mark]
      omega
    · rintro c ⟨⟩
      refine ⟨⟨⟨seen.used, seen.below⟩, ?_⟩, fun _ => trivial⟩
      intro _ _
      exact ⟨_, rfl, rfl, le_refl _⟩

theorem Sound.draw {world : World} {id seen : Nat} {epoch : Text} {undisturbed : Bool}
    (sound : Sound world) (fresh : epoch ∉ world.used) :
    Sound ({ world.disturb id with
      row := world.row.newEpoch epoch seen, used := epoch :: world.used }.set id
        (some ⟨.drawn (world.row.newEpoch epoch seen), undisturbed⟩)) := by
  have unread : ∀ state, Seen world state → state.epoch ≠ epoch := by
    intro state h same
    apply fresh
    rw [← same]
    exact h.used
  refine
    { current := List.mem_cons_self
      marked := fun m mem => List.mem_cons_of_mem _ (sound.marked m mem)
      calls := ?_
      below := ?_
      used := fun grant mem => List.mem_cons_of_mem _ (sound.used grant mem)
      covered := ?_
      distinct := sound.distinct }
  · apply calls_set
    · intro other c apart found
      refine disturbed_calls ?_ other c apart found
      intro o d known
      apply (sound.calls o d known).lasting.carry
      · exact fun state h =>
          ⟨List.mem_cons_of_mem epoch h.used, fun same => absurd same (unread state h)⟩
      · exact fun state h _ same => absurd same (unread state h)
    · rintro c ⟨⟩
      refine ⟨⟨List.mem_cons_self, fun _ => le_refl _⟩, fun _ => ⟨⟨rfl, rfl⟩, ?_⟩⟩
      intro mark mem same
      apply fresh
      change mark.epoch = epoch at same
      rw [← same]
      exact sound.marked mark mem
  · intro grant mem
    exact le_trans (sound.below grant mem) (Nat.le_max_left _ _)
  · intro grant mem
    obtain ⟨mark, found, above, _⟩ := sound.covered grant mem
    refine ⟨mark, found, above, ?_⟩
    intro same
    change grant.epoch = epoch at same
    apply absurd (sound.used grant mem)
    rw [same]
    exact fresh

/-- `advance`: a counter that is recorded is one ahead of the row, and the mark was written first. -/
theorem Sound.advance {world : World} {id : Nat} {state : Epoch} (sound : Sound world)
    (lasting : (Phase.advancing state).Lasting world) : Sound (advance world id state) := by
  unfold HighWater.advance
  obtain ⟨seen, reserved⟩ := lasting
  split
  case h_2 =>
    apply sound.set
    intro c mem
    cases mem
  case h_1 row moved =>
    simp only [Epoch.advance] at moved
    split at moved
    case isFalse => cases moved
    case isTrue due =>
      obtain ⟨epoch, counter, _⟩ := due
      cases moved
      -- the row has not passed what the call read, so the counter fits its column
      have below := seen.below epoch.symm
      have exactly : bindCounter (state.counter + 1) = state.counter + 1 := by
        unfold bindCounter at counter ⊢
        omega
      rw [exactly] at counter ⊢
      have next : world.row.counter = state.counter := by omega
      obtain ⟨mark, found, same, above⟩ := reserved epoch.symm (by omega)
      refine
        { current := sound.current
          marked := sound.marked
          calls := ?_
          below := ?_
          used := ?_
          covered := ?_
          distinct := ?_ }
      · apply calls_set
        · intro other c apart met
          refine disturbed_calls ?_ other c apart met
          intro o d known
          apply (sound.calls o d known).lasting.carry
          · intro s h
            refine ⟨h.used, fun same => le_trans (h.below same) ?_⟩
            change world.row.counter ≤ state.counter + 1
            omega
          · intro s h _ same late
            have bound := h.below same
            change state.counter + 1 ≤ s.counter at late
            omega
        · intro c mem
          cases mem
      · intro grant mem
        rcases List.mem_cons.mp mem with rfl | mem
        · exact le_refl _
        · have bound := sound.below grant mem
          change grant.counter ≤ state.counter + 1
          omega
      · intro grant mem
        rcases List.mem_cons.mp mem with rfl | mem
        · exact seen.used
        · exact sound.used grant mem
      · intro grant mem
        rcases List.mem_cons.mp mem with rfl | mem
        · refine ⟨mark, found, above, fun _ => ?_⟩
          rw [same, epoch]
        · exact sound.covered grant mem
      · simp only [List.map_cons, List.nodup_cons]
        refine ⟨?_, sound.distinct⟩
        intro again
        obtain ⟨grant, mem, equal⟩ := List.mem_map.mp again
        have bound := sound.below grant mem
        omega

/-! ### What `compare` found -/

theorem compare_level {state : Epoch} {mark : Option Mark} (found : compare state mark = .ok .level) :
    ∀ m ∈ mark, m.epoch = state.epoch ∧ m.counter = state.counter := by
  rintro m ⟨⟩
  simp only [compare] at found
  split at found
  · cases found
  · split at found
    · cases found
    · split at found
      · cases found
      case isFalse otherwise _ =>
        simp only [not_or, ne_eq, not_not, not_lt, gt_iff_lt] at *
        exact ⟨otherwise.1, by omega⟩

theorem compare_storageBehind {state : Epoch} {mark : Option Mark}
    (found : compare state mark = .ok .storageBehind) :
    ∀ m ∈ mark, m.epoch = state.epoch ∧ m.counter < state.counter := by
  rintro m ⟨⟩
  simp only [compare] at found
  split at found
  · cases found
  · split at found
    · cases found
    · split at found
      case isTrue otherwise less =>
        simp only [not_or, ne_eq, not_not] at otherwise
        exact ⟨otherwise.1, less⟩
      · cases found

theorem Sound.compared {world : World} {id : Nat} {state : Epoch} (sound : Sound world)
    (seen : Seen world state) : Sound (compared world id state) := by
  unfold HighWater.compared
  split
  case h_1 found =>
    apply sound.set
    rintro c ⟨⟩
    refine ⟨trivial, fun _ => ?_⟩
    intro mark mem epoch
    obtain ⟨same, counter⟩ := compare_level found mark mem
    have below := seen.below (same.symm.trans epoch)
    omega
  case h_2 =>
    apply sound.set
    rintro c ⟨⟩
    exact ⟨trivial, fun _ => trivial⟩
  case h_3 found =>
    apply sound.set
    rintro c ⟨⟩
    refine ⟨trivial, fun _ => ?_⟩
    intro mark mem epoch
    obtain ⟨same, counter⟩ := compare_storageBehind found mark mem
    have below := seen.below (same.symm.trans epoch)
    omega
  case h_4 =>
    apply sound.set
    intro c mem
    cases mem

/-! ### Steps and runs -/

theorem World.MarkBehind.atMost {world : World} (behind : world.MarkBehind) :
    world.MarkAtMost world.row.counter :=
  fun mark mem epoch => le_of_lt (behind mark mem epoch)

theorem Sound.seen {world : World} (sound : Sound world) : Seen world world.row :=
  ⟨sound.current, fun _ => le_refl _⟩

theorem Sound.next {world after : World} {id : Nat} {phase : Phase} {undisturbed : Bool}
    (sound : Sound world) (found : world.calls id = some ⟨phase, undisturbed⟩)
    (taken : next world id undisturbed phase = some after)
    (unoverwritten : phase.writes → undisturbed) : Sound after := by
  obtain ⟨lasting, fresh⟩ := sound.calls id _ found
  cases phase with
  | opened state =>
      cases taken
      exact sound.compared lasting
  | behind =>
      cases taken
      apply sound.set
      rintro c ⟨⟩
      exact ⟨trivial, fun _ => trivial⟩
  | drawing seen => cases taken
  | drawn state =>
      cases taken
      obtain ⟨current, unmarked⟩ := fresh (unoverwritten rfl)
      apply sound.rewrite current
      intro mark mem epoch
      exact absurd (epoch.trans current.epoch.symm) (unmarked mark mem)
  | ahead =>
      cases taken
      apply sound.quiet
      · rfl
      · rfl
      · rintro c ⟨⟩
        exact ⟨trivial, fresh⟩
  | owing =>
      cases taken
      apply sound.set
      rintro c ⟨⟩
      exact ⟨sound.seen, fun quiet => ⟨⟨rfl, rfl⟩, fresh quiet⟩⟩
  | rewriting state =>
      cases taken
      obtain ⟨current, behind⟩ := fresh (unoverwritten rfl)
      exact sound.rewrite current behind.atMost
  | level =>
      cases taken
      apply sound.set
      rintro c ⟨⟩
      exact ⟨sound.seen, fun quiet => ⟨⟨rfl, rfl⟩, fresh quiet⟩⟩
  | reserving state =>
      cases taken
      apply sound.reserve lasting
      intro settled
      exact (fresh (unoverwritten (by simp [Phase.writes, settled]))).1
  | advancing state =>
      cases taken
      exact sound.advance lasting

theorem Sound.step {world after : World} {act : Act} (sound : Sound world)
    (taken : step world act = some after) (unoverwritten : Unoverwritten world act after) :
    Sound after := by
  cases act with
  | call id =>
      simp only [HighWater.step] at taken
      split at taken
      case isTrue =>
        cases taken
        apply sound.set
        rintro c ⟨⟩
        exact ⟨sound.seen, fun _ => trivial⟩
      case isFalse => cases taken
  | next id =>
      simp only [HighWater.step] at taken
      split at taken
      case h_1 phase undisturbed found =>
        exact sound.next found taken (unoverwritten _ found)
      case h_2 => cases taken
  | draw id epoch =>
      simp only [HighWater.step] at taken
      split at taken
      case h_1 seen undisturbed found =>
        split at taken
        case isTrue fresh =>
          cases taken
          exact sound.draw fresh
        case isFalse => cases taken
      case h_2 => cases taken
  | verified epoch =>
      cases taken
      have untouched : Sound ({ world with row := world.row.verified epoch }.set 0
          (world.calls 0)) := by
        apply sound.quiet
        · unfold Epoch.verified
          split <;> rfl
        · unfold Epoch.verified
          split <;> rfl
        · exact fun c mem => sound.calls 0 c mem
      rw [World.set, Function.update_eq_self] at untouched
      exact untouched

/-- The mark of the current epoch does not go back in a step. -/
def Raised (world after : World) : Prop :=
  ∀ mark ∈ world.mark, mark.epoch = world.row.epoch → after.Marked mark.epoch mark.counter

theorem raised_of_same_mark {world after : World} (same : after.mark = world.mark) :
    Raised world after := by
  intro mark mem _
  refine ⟨mark, ?_, rfl, le_refl _⟩
  rw [same]
  exact mem

theorem raised_of_put {world after : World} {state : Epoch} {ahead : Nat}
    (written : after.mark = some (state.mark ahead)) (current : Current world state)
    (atMost : world.MarkAtMost world.row.counter) : Raised world after := by
  intro mark mem epoch
  refine ⟨state.mark ahead, written, ?_, ?_⟩
  · rw [epoch]
    exact current.epoch
  · have bound := atMost mark mem epoch
    have same := current.counter
    simp only [Epoch.mark]
    omega

theorem Sound.raised_next {world after : World} {id : Nat} {phase : Phase} {undisturbed : Bool}
    (sound : Sound world) (found : world.calls id = some ⟨phase, undisturbed⟩)
    (taken : HighWater.next world id undisturbed phase = some after)
    (unoverwritten : phase.writes → undisturbed) : Raised world after := by
  obtain ⟨_, fresh⟩ := sound.calls id _ found
  cases phase with
  | drawn state =>
      cases taken
      obtain ⟨current, unmarked⟩ := fresh (unoverwritten rfl)
      apply raised_of_put rfl current
      intro mark mem epoch
      exact absurd (epoch.trans current.epoch.symm) (unmarked mark mem)
  | rewriting state =>
      cases taken
      obtain ⟨current, behind⟩ := fresh (unoverwritten rfl)
      exact raised_of_put rfl current behind.atMost
  | reserving state =>
      cases taken
      unfold HighWater.reserve
      split
      case isTrue => exact raised_of_same_mark rfl
      case isFalse settled =>
        obtain ⟨current, atMost⟩ := fresh (unoverwritten (by simpa [Phase.writes] using settled))
        exact raised_of_put rfl current atMost
  | opened state =>
      cases taken
      unfold HighWater.compared
      split <;> exact raised_of_same_mark rfl
  | advancing state =>
      cases taken
      unfold HighWater.advance
      split <;> exact raised_of_same_mark rfl
  | drawing seen => cases taken
  | behind =>
      cases taken
      exact raised_of_same_mark rfl
  | ahead =>
      cases taken
      exact raised_of_same_mark rfl
  | owing =>
      cases taken
      exact raised_of_same_mark rfl
  | level =>
      cases taken
      exact raised_of_same_mark rfl

theorem Sound.raised {world after : World} {act : Act} (sound : Sound world)
    (taken : HighWater.step world act = some after)
    (unoverwritten : Unoverwritten world act after) : Raised world after := by
  cases act with
  | next id =>
      simp only [HighWater.step] at taken
      split at taken
      case h_1 phase undisturbed found =>
        exact sound.raised_next found taken (unoverwritten _ found)
      case h_2 => cases taken
  | call id =>
      simp only [HighWater.step] at taken
      split at taken
      · cases taken
        exact raised_of_same_mark rfl
      · cases taken
  | draw id epoch =>
      simp only [HighWater.step] at taken
      split at taken
      · split at taken
        · cases taken
          exact raised_of_same_mark rfl
        · cases taken
      · cases taken
  | verified epoch =>
      cases taken
      exact raised_of_same_mark rfl

theorem Sound.kept {before after : World} {act : Act} (sound : Sound after)
    (raised : Raised before after) : Kept before act after := by
  refine ⟨fun _ => raised, ?_, sound.distinct⟩
  intro grant mem epoch
  obtain ⟨mark, found, above, same⟩ := sound.covered grant mem
  exact ⟨mark, found, (same epoch).trans epoch.symm, above⟩

/-- In every run in which no call writes the mark over another call's work, from any row and any mark:
while the epoch is unchanged its mark never goes back, it stays at or above every counter granted under
it, and no counter is granted twice. -/
theorem unoverwritten_mark_never_goes_back {row : Epoch} {mark : Option Mark} {acts : List Act}
    {world : World} (run : Run step Unoverwritten (start row mark) acts world) :
    Run step Kept (start row mark) acts world := by
  refine run.strengthen Sound (sound_start row mark) ?_
  intro before act after sound taken unoverwritten
  have next := sound.step taken unoverwritten
  exact ⟨next, next.kept (sound.raised taken unoverwritten)⟩

instance (world : World) (act : Act) (after : World) :
    Decidable (Unoverwritten world act after) :=
  match act with
  | .next id => inferInstanceAs
      (Decidable (∀ call ∈ world.calls id, call.phase.writes → call.undisturbed))
  | .call _ => .isTrue trivial
  | .draw _ _ => .isTrue trivial
  | .verified _ => .isTrue trivial

/-- The row a migration leaves, as far as the mark reads it. -/
def migrated : Epoch where
  installation := "i".toList
  epoch := "e".toList
  counter := 0
  verifyPending := false

/-- One call of `permit` from its first step to its last, with nobody in between. -/
def permit (id : Nat) : List Act := [.call id, .next id, .next id, .next id, .next id]

/-- Two calls one after the other meet the condition, and each is granted a counter. -/
theorem orderly_permits_keep_mark :
    ∃ world, Run step Unoverwritten (start migrated none) (permit 1 ++ permit 2) world ∧
      world.granted = [⟨migrated.epoch, 2⟩, ⟨migrated.epoch, 1⟩] ∧
      Run step Kept (start migrated none) (permit 1 ++ permit 2) world := by
  obtain ⟨world, run, granted⟩ := Run.of_test step Unoverwritten (start migrated none)
    (permit 1 ++ permit 2)
    (fun world => world.granted == [⟨migrated.epoch, 2⟩, ⟨migrated.epoch, 1⟩]) (by decide +kernel)
  exact ⟨world, run, by simpa using granted, unoverwritten_mark_never_goes_back run⟩

/-! ### A mark that is written over -/

/-- Call 0 stops right before `reserve` writes the mark; calls 1 and 2 are granted the counters 1 and 2;
then call 0 writes the mark it had prepared. -/
def overwritten : List Act :=
  [.call 0, .next 0, .next 0] ++ permit 1 ++ permit 2 ++ [.next 0]

/-- The state `overwritten` ends in: 2 is granted, and the mark is back at 1. -/
def lowered (world : World) : Bool :=
  world.row.epoch == migrated.epoch && world.granted.contains ⟨migrated.epoch, 2⟩ &&
    world.mark == some ⟨migrated.installation, migrated.epoch, 1⟩

theorem overwritten_mark_falls_below_grant :
    ∃ world, Run step Any (start migrated none) overwritten world ∧
      ⟨migrated.epoch, 2⟩ ∈ world.granted ∧
      world.mark = some ⟨migrated.installation, migrated.epoch, 1⟩ ∧
      ¬ Run step Kept (start migrated none) overwritten world := by
  obtain ⟨world, run, test⟩ := Run.of_test step Any (start migrated none) overwritten lowered
    (by decide +kernel)
  simp only [lowered, Bool.and_eq_true, beq_iff_eq, List.contains_iff_mem] at test
  obtain ⟨⟨epoch, granted⟩, mark⟩ := test
  refine ⟨world, run, granted, mark, fun kept => ?_⟩
  obtain ⟨_, _, _, covered, _⟩ := kept.last_met (by decide)
  obtain ⟨found, mem, _, above⟩ := covered _ granted epoch.symm
  rw [mark] at mem
  cases mem
  exact absurd above (by decide)

end OpenCargo.HighWater
