/-
Module: OpenCargo.Reclaim.Fate
Purpose: What one step can do, said once, and what follows for a key: what becomes of its pins, of its
  object and of the row that queues it. A key that is gone stays gone; a pin is only added by the
  placement that takes it; an object only disappears under a claim that covers it.
Trusted boundary: none
Main exports: effect_of, Gone.step, pin_origin, object_fate
-/
import OpenCargo.Reclaim.Safety

namespace OpenCargo.Reclaim

open OpenCargo.Lib

variable {β : Type}

/-! ### The steps of the reclaimers -/

/-- Who moves, where it is a reclaimer at work. -/
def Act.reclaimer : Act β → Option Nat
  | .delete id => some id
  | .release id => some id
  | .settle id => some id
  | .list id _ _ => some id
  | .deleteBatch id _ => some id
  | .renew id _ => some id
  | .forgetRetired id => some id
  | _ => none

/-- What a reclaimer at work can do. -/
inductive Move (state : State β) (h : Holder) : Act β → State β → Prop where
  | deleted {id : Nat} : h.isPrefix = false → h.stage = .claimed → Move state h (.delete id)
      ({ state with
        objects := state.objects.delete h.key
        deleted := h.key :: state.deleted }.setStage h .deleted)
  | released {id : Nat} : h.isPrefix = false → h.stage = .deleted → Move state h (.release id)
      ({ state with tables := state.tables.release h.token }.setStage h .released)
  | finished {id : Nat} : h.isPrefix = true → h.stage = .forgotten → Move state h (.release id)
      ({ state with tables := state.tables.release h.token }.dismiss h)
  | kept {id : Nat} : Move state h (.settle id) (state.dismiss h)
  | settled {id : Nat} : Move state h (.settle id)
      ({ state with tables := state.tables.forgetClaimed h.key }.dismiss h)
  | listed {id budget batch : Nat} {keys : List Text} : h.isPrefix = true →
      Move state h (.list id budget batch) (state.setStage h (.listed keys))
  | emptied {id budget batch : Nat} : h.isPrefix = true → state.objects.list budget h.key = .ok [] →
      Move state h (.list id budget batch) (state.setStage h .emptied)
  | refused {id budget batch : Nat} : Move state h (.list id budget batch) (state.dismiss h)
  | swept {id : Nat} (keys listed : List Text) : h.isPrefix = true → h.stage = .listed listed →
      (∀ key ∈ keys, key ∈ listed) → Move state h (.deleteBatch id keys)
      ({ state with
        objects := state.objects.deleteBatch keys
        deleted := keys ++ state.deleted }.setStage h .swept)
  | renewed {id : Nat} {until_ : Instant} : Move state h (.renew id until_)
      ({ state with tables := (state.tables.renew h.token until_).2 }.setStage h .claimed)
  | superseded {id : Nat} {until_ : Instant} : Move state h (.renew id until_) (state.dismiss h)
  | forgotten {id : Nat} : h.isPrefix = true → h.stage = .emptied → Move state h (.forgetRetired id)
      ({ state with tables := state.tables.forgetRetired h.key }.setStage h .forgotten)

theorem moved {state after : State β} {act : Act β} {id : Nat} (whose : act.reclaimer = some id)
    (taken : step state act = some after) : ∃ h, state.holder id = some h ∧ Move state h act after := by
  cases act with
  | delete other =>
      cases whose
      obtain ⟨h, found, moves⟩ := Option.bind_eq_some_iff.mp taken
      refine ⟨h, found, ?_⟩
      unfold deleteStep at moves
      split at moves
      case h_1 narrow at_ =>
        cases moves
        exact .deleted narrow at_
      case h_2 => cases moves
  | release other =>
      cases whose
      obtain ⟨h, found, moves⟩ := Option.bind_eq_some_iff.mp taken
      refine ⟨h, found, ?_⟩
      unfold releaseStep at moves
      split at moves
      case h_1 narrow at_ =>
        cases moves
        exact .released narrow at_
      case h_2 wide at_ =>
        cases moves
        exact .finished wide at_
      case h_3 => cases moves
  | settle other =>
      cases whose
      obtain ⟨h, found, moves⟩ := Option.bind_eq_some_iff.mp taken
      refine ⟨h, found, ?_⟩
      unfold settleStep at moves
      split at moves
      case h_1 =>
        split at moves
        · cases moves
          exact .kept
        · cases moves
          exact .settled
      case h_2 => cases moves
  | list other budget batch =>
      cases whose
      obtain ⟨h, found, moves⟩ := Option.bind_eq_some_iff.mp taken
      refine ⟨h, found, ?_⟩
      unfold listStep at moves
      split at moves
      case h_1 wide _ =>
        split at moves
        case h_1 keys listing =>
          split at moves
          case isTrue empty =>
            cases moves
            rw [List.isEmpty_iff.mp empty] at listing
            exact .emptied wide listing
          case isFalse =>
            cases moves
            exact .listed wide
        case h_2 =>
          cases moves
          exact .refused
      case h_2 => cases moves
  | deleteBatch other keys =>
      cases whose
      obtain ⟨h, found, moves⟩ := Option.bind_eq_some_iff.mp taken
      refine ⟨h, found, ?_⟩
      unfold deleteBatchStep at moves
      split at moves
      case h_1 listed wide at_ =>
        split at moves
        case isTrue among =>
          cases moves
          simp only [List.all_eq_true, List.contains_iff_mem] at among
          exact .swept keys listed wide at_ among
        case isFalse => cases moves
      case h_2 => cases moves
  | renew other until_ =>
      cases whose
      obtain ⟨h, found, moves⟩ := Option.bind_eq_some_iff.mp taken
      refine ⟨h, found, ?_⟩
      unfold renewStep at moves
      split at moves
      case h_1 =>
        split at moves
        case h_1 tables renewed =>
          cases moves
          have same : tables = (state.tables.renew h.token until_).2 := by rw [renewed]
          rw [same]
          exact .renewed
        case h_2 =>
          cases moves
          exact .superseded
      case h_2 => cases moves
  | forgetRetired other =>
      cases whose
      obtain ⟨h, found, moves⟩ := Option.bind_eq_some_iff.mp taken
      refine ⟨h, found, ?_⟩
      unfold forgetRetiredStep at moves
      split at moves
      case h_1 wide at_ =>
        cases moves
        exact .forgotten wide at_
      case h_2 => cases moves
  | _ => cases whose

/-! ### Every step -/

/-- What a step can do. -/
inductive Effect (state : State β) : Act β → State β → Prop where
  | created {format : Format} {name incarnation : Text} {now : Instant} :
      Effect state (.create format name incarnation now)
        { state with
          tables := state.tables.adopt format name incarnation
          incarnations := incarnation :: state.incarnations }
  | retired {incarnation : Text} {group : Bool} {rows : List Ref} {now : Instant} :
      (∀ row ∈ rows, row ∈ state.rows) → Effect state (.retire incarnation group rows now)
        { state with
          rows := rows
          tables := state.tables.retire incarnation group now
          seen := state.tables.prefixes.map StoragePrefix.key ++ state.seen }
  | refused {incarnation : Text} {draws : List Tables.Draw} {until_ : Instant} :
      state.tables.isRetired (Layout.incarnationPrefix incarnation) = true →
      Effect state (.pin incarnation draws until_) state
  | pinned {incarnation : Text} {draws : List Tables.Draw} {until_ : Instant} :
      state.tables.isRetired (Layout.incarnationPrefix incarnation) = false →
      (∀ draw ∈ draws, drawn state incarnation draw = true) →
      Effect state (.pin incarnation draws until_)
        { state with
          tables := { state.tables with
            pins := state.tables.pins ++ draws.map (state.tables.pinOf state.rows state.epoch
              (Layout.incarnationPrefix incarnation) until_) }
          placed := (draws.map (state.tables.tokenOf state.rows state.epoch)).map
            PinToken.physicalKey ++ state.placed
          seen := (draws.map (state.tables.tokenOf state.rows state.epoch)).map
            PinToken.physicalKey ++ state.seen }
  | wrote (key : Text) (body : β) : Effect state (.write key body)
      { state with objects := state.objects.put key body, seen := key :: state.seen }
  | superseded {tokens : List PinToken} {rows : List Ref} {enqueued : List Text} {now : Instant}
      {revoked : List Text} : state.tables.spendPins tokens = .error revoked →
      Effect state (.commit tokens rows enqueued now) state
  | committed {tokens : List PinToken} {rows : List Ref} {enqueued : List Text} {now : Instant}
      {tables : Tables} : admissible state tokens rows = true →
      state.tables.spendPins tokens = .ok tables → Effect state (.commit tokens rows enqueued now)
        { state with
          rows := rows, tables := tables.enqueueKeys enqueued now, seen := enqueued ++ state.seen }
  | opened {incarnation upload : Text} :
      (∀ key ∈ state.seen, ¬ Covers
        (Layout.uploadPrefix (Layout.incarnationPrefix incarnation) upload) key) →
      Effect state (.startUpload incarnation upload)
        { state with
          rows := ⟨Layout.uploadPrefix (Layout.incarnationPrefix incarnation) upload, true⟩ :: state.rows
          uploads := Layout.uploadPrefix (Layout.incarnationPrefix incarnation) upload :: state.uploads
          seen := Layout.uploadPrefix (Layout.incarnationPrefix incarnation) upload :: state.seen }
  | enqueued {keys : List Text} {now : Instant} : Effect state (.enqueue keys now)
      { state with tables := state.tables.enqueueKeys keys now, seen := keys ++ state.seen }
  | enqueuedPrefix {key : Text} {now : Instant} : Effect state (.enqueuePrefix key now)
      { state with
        tables := state.tables.enqueuePrefix key now
        handed := ⟨key, true⟩ :: state.handed
        seen := key :: state.seen }
  | due {grace : Duration} {now : Instant} {limit : Nat} : Effect state (.due grace now limit)
      { state with handed := state.tables.due grace now limit ++ state.handed }
  | claimed {id : Nat} {candidate : Candidate} {grace : Duration} {now until_ : Instant}
      {token : Text} {tables : Tables} :
      state.tables.claimOne state.rows candidate.key grace now until_ token = (.claimed token, tables) →
      Effect state (.claim id candidate grace now until_ token)
        { state with
          tables := tables
          holders :=
            ⟨id, candidate.key, candidate.isPrefix, token,
              state.tables.isRetiredPrefix candidate.key, .claimed⟩ :: state.holders }
  | unclaimed {id : Nat} {candidate : Candidate} {grace : Duration} {now until_ : Instant}
      {token : Text} {answer : Claim} {tables : Tables} : (∀ token, answer ≠ .claimed token) →
      state.tables.claimOne state.rows candidate.key grace now until_ token = (answer, tables) →
      Effect state (.claim id candidate grace now until_ token) { state with tables := tables }
  | moved {act : Act β} {after : State β} (id : Nat) (h : Holder) : act.reclaimer = some id →
      state.holder id = some h → Move state h act after → Effect state act after
  | pruned {grace : Duration} {now : Instant} {limit : Nat} : Effect state (.prune grace now limit)
      { state with tables := state.tables.prunePins grace now limit }
  | drew {epoch : Text} : Effect state (.newEpoch epoch) { state with epoch := epoch }

theorem effect_pin {state after : State β} {incarnation : Text} {draws : List Tables.Draw}
    {until_ : Instant} (taken : pinStep state incarnation draws until_ = some after) :
    Effect state (.pin incarnation draws until_) after := by
  unfold pinStep at taken
  split at taken
  case isFalse => cases taken
  case isTrue fair =>
    unfold Tables.pinAll at taken
    split at taken
    case h_1 answer =>
      cases taken
      split at answer
      case isTrue retired => exact .refused retired
      case isFalse => cases answer
    case h_2 tokens tables answer =>
      split at answer
      case isTrue => cases answer
      case isFalse live =>
        simp only [Tables.pinEach_eq, Prod.mk.injEq, Pinned.tokens.injEq] at answer
        obtain ⟨rfl, rfl⟩ := answer
        cases taken
        exact .pinned (Bool.eq_false_iff.mpr live) (List.all_eq_true.mp fair)

theorem effect_claim {state after : State β} {id : Nat} {candidate : Candidate} {grace : Duration}
    {now until_ : Instant} {token : Text}
    (taken : claimStep state id candidate grace now until_ token = some after) :
    Effect state (.claim id candidate grace now until_ token) after := by
  unfold claimStep at taken
  split at taken
  case isFalse => cases taken
  case isTrue =>
    split at taken
    case h_1 drawn tables claim =>
      cases taken
      obtain ⟨_, _, _, same⟩ := Tables.claimOne_claimed claim
      subst same
      exact .claimed claim
    case h_2 answer tables other claim =>
      cases taken
      exact .unclaimed other claim

theorem effect_startUpload {state after : State β} {incarnation upload : Text}
    (taken : startUploadStep state incarnation upload = some after) :
    Effect state (.startUpload incarnation upload) after := by
  unfold startUploadStep at taken
  simp only at taken
  split at taken
  case isFalse => cases taken
  case isTrue opens =>
    cases taken
    simp only [Bool.and_eq_true, List.all_eq_true, Bool.not_eq_true'] at opens
    apply Effect.opened
    intro key named covers
    rw [← Layout.under_iff, opens.2 key named] at covers
    cases covers

theorem effect_of {state after : State β} {act : Act β} (taken : step state act = some after) :
    Effect state act after := by
  have byReclaimer : ∀ id, act.reclaimer = some id → Effect state act after := by
    intro id whose
    obtain ⟨h, found, moves⟩ := moved whose taken
    exact .moved id h whose found moves
  cases act with
  | create format name incarnation now =>
      simp only [step, createStep] at taken
      split at taken
      · cases taken
        exact .created
      · cases taken
  | retire incarnation group rows now =>
      simp only [step, retireStep] at taken
      split at taken
      case isFalse => cases taken
      case isTrue fewer =>
        cases taken
        simp only [List.all_eq_true, List.contains_iff_mem] at fewer
        exact .retired fewer
  | pin incarnation draws until_ => exact effect_pin taken
  | write at_ body =>
      simp only [step, writeStep] at taken
      split at taken
      · cases taken
        exact .wrote at_ body
      · cases taken
  | commit tokens rows enqueued now =>
      simp only [step, commitStep] at taken
      split at taken
      case isFalse => cases taken
      case isTrue admitted =>
        split at taken
        case h_1 lost =>
          cases taken
          exact .superseded lost
        case h_2 tables spent =>
          cases taken
          exact .committed admitted spent
  | startUpload incarnation upload => exact effect_startUpload taken
  | enqueue keys now =>
      cases taken
      exact .enqueued
  | enqueuePrefix root now =>
      cases taken
      exact .enqueuedPrefix
  | due grace now limit =>
      cases taken
      exact .due
  | claim id candidate grace now until_ token => exact effect_claim taken
  | prune grace now limit =>
      cases taken
      exact .pruned
  | newEpoch epoch =>
      cases taken
      exact .drew
  | _ => exact byReclaimer _ rfl

theorem Move.leaves {state after : State β} {act : Act β} {h : Holder} (moves : Move state h act after) :
    after.rows = state.rows ∧ after.tables.pins = state.tables.pins ∧
      after.seen = state.seen ∧ after.placed = state.placed := by
  cases moves with
  | released => exact ⟨rfl, Tables.release_pins _ _, rfl, rfl⟩
  | finished => exact ⟨rfl, Tables.release_pins _ _, rfl, rfl⟩
  | renewed => exact ⟨rfl, Tables.renew_pins _ _ _, rfl, rfl⟩
  | forgotten =>
      obtain ⟨_, _, tables, _⟩ := state.tables.forgetRetired_fixed h.key
      refine ⟨rfl, ?_, rfl, rfl⟩
      simp only [State.setStage, tables]
  | _ => exact ⟨rfl, rfl, rfl, rfl⟩

theorem drawn_iff {state : State β} {incarnation : Text} {draw : Tables.Draw} :
    drawn state incarnation draw = true ↔
      Within '/' draw.logical (Layout.incarnationPrefix incarnation) ∧
      '/' ∉ Layout.generation state.epoch draw.nonce ∧
      Layout.physicalKey draw.logical (Layout.generation state.epoch draw.nonce) ∉ state.seen := by
  simp only [drawn, Bool.and_eq_true, Bool.not_eq_true', List.contains_eq_mem,
    decide_eq_false_iff_not, Layout.sqlWithin_iff, and_assoc]

/-! ### Keys that are gone -/

theorem gone_pin {state : State β} {incarnation key : Text} {draws : List Tables.Draw}
    {until_ : Instant} (fair : ∀ draw ∈ draws, drawn state incarnation draw = true)
    (named : key ∈ state.seen) (gone : Gone state.rows state.tables.pins key) :
    Gone state.rows (state.tables.pins ++ draws.map (state.tables.pinOf state.rows state.epoch
      (Layout.incarnationPrefix incarnation) until_)) key := by
  refine ⟨gone.unreferenced, ?_⟩
  intro pin mem same
  rcases List.mem_append.mp mem with old | new
  · exact gone.unpinned pin old same
  · obtain ⟨draw, given, rfl⟩ := List.mem_map.mp new
    change state.tables.place state.rows state.epoch draw.logical draw.nonce = key at same
    obtain ⟨_, flat, unnamed⟩ := drawn_iff.mp (fair draw given)
    have cases_ := @Tables.place_cases state.tables state.rows state.epoch draw.logical draw.nonce flat
    rw [same] at cases_
    obtain ⟨_, _, _, referenced | minted⟩ := cases_
    · exact gone.unreferenced referenced
    · exact unnamed (minted ▸ named)

/-- A key that is gone stays gone: nothing brings a key back that was named before. -/
theorem Gone.step {state after : State β} {act : Act β} {key : Text}
    (gone : Gone state.rows state.tables.pins key) (named : key ∈ state.seen)
    (effect : Effect state act after) : Gone after.rows after.tables.pins key := by
  cases effect with
  | retired fewer =>
      refine gone.mono (referenced_of_subset fewer) ?_
      obtain ⟨_, _, _, tables, pinsOnly, _⟩ := Tables.retire_fixed state.tables _ _ _
      rw [tables]
      exact pinsOnly
  | pinned _ fair => exact gone_pin fair named gone
  | committed admitted spent =>
      rw [Tables.enqueueKeys_pins]
      exact gone_commit admitted spent gone
  | opened fresh =>
      refine ⟨?_, gone.unpinned⟩
      rintro ⟨row, mem, hit⟩
      rcases List.mem_cons.mp mem with rfl | old
      · apply fresh key named
        rcases hit with same | ⟨_, within⟩
        · exact .inl same.symm
        · exact .inr within
      · exact gone.unreferenced ⟨row, old, hit⟩
  | enqueued =>
      rw [Tables.enqueueKeys_pins]
      exact gone
  | enqueuedPrefix =>
      rw [Tables.enqueuePrefix_pins]
      exact gone
  | claimed claim => exact gone.mono (fun hit => hit) (Tables.shrinks_of_claim claim).pins
  | unclaimed _ claim => exact gone.mono (fun hit => hit) (Tables.shrinks_of_claim claim).pins
  | moved id h _ found moves =>
      obtain ⟨rows, pins, _⟩ := moves.leaves
      rw [rows, pins]
      exact gone
  | pruned => exact gone.mono (fun hit => hit) (Tables.prunePins_shrinks _ _ _ _).pins
  | _ => exact gone

/-! ### Pins, and what was named -/

theorem pin_origin {state after : State β} {act : Act β} {pin : Pin} (effect : Effect state act after)
    (mem : pin ∈ after.tables.pins) : pin ∈ state.tables.pins ∨
      ∃ incarnation draws until_, act = .pin incarnation draws until_ ∧
        ∃ draw ∈ draws, pin = state.tables.pinOf state.rows state.epoch
          (Layout.incarnationPrefix incarnation) until_ draw := by
  cases effect with
  | retired =>
      obtain ⟨_, _, _, tables, pinsOnly, _⟩ := Tables.retire_fixed state.tables _ _ _
      rw [tables] at mem
      exact .inl (pinsOnly pin mem)
  | pinned =>
      rcases List.mem_append.mp mem with old | new
      · exact .inl old
      · obtain ⟨draw, given, rfl⟩ := List.mem_map.mp new
        exact .inr ⟨_, _, _, rfl, draw, given, rfl⟩
  | committed _ spent =>
      rw [Tables.enqueueKeys_pins] at mem
      obtain ⟨_, _, rfl, fewer⟩ := Tables.spendPins_ok spent
      exact .inl (fewer pin mem)
  | enqueued =>
      rw [Tables.enqueueKeys_pins] at mem
      exact .inl mem
  | enqueuedPrefix =>
      rw [Tables.enqueuePrefix_pins] at mem
      exact .inl mem
  | claimed claim => exact .inl ((Tables.shrinks_of_claim claim).pins pin mem)
  | unclaimed _ claim => exact .inl ((Tables.shrinks_of_claim claim).pins pin mem)
  | moved id h _ found moves =>
      rw [moves.leaves.2.1] at mem
      exact .inl mem
  | pruned => exact .inl ((Tables.prunePins_shrinks _ _ _ _).pins pin mem)
  | _ => exact .inl mem

theorem seen_step {state after : State β} {act : Act β} {key : Text} (effect : Effect state act after)
    (named : key ∈ state.seen) : key ∈ after.seen := by
  cases effect with
  | retired => exact List.mem_append_right _ named
  | pinned => exact List.mem_append_right _ named
  | wrote => exact List.mem_cons_of_mem _ named
  | committed => exact List.mem_append_right _ named
  | opened => exact List.mem_cons_of_mem _ named
  | enqueued => exact List.mem_append_right _ named
  | enqueuedPrefix => exact List.mem_cons_of_mem _ named
  | moved id h _ found moves =>
      rw [moves.leaves.2.2.1]
      exact named
  | _ => exact named

/-! ### Objects -/

/-- What becomes of an object: it is left alone, it is written, or it is deleted under a claim that
covers it. -/
theorem object_fate {state after : State β} {act : Act β} (sound : Sound state)
    (effect : Effect state act after) (key : Text) :
    after.objects.get key = state.objects.get key ∨
      (∃ body, act = .write key body ∧ after.objects.get key = some body) ∨
      (after.objects.get key = none ∧ Gone state.rows state.tables.pins key) := by
  cases effect with
  | wrote at_ body =>
      by_cases same : key = at_
      · subst same
        exact .inr (.inl ⟨body, rfl, Objects.get_put_self⟩)
      · exact .inl (Objects.get_put_ne same)
  | moved id h _ found moves =>
      have held := State.mem_of_holder found
      cases moves with
      | deleted narrow _ =>
          by_cases same : key = h.key
          · right
            right
            subst same
            refine ⟨Objects.get_delete_self, (sound.holders h held).gone h.key ?_⟩
            rw [ClaimCovers, narrow]
            rfl
          · exact .inl (Objects.get_delete_ne same)
      | swept keys listed wide at_ among =>
          by_cases hit : key ∈ keys
          · right
            right
            have inside := (sound.holders h held).listed listed at_ key (among key hit)
            exact ⟨Objects.get_deleteBatch_self hit, (sound.holders h held).gone key inside.2⟩
          · exact .inl (Objects.get_deleteBatch hit)
      | _ => exact .inl rfl
  | _ => exact .inl rfl

end OpenCargo.Reclaim
