/-
Module: OpenCargo.Place.Residue
Purpose: What a placement leaves behind. Whatever it wrote is referenced, queued or claimed when it
  returns, in every interleaving in which its pins are only revoked by somebody who queues their keys;
  a pruned pin is not, and its key is forgotten.
Trusted boundary: the caller's commit spends its tokens, and references or queues each of their keys
Main exports: Careful, Doomed, Watched, careful_placements_leave_no_residue
-/
import OpenCargo.Place.World

namespace OpenCargo.Place

open OpenCargo.Lib
open OpenCargo.Reclaim

variable {χ : Type}

/-! ### What is claimed, and the condition it needs -/

/-- Somebody knows of the key: a row references it, or the queue or a claim covers it. -/
def Known (state : State Bytes) (key : Text) : Prop :=
  Referenced state.rows key ∨ Queued state.tables key ∨
    ∃ claim ∈ state.tables.claims, Covers claim.key key

/-- Every object the placement wrote, and that is still there, is known. -/
def Traced (w : World χ) : Prop :=
  ∀ key ∈ w.wrote, key ∈ w.state.objects.keys → Known w.state key

/-- A reclaimer that has deleted what it holds a claim on. -/
def Cleared (h : Holder) : Prop := h.stage = .deleted ∨ h.stage = .emptied ∨ h.stage = .forgotten

instance (h : Holder) : Decidable (Cleared h) := by
  unfold Cleared
  infer_instance

/-- The condition on a step, besides that of the reclamation itself. A write at a key the placement was
given finds a pin on the key, or the key queued and not yet deleted by who claimed it; a prune takes
none of the placement's pins; and no queued prefix above a key whose pin is gone is dropped by a claim
that finds it referenced, nor by a reclaimer that has deleted a single key. -/
def Careful (w : World χ) (act : Act Bytes) (after : World χ) : Prop :=
  Admitted w.state act after.state ∧
    match act with
    | .write key _ => (∃ token ∈ w.mine, token.physicalKey = key) →
        (∃ pin ∈ w.state.tables.pins, pin.physicalKey = key) ∨
          (Queued w.state.tables key ∧
            ∀ h ∈ w.state.holders, Cleared h → ¬ ClaimCovers h.key h.isPrefix key)
    | .prune grace now limit => ∀ token ∈ w.mine, w.state.tables.pinned token = true →
        (w.state.tables.prunePins grace now limit).pinned token = true
    | .claim _ candidate grace now until_ token =>
        ∀ row ∈ w.state.tables.candidates, row.key = candidate.key → row.isPrefix = true →
          ∀ own ∈ w.mine, Covers row.key own.physicalKey → w.state.tables.pinned own = false →
            (w.state.tables.claimOne w.state.rows candidate.key grace now until_ token).1 ≠ .referenced
    | .release id => ∀ h ∈ w.state.holder id, h.isPrefix = false →
        ∀ row ∈ w.state.tables.candidates, row.key = h.key → ∀ own ∈ w.mine,
          Covers row.key own.physicalKey → row.isPrefix = false
    | _ => True

instance (w : World χ) (act : Act Bytes) (after : World χ) : Decidable (Careful w act after) := by
  unfold Careful
  apply @Act.casesOn _ _ act <;> intros <;> infer_instance

/-! ### What is known of the keys the placement was given -/

/-- A key that no commit can come to reference, and that is queued for as long as its object is there. -/
structure Doomed (state : State Bytes) (key : Text) : Prop where
  named : key ∈ state.seen
  gone : Gone state.rows state.tables.pins key
  left : key ∉ state.objects.keys ∨ Queued state.tables key

/-- A token as `pin_all` makes it: its key lies in an incarnation, and its pin is that incarnation's. -/
structure Homed (state : State Bytes) (token : PinToken) : Prop where
  named : token.physicalKey ∈ state.seen
  within : ∃ incarnation, Within '/' token.physicalKey (Layout.incarnationPrefix incarnation)
  home : ∀ pin ∈ state.tables.pins, pin.token = token.token → pin.physicalKey = token.physicalKey →
    Covers pin.repoPrefix pin.physicalKey

structure Watched (w : World χ) : Prop where
  sound : Sound w.state
  matched : Matched w.state
  swept : ∀ h ∈ w.state.holders, Cleared h → ∀ token ∈ w.mine,
    ClaimCovers h.key h.isPrefix token.physicalKey → token.physicalKey ∉ w.state.objects.keys
  homed : ∀ token ∈ w.mine, Homed w.state token
  tracked : ∀ token ∈ w.mine, w.state.tables.pinned token = true ∨ Doomed w.state token.physicalKey

theorem pinned_iff {tables : Tables} {token : PinToken} : tables.pinned token = true ↔
    ∃ pin ∈ tables.pins, pin.token = token.token ∧ pin.physicalKey = token.physicalKey := by
  simp [Tables.pinned, List.any_eq_true]

theorem Doomed.unpinned {state : State Bytes} {token : PinToken}
    (doomed : Doomed state token.physicalKey) : state.tables.pinned token = false := by
  rw [Bool.eq_false_iff, Ne, pinned_iff]
  rintro ⟨pin, mem, _, same⟩
  exact doomed.gone.unpinned pin mem same

/-! ### One step -/

section Step

variable {w after : World χ} {act : Act Bytes}

/-- An object is only missing or there: what is missing stays missing unless it is written. -/
theorem absent_step {state after : State Bytes} {act : Act Bytes} {key : Text} (sound : Sound state)
    (effect : Effect state act after) (absent : key ∉ state.objects.keys)
    (unwritten : ∀ body, act ≠ .write key body) : key ∉ after.objects.keys := by
  rw [← Objects.get_eq_none_iff] at absent ⊢
  rcases object_fate sound effect key with same | ⟨body, written, _⟩ | ⟨none, _⟩
  · exact same.trans absent
  · exact absurd written (unwritten body)
  · exact none

/-- A key the placement was given whose pin is gone is only written while it is queued, and no
reclaimer has deleted it. -/
theorem Watched.late {token : PinToken} {body : Bytes}
    (careful : Careful w (.write token.physicalKey body) after) (mem : token ∈ w.mine)
    (gone : Gone w.state.rows w.state.tables.pins token.physicalKey) :
    Queued w.state.tables token.physicalKey ∧
      ∀ h ∈ w.state.holders, Cleared h → ¬ ClaimCovers h.key h.isPrefix token.physicalKey := by
  rcases careful.2 ⟨token, mem, rfl⟩ with ⟨pin, there, same⟩ | late
  · exact absurd same (gone.unpinned pin there)
  · exact late

theorem Watched.doomed (watched : Watched w) {state : State Bytes} {token : PinToken}
    (effect : Effect w.state act state) (careful : Careful w act { w with state := state })
    (mem : token ∈ w.mine) (doomed : Doomed w.state token.physicalKey) :
    Doomed state token.physicalKey where
  named := seen_step effect doomed.named
  gone := doomed.gone.step doomed.named effect
  left := by
    by_cases written : ∃ body, act = .write token.physicalKey body
    · obtain ⟨body, rfl⟩ := written
      have late := (Watched.late careful mem doomed.gone).1
      cases effect with
      | wrote => exact .inr late
      | moved id h whose => cases whose
    have unwritten : ∀ body, act ≠ .write token.physicalKey body :=
      fun body same => written ⟨body, same⟩
    rcases doomed.left with absent | queued
    · exact .inl (absent_step watched.sound effect absent unwritten)
    · obtain ⟨incarnation, within⟩ := (watched.homed token mem).within
      rcases queue_fate effect queued within with kept | dropped
      · exact .inr kept
      · cases dropped with
        | referenced row found answer there same covers here key why =>
            exfalso
            -- a row of one key is only dropped when the key is referenced, and a prefix never
            cases wide : row.isPrefix with
            | true => exact careful.2 row there same wide token mem covers.covers doomed.unpinned answer
            | false =>
                rw [ClaimCovers, if_neg (by simp [wide])] at covers
                rcases why with above | referenced
                · refine careful.2 found here key above token mem ?_ doomed.unpinned answer
                  rw [key, ← same, covers]
                  exact Under.refl _
                · apply doomed.gone.unreferenced
                  rw [covers, same]
                  exact referenced_of_referencesKey referenced
        | released h claim row found at_ there tokens queuedRow key covers =>
            left
            have held := State.mem_of_holder found
            have own : claim.key = h.key := watched.matched h held claim there tokens
            rw [own] at key
            apply absent_step watched.sound effect _ unwritten
            rcases at_ with ⟨narrow, stage⟩ | ⟨wide, stage⟩
            · have single := careful.2 h found narrow row queuedRow key token mem covers.covers
              rw [single, key] at covers
              exact watched.swept h held (.inl stage) token mem (narrow ▸ covers)
            · apply watched.swept h held (.inr (.inr stage)) token mem
              rw [wide, ClaimCovers, if_pos rfl, ← key]
              exact covers.covers

theorem Watched.pinned (watched : Watched w) {state : State Bytes} {token : PinToken}
    (fair : genuine w act = true) (effect : Effect w.state act state) (apart : others w act)
    (careful : Careful w act { w with state := state }) (mem : token ∈ w.mine)
    (pinned : w.state.tables.pinned token = true) :
    state.tables.pinned token = true ∨ Doomed state token.physicalKey := by
  have named := seen_step effect (watched.homed token mem).named
  obtain ⟨pin, there, own, at_⟩ := pinned_iff.mp pinned
  have home := (watched.homed token mem).home pin there own at_
  have stays : pin ∈ state.tables.pins → state.tables.pinned token = true :=
    fun mem => pinned_iff.mpr ⟨pin, mem, own, at_⟩
  by_cases kept : pin ∈ state.tables.pins
  · exact .inl (stays kept)
  · cases effect with
    | retired fewer =>
        rename_i incarnation group rows now
        simp only [genuine, List.all_eq_true, Bool.and_eq_true, Bool.or_eq_true, Bool.not_eq_true',
          bne_iff_ne] at fair
        cases group with
        | true =>
            -- a group places nothing, so there is nothing for it to revoke
            exfalso
            apply kept
            refine mem_retire.mpr ⟨there, fun root mine => ?_⟩
            rcases (fair root mine).2 with none | unplaced
            · cases none
            · obtain ⟨apart, outside⟩ := unplaced pin there
              refine ⟨apart, fun covers => ?_⟩
              rw [Layout.under_iff.mpr covers] at outside
              cases outside
        | false =>
            right
            have fate : Gone rows _ pin.physicalKey ∧ Queued _ pin.physicalKey :=
              revoked_by_retire there home (fun root mine => (fair root mine).1) kept
            obtain ⟨gone, queued⟩ := fate
            rw [at_] at gone queued
            exact ⟨named, gone, .inr queued⟩
    | pinned => exact absurd (List.mem_append_left _ there) kept
    | committed _ spent =>
        refine absurd ?_ kept
        rw [Tables.enqueueKeys_pins]
        apply Tables.spendPins_keeps spent there
        intro other given
        rw [own]
        exact apart other given token mem
    | enqueued => exact absurd (by simpa using there) kept
    | enqueuedPrefix => exact absurd (by simpa using there) kept
    | claimed claim =>
        right
        obtain ⟨gone, queued⟩ := revoked_by_claim claim there home kept
        rw [at_] at gone queued
        exact ⟨named, gone, .inr queued⟩
    | unclaimed other claim =>
        rcases claimOne_unclaimed other claim with rfl | ⟨_, rfl, _⟩
        all_goals exact absurd there kept
    | moved id h _ found moves =>
        rw [moves.leaves.2.1] at kept
        exact absurd there kept
    | pruned => exact .inl (careful.2 token mem pinned)
    | _ => exact absurd there kept

theorem mem_setStage {state : State Bytes} {h other : Holder} {stage : Stage}
    (mem : other ∈ (state.setStage h stage).holders) :
    other = { h with stage := stage } ∨ other ∈ state.holders := by
  obtain ⟨old, found, rfl⟩ := List.mem_map.mp mem
  split
  · exact .inl rfl
  · exact .inr found

theorem unreserved {key incarnation : Text}
    (within : Within '/' key (Layout.incarnationPrefix incarnation)) :
    Objects.reserved key = false := by
  obtain ⟨rest, rfl⟩ := within_iff.mp within
  have split : (Layout.incarnationPrefix incarnation ++ '/' :: rest).splitOn '/' =
      ['r'] :: (incarnation ++ '/' :: rest).splitOn '/' := by
    change ('r' :: '/' :: (incarnation ++ '/' :: rest)).splitOn '/' = _
    simp [List.splitOn, List.splitOnP_cons_eq_if_modifyHead]
  unfold Objects.reserved
  rw [split, List.headD_cons]
  decide

/-- What a reclaimer has deleted stays so: none of these keys is pinned, nor written any more. -/
theorem Watched.swept_step (watched : Watched w) {state : State Bytes}
    (effect : Effect w.state act state) (careful : Careful w act { w with state := state }) :
    ∀ h ∈ state.holders, Cleared h → ∀ token ∈ w.mine,
      ClaimCovers h.key h.isPrefix token.physicalKey → token.physicalKey ∉ state.objects.keys := by
  intro h held cleared token mem covers
  have before : h ∈ w.state.holders → token.physicalKey ∉ w.state.objects.keys :=
    fun old => watched.swept h old cleared token mem covers
  have carried : h ∈ w.state.holders → token.physicalKey ∉ state.objects.keys := by
    intro old
    apply absent_step watched.sound effect (before old)
    rintro body rfl
    have late := Watched.late careful mem ((watched.sound.holders h old).gone _ covers)
    exact late.2 h old cleared covers
  cases effect with
  | claimed =>
      rcases List.mem_cons.mp held with rfl | old
      · rcases cleared with stage | stage | stage
        all_goals cases stage
      · exact carried old
  | moved id holder _ found moves =>
      have own := State.mem_of_holder found
      cases moves with
      | deleted narrow =>
          rcases mem_setStage held with rfl | old
          · rw [ClaimCovers, narrow] at covers
            rw [covers]
            exact Objects.get_eq_none_iff.mp Objects.get_delete_self
          · exact carried old
      | emptied wide listing =>
          rcases mem_setStage held with rfl | old
          · intro there
            obtain ⟨incarnation, within⟩ := (watched.homed token mem).within
            have under := Keys.under_iff.mpr (.inr covers.covers)
            cases Objects.list_complete listing there under (unreserved within)
          · exact carried old
      | forgotten wide stage =>
          rcases mem_setStage held with rfl | old
          · exact watched.swept holder own (.inr (.inl stage)) token mem covers
          · exact carried old
      | released | listed | swept | renewed =>
          rcases mem_setStage held with rfl | old
          · rcases cleared with stage | stage | stage
            all_goals cases stage
          · exact carried old
      | finished | kept | settled | refused | superseded =>
          exact carried (List.mem_filter.mp held).1
  | _ => exact carried held

theorem Watched.homed_step (watched : Watched w) {state : State Bytes} (fair : genuine w act = true)
    (effect : Effect w.state act state) {token : PinToken} (mem : token ∈ w.mine) :
    Homed state token where
  named := seen_step effect (watched.homed token mem).named
  within := (watched.homed token mem).within
  home := by
    intro pin there own at_
    rcases pin_origin effect there with old | ⟨_, _, _, rfl, draw, given, rfl⟩
    · exact (watched.homed token mem).home pin old own at_
    · simp only [genuine, List.all_eq_true, Bool.and_eq_true, bne_iff_ne] at fair
      exact absurd own.symm ((fair draw given).2 token mem)

theorem genuine_claim (fair : genuine w act = true) : ∀ id candidate grace now until_ token,
    act = .claim id candidate grace now until_ token →
      (∀ claim ∈ w.state.tables.claims, claim.token ≠ token) ∧
        ∀ h ∈ w.state.holders, h.token ≠ token := by
  rintro id candidate grace now until_ token rfl
  simpa only [genuine, List.all_eq_true, Bool.and_eq_true, bne_iff_ne] using fair

theorem Watched.step (watched : Watched w) (taken : World.step w act = some after)
    (apart : others w act) (careful : Careful w act after) : Watched after := by
  obtain ⟨fair, state, moved, rfl⟩ := World.step_some taken
  have effect := effect_of moved
  refine
    { sound := watched.sound.step moved careful.1
      matched := watched.matched.step effect (genuine_claim fair)
      swept := watched.swept_step effect careful
      homed := fun token mem => watched.homed_step fair effect mem
      tracked := ?_ }
  intro token mem
  rcases watched.tracked token mem with pinned | doomed
  · exact watched.pinned fair effect apart careful mem pinned
  · exact .inr (watched.doomed effect careful mem doomed)

end Step

/-! ### The placement -/

/-- What is said of the world while the placement is under way. -/
def residue : Account (World χ) where
  kept := fun written w => Watched w ∧ ∀ key ∈ w.wrote, key ∈ written
  doomed := fun key w => (∃ token ∈ w.mine, token.physicalKey = key) ∧ Doomed w.state key
  held := fun token w => token ∈ w.mine
  placed := fun _ token w => token ∈ w.mine
  clean := Traced

theorem stable_residue {written doomed : List Text} {held : List PinToken}
    {pairs : List (Entry × PinToken)} :
    Stable Careful (Placing (residue : Account (World χ)) written doomed held pairs) where
  turns := by
    rintro w turns rest ⟨⟨watched, noted⟩, doomed, held, placed⟩
    exact ⟨⟨⟨watched.sound, watched.matched, watched.swept, watched.homed, watched.tracked⟩, noted⟩,
      doomed, held, placed⟩
  step := by
    rintro w act after ⟨⟨watched, noted⟩, doomed, held, placed⟩ taken apart careful
    have next := watched.step taken apart careful
    obtain ⟨_, state, moved, rfl⟩ := World.step_some taken
    refine ⟨⟨next, noted⟩, ?_, held, placed⟩
    rintro key mem
    obtain ⟨⟨token, own, rfl⟩, fate⟩ := doomed key mem
    exact ⟨⟨token, own, rfl⟩, watched.doomed (effect_of moved) careful own fate⟩

/-- What `pin_all` answers: nothing for a retired repository, and else one token for each draw. -/
theorem pinAll_answer (tables : Tables) (refs : List Ref) (epoch repoPrefix : Text)
    (draws : List Tables.Draw) (until_ : Instant) :
    given (tables.pinAll refs epoch repoPrefix draws until_).1 =
      if tables.isRetired repoPrefix then [] else draws.map (tables.tokenOf refs epoch) := by
  unfold Tables.pinAll
  split
  · rfl
  · rw [Tables.pinEach_eq]
    rfl

theorem place_within {state : State Bytes} {incarnation : Text} {draw : Tables.Draw}
    (fair : drawn state incarnation draw = true) :
    Within '/' (state.tables.place state.rows state.epoch draw.logical draw.nonce)
      (Layout.incarnationPrefix incarnation) := by
  obtain ⟨within, flat, _⟩ := drawn_iff.mp fair
  obtain ⟨gen, _, placed, _⟩ :=
    @Tables.place_cases state.tables state.rows state.epoch draw.logical draw.nonce flat
  rw [placed]
  exact within.append _

theorem Watched.given {w after : World χ} {incarnation : Text} {draws : List Tables.Draw}
    {until_ : Instant} (watched : Watched w)
    (taken : World.step w (.pin incarnation draws until_) = some after)
    (careful : Careful w (.pin incarnation draws until_) after) :
    Watched { after with
      mine := Place.given (w.state.tables.pinAll w.state.rows w.state.epoch
        (Layout.incarnationPrefix incarnation) draws until_).1 ++ after.mine } := by
  have next := watched.step taken trivial careful
  obtain ⟨fair, state, moved, rfl⟩ := World.step_some taken
  simp only [genuine, List.all_eq_true, Bool.and_eq_true, bne_iff_ne] at fair
  rw [pinAll_answer]
  cases effect_of moved with
  | moved id h whose => cases whose
  | refused retired =>
      rw [if_pos retired]
      exact next
  | pinned live drew =>
      rw [if_neg (by simp [live])]
      have taken : ∀ draw ∈ draws, w.state.tables.pinOf w.state.rows w.state.epoch
          (Layout.incarnationPrefix incarnation) until_ draw ∈ w.state.tables.pins ++ draws.map
            (w.state.tables.pinOf w.state.rows w.state.epoch (Layout.incarnationPrefix incarnation)
              until_) :=
        fun draw mem => List.mem_append_right _ (List.mem_map_of_mem mem)
      refine
        { sound := next.sound
          matched := next.matched
          swept := ?_
          homed := ?_
          tracked := ?_ }
      · intro h held cleared token mem covers
        rcases List.mem_append.mp mem with new | old
        · -- nothing a reclaimer's claim covers is pinned
          obtain ⟨draw, mine, rfl⟩ := List.mem_map.mp new
          exact absurd rfl (((next.sound.holders h held).gone _ covers).unpinned _ (taken draw mine))
        · exact next.swept h held cleared token old covers
      · intro token mem
        rcases List.mem_append.mp mem with new | old
        · obtain ⟨draw, mine, rfl⟩ := List.mem_map.mp new
          refine ⟨?_, ⟨incarnation, place_within (drew draw mine)⟩, ?_⟩
          · exact List.mem_append_left _ (List.mem_map_of_mem (List.mem_map_of_mem mine))
          · intro pin there own _
            rcases List.mem_append.mp there with before | fresh
            · exact absurd own ((fair draw mine).1 pin before)
            · obtain ⟨other, also, rfl⟩ := List.mem_map.mp fresh
              exact (place_within (drew other also)).under
        · exact next.homed token old
      · intro token mem
        rcases List.mem_append.mp mem with new | old
        · obtain ⟨draw, mine, rfl⟩ := List.mem_map.mp new
          exact .inl (pinned_iff.mpr ⟨_, taken draw mine, rfl, rfl⟩)
        · exact next.tracked token old

section Ports

variable {written doomed : List Text} {held : List PinToken} {pairs : List (Entry × PinToken)}
  {incarnation : Text} {until_ now : Instant}

theorem placing_own {w after : World χ} {act : Act Bytes}
    (placing : Placing residue written doomed held pairs w) (taken : own Careful w act = some after)
    (apart : others w act) : Placing residue written doomed held pairs after := by
  obtain ⟨moved, careful⟩ := (checked_eq_some_iff World.step Careful).mp taken
  exact stable_residue.step w act after placing moved apart careful

theorem triple_wrote (found : Objects Bytes → Option Bytes) (key : Text) :
    Triple (Placing (residue : Account (World χ)) written doomed held pairs)
      (writeCall Careful Careful false found key) fun r w => match r with
        | .ok _ => Placing residue (written ++ [key]) doomed held pairs w
        | .error _ => Placing residue written doomed held pairs w := by
  apply triple_write stable_residue
  · exact fun e w placing => placing
  · intro w body after r placing _ wrote answered
    obtain ⟨v, taken, rfl⟩ := Option.map_eq_some_iff.mp wrote
    rw [answered rfl]
    obtain ⟨⟨watched, noted⟩, fates, tokens, placed⟩ := placing_own placing taken trivial
    refine ⟨⟨⟨watched.sound, watched.matched, watched.swept, watched.homed, watched.tracked⟩, ?_⟩,
      fates, tokens, placed⟩
    intro other mem
    rcases List.mem_cons.mp mem with rfl | old
    · exact List.mem_append_right _ (List.mem_singleton.mpr rfl)
    · exact List.mem_append_left _ (noted other old)

theorem placing_delete {w : World χ} (placing : Placing residue written doomed held pairs w)
    (key : Text) : Placing residue written doomed held pairs
      { w with state := { w.state with objects := w.state.objects.delete key } } := by
  obtain ⟨⟨watched, noted⟩, fates, tokens, placed⟩ := placing
  have fewer : ∀ other ∈ (w.state.objects.delete key).keys, other ∈ w.state.objects.keys :=
    fun other mem => (Objects.mem_keys_delete.mp mem).1
  have doom : ∀ {other}, Doomed w.state other →
      Doomed { w.state with objects := w.state.objects.delete key } other := fun fate =>
    ⟨fate.named, fate.gone, fate.left.imp (fun absent mem => absent (fewer _ mem)) fun queued => queued⟩
  refine ⟨⟨⟨?_, watched.matched, ?_, ?_, ?_⟩, noted⟩, ?_, tokens, placed⟩
  · exact watched.sound.shrink (.refl _) fewer (fun _ mem => .inl mem) watched.sound.holders
  · exact fun h mem cleared token own covers there =>
      watched.swept h mem cleared token own covers (fewer _ there)
  · exact fun token mem =>
      ⟨(watched.homed token mem).named, (watched.homed token mem).within, (watched.homed token mem).home⟩
  · exact fun token mem => (watched.tracked token mem).imp (fun pinned => pinned) doom
  · exact fun other mem => ⟨(fates other mem).1, doom (fates other mem).2⟩

theorem triple_relocate (source target : Text) :
    Triple (Placing (residue : Account (World χ)) written doomed held pairs)
      ((worldPorts Careful Careful false incarnation until_ now).relocate source target) fun r w =>
        match r with
        | .ok _ => Placing residue (written ++ [target]) doomed held pairs w
        | .error _ => Placing residue written doomed held pairs w := by
  unfold worldPorts
  dsimp only
  apply (triple_wrote _ target).bind
  intro answer
  apply Triple.modifyGet
  intro w placing
  rcases answer with e | _
  · exact placing
  · exact placing_delete placing source

theorem triple_residue_stat (key : Text) :
    Triple (Placing (residue : Account (World χ)) written doomed held pairs)
      ((worldPorts Careful Careful false incarnation until_ now).stat key)
      fun _ => Placing residue written doomed held pairs := by
  unfold worldPorts
  dsimp only
  exact triple_read stable_residue (fun _ _ placing => placing) fun _ placing => placing

/-- What a write leaves: its entry is in place, and noted when it wrote. -/
def Wrote (written doomed : List Text) (held : List PinToken) (pairs : List (Entry × PinToken))
    (entry : Entry) (token : PinToken) (r : Except StorageError Bool) (w : World χ) : Prop :=
  match r with
  | .ok wrote => Placing residue (note written token.physicalKey wrote) doomed held
      ((entry, token) :: pairs) w
  | .error _ => Placing residue written doomed held pairs w

theorem placing_cons {w : World χ} {entry : Entry} {token : PinToken} (mem : token ∈ held)
    (placing : Placing residue written doomed held pairs w) :
    Placing residue written doomed held ((entry, token) :: pairs) w := by
  refine { placing with placed := ?_ }
  intro x there
  rcases List.mem_cons.mp there with rfl | old
  · exact placing.held token mem
  · exact placing.placed x old

theorem triple_residue_write (entry : Entry) (token : PinToken) (mem : token ∈ held) :
    Triple (Placing (residue : Account (World χ)) written doomed held pairs)
      (write (worldPorts Careful Careful false incarnation until_ now) entry.source token.physicalKey)
      (Wrote written doomed held pairs entry token) := by
  have noted : ∀ r : Except StorageError Unit, Triple (fun w : World χ => match r with
      | .ok _ => Placing residue (written ++ [token.physicalKey]) doomed held pairs w
      | .error _ => Placing residue written doomed held pairs w) (pure (r.map fun _ => true))
      (Wrote written doomed held pairs entry token) := by
    intro r
    apply Triple.pure
    intro w placing
    rcases r with e | _
    · exact placing
    · exact placing_cons mem placing
  have stat : Triple (Placing (residue : Account (World χ)) written doomed held pairs)
      ((worldPorts Careful Careful false incarnation until_ now).stat token.physicalKey)
      fun _ => Placing residue written doomed held pairs := triple_residue_stat _
  unfold write
  split
  case h_1 body _ => exact Triple.bind (triple_wrote (fun _ => some body) _) noted
  case h_2 key _ => exact Triple.bind (triple_wrote (fun objects => objects.get key) _) noted
  case h_3 key _ => exact (triple_relocate key _).bind noted
  case h_4 keys size _ =>
    apply stat.bind
    intro answer
    rcases answer with e | found
    · exact .pure fun w placing => placing
    · apply Triple.ite
      · exact fun _ => .pure fun w placing => placing_cons mem placing
      · exact fun _ => Triple.bind (triple_wrote (fun objects => objects.gather keys) _) noted
  case h_5 => exact .pure fun w placing => placing_cons mem placing

theorem triple_residue_rewrite (entry : Entry) (token : PinToken) (revoked : Text) (size : Option Nat)
    (mem : token ∈ held) :
    Triple (Placing (residue : Account (World χ)) written doomed held pairs)
      (rewrite (worldPorts Careful Careful false incarnation until_ now) entry.source revoked size
        token.physicalKey) fun r w => match r with
        | .ok (some wrote) => Placing residue (note written token.physicalKey wrote) doomed held
            ((entry, token) :: pairs) w
        | _ => Placing residue written doomed held pairs w := by
  have placed : Triple (Placing (residue : Account (World χ)) written doomed held pairs)
      (write (worldPorts Careful Careful false incarnation until_ now) entry.source token.physicalKey)
      (Wrote written doomed held pairs entry token) := triple_residue_write entry token mem
  unfold rewrite
  split
  case h_1 =>
    apply (triple_residue_stat revoked).bind
    intro answer
    rcases answer with e | found
    · exact .pure fun w placing => placing
    · apply Triple.ite
      · intro _
        apply Triple.bind (triple_wrote (fun objects => objects.get revoked) token.physicalKey)
        intro answer
        rcases answer with e | _
        · cases e
          all_goals exact .pure fun w placing => placing
        · exact .pure fun w placing => placing_cons mem placing
      · exact fun _ => .pure fun w placing => placing
  case h_2 =>
    apply placed.bind
    intro answer
    apply Triple.pure
    intro w wrote
    rcases answer with e | done
    · exact wrote
    · exact wrote

theorem triple_residue_pin (repoPrefix : Text) (logical : List Text) :
    Triple (Placing (residue : Account (World χ)) written doomed held pairs)
      (pinCall Careful Careful false incarnation until_ repoPrefix logical) fun r w =>
        Placing residue written doomed held pairs w ∧ ∀ tokens, r = .ok (.tokens tokens) →
          tokens.length = logical.length ∧ ∀ token ∈ tokens, token ∈ w.mine := by
  apply Triple.call stable_residue
  intro turn w a after placing _ run
  split at run
  case h_1 =>
    cases run
    exact ⟨placing, nofun⟩
  case h_2 =>
    split at run
    case isFalse => cases run
    case isTrue fits =>
      obtain ⟨rfl, counted⟩ := fits
      obtain ⟨v, taken, same⟩ := Option.map_eq_some_iff.mp run
      obtain ⟨rfl, rfl⟩ := Prod.mk.inj same
      have next := placing_own placing taken trivial
      obtain ⟨moved, careful⟩ := (checked_eq_some_iff World.step Careful).mp taken
      have watched := placing.kept.1.given moved careful
      obtain ⟨⟨_, noted⟩, fates, tokens, placed⟩ := next
      refine ⟨⟨⟨watched, noted⟩, ?_, ?_, ?_⟩, ?_⟩
      · intro key mem
        obtain ⟨⟨token, own, at_⟩, fate⟩ := fates key mem
        exact ⟨⟨token, List.mem_append_right _ own, at_⟩, fate⟩
      · exact fun token mem => List.mem_append_right _ (tokens token mem)
      · exact fun x mem => List.mem_append_right _ (placed x mem)
      · intro all answer
        have tokens : (w.state.tables.pinAll w.state.rows w.state.epoch
            (Layout.incarnationPrefix incarnation) (drawsOf logical turn.draws) until_).1 =
            .tokens all := Except.ok.inj answer
        refine ⟨?_, fun token mem => List.mem_append_left _ ?_⟩
        · rw [pinAll_tokens tokens, List.length_map]
          exact drawsOf_length counted
        · rw [tokens]
          exact mem

/-- Once what was written is queued or doomed, every object that is left is known. -/
theorem traced_of (w : World χ) (noted : ∀ key ∈ w.wrote, key ∈ written)
    (known : ∀ key ∈ written, Known w.state key ∨ Doomed w.state key) : Traced w := by
  intro key wrote there
  rcases known key (noted key wrote) with here | fate
  · exact here
  · rcases fate.left with absent | queued
    · exact absurd there absent
    · exact .inr (.inl queued)

theorem triple_residue_enqueue (keys : List Text)
    (all : ∀ key ∈ written, key ∈ keys ∨ key ∈ doomed) :
    Triple (Placing (residue : Account (World χ)) written doomed [] [])
      (enqueue (worldPorts Careful Careful false incarnation until_ now) keys) fun _ => Traced := by
  unfold enqueue
  apply Triple.ite
  · intro none
    apply Triple.pure
    intro w placing
    apply traced_of w placing.kept.2
    intro key mem
    rcases all key mem with here | fate
    · rw [List.isEmpty_iff.mp none] at here
      cases here
    · exact .inr (placing.doomed key fate).2
  · intro _
    unfold worldPorts
    dsimp only
    apply Triple.call stable_residue
    intro turn w a after placing _ run
    obtain ⟨v, taken, same⟩ := Option.map_eq_some_iff.mp run
    obtain ⟨_, rfl⟩ := Prod.mk.inj same
    have next := placing_own placing taken trivial
    obtain ⟨moved, _⟩ := (checked_eq_some_iff World.step Careful).mp taken
    obtain ⟨_, state, stepped, rfl⟩ := World.step_some moved
    cases stepped
    apply traced_of _ next.kept.2
    intro key mem
    rcases all key mem with here | fate
    · exact .inl (.inr (.inl (queued_of_key (queued_enqueueKeys here))))
    · exact .inr (next.doomed key fate).2

theorem served_residue : Served (worldPorts Careful Careful false incarnation until_ now)
    (residue : Account (World χ)) (fun _ => True) fun _ _ => True where
  pin := by
    intro written doomed held pairs repoPrefix logical
    refine (triple_residue_pin repoPrefix logical).weaken (fun _ placing => placing) ?_
    rintro answer w ⟨placing, tokens⟩
    refine ⟨placing, fun all same => ⟨?_, (tokens all same).2⟩⟩
    exact List.forall₂_iff_get.mpr ⟨(tokens all same).1.symm, fun _ _ _ => trivial⟩
  stat := fun _ _ _ _ key => triple_residue_stat key
  write := fun _ _ _ _ entry token _ _ mem => triple_residue_write entry token mem
  rewrite := fun _ _ _ _ entry token revoked size _ _ mem =>
    triple_residue_rewrite entry token revoked size mem
  enqueue := fun _ _ keys all => triple_residue_enqueue keys all
  nothing := fun w kept => traced_of w kept.2 nofun

/-- The commit: what it finds revoked is doomed, and what it is made with is referenced or queued. -/
theorem triple_residue_commit (accounted : Accounted written doomed pairs) :
    Triple (Placing (residue : Account (World χ)) written doomed [] pairs)
      (commitCall Careful Careful false now (pairs.map Prod.snd))
      (Committed residue (fun _ => Traced) written doomed pairs) := by
  apply Triple.call stable_residue
  intro turn w a after placing _ run
  have mine : ∀ token ∈ pairs.map Prod.snd, token ∈ w.mine := by
    intro token mem
    obtain ⟨x, there, rfl⟩ := List.mem_map.mp mem
    exact placing.placed x there
  split at run
  case h_1 => cases run
  case h_2 e other _ =>
    cases run
    cases e with
    | superseded revoked => exact absurd rfl (other revoked)
    | _ => exact placing
  case h_3 =>
    split at run
    case h_1 revoked lost =>
      cases run
      refine { placing with doomed := ?_ }
      intro key mem
      rcases List.mem_append.mp mem with here | old
      · obtain ⟨token, given, unpinned, rfl⟩ := Tables.spendPins_error lost key here
        refine ⟨⟨token, mine token given, rfl⟩, ?_⟩
        rcases placing.kept.1.tracked token (mine token given) with pinned | fate
        · rw [unpinned] at pinned
          cases pinned
        · exact fate
      · exact placing.doomed key old
    case h_2 spentTables spent =>
      split at run
      case isFalse => cases run
      case isTrue settled =>
        obtain ⟨v, taken, same⟩ := Option.map_eq_some_iff.mp run
        obtain ⟨rfl, rfl⟩ := Prod.mk.inj same
        obtain ⟨moved, careful⟩ := (checked_eq_some_iff World.step Careful).mp taken
        obtain ⟨_, state, stepped, rfl⟩ := World.step_some moved
        have effect := effect_of stepped
        simp only [settles, List.all_eq_true, Bool.or_eq_true, decide_eq_true_eq,
          List.contains_iff_mem] at settled
        refine traced_of { w with state := state } placing.kept.2 ?_
        intro key mem
        rcases accounted key mem with fate | ⟨x, there, rfl⟩
        · obtain ⟨⟨token, own, rfl⟩, doomed⟩ := placing.doomed key fate
          exact .inr (placing.kept.1.doomed effect careful own doomed)
        · left
          cases effect with
          | moved id h whose => cases whose
          | superseded lost =>
              rw [spent] at lost
              cases lost
          | committed =>
              rcases settled x.2 (List.mem_map_of_mem there) with referenced | queued
              · exact .inl referenced
              · exact .inr (.inl (queued_of_key (queued_enqueueKeys queued)))

end Ports

/-! ### Whole placements -/

theorem watched_start {rows : List Ref} {tables : Tables} {epoch : Text} {objects : Objects Bytes}
    {rest : χ} {turns : List (Turn χ)} (formed : ∀ row ∈ tables.prefixes, Formed row) :
    Watched (World.start (start rows tables epoch objects) rest turns) where
  sound := sound_start formed
  matched := nofun
  swept := nofun
  homed := nofun
  tracked := nofun

theorem watched_run {rows : List Ref} {tables : Tables} {epoch : Text} {objects : Objects Bytes}
    {rest : χ} {turns : List (Turn χ)} {history : List (Act Bytes)} {w : World χ}
    (formed : ∀ row ∈ tables.prefixes, Formed row)
    (run : Run World.step Careful (World.start (start rows tables epoch objects) rest turns) history w) :
    Watched w ∧ w.mine = [] ∧ w.wrote = [] := by
  apply run.invariant (fun w => Watched w ∧ w.mine = [] ∧ w.wrote = [])
    ⟨watched_start formed, rfl, rfl⟩
  rintro u act v ⟨watched, mine, wrote⟩ taken careful
  have apart : others u act := by
    cases act with
    | commit tokens rows enqueued now =>
        intro token _ own mem
        rw [mine] at mem
        cases mem
    | _ => trivial
  have next := watched.step taken apart careful
  obtain ⟨_, _, _, rfl⟩ := World.step_some taken
  exact ⟨next, mine, wrote⟩

/-- A placement leaves nothing behind, in whatever attempt and with whatever answer it ends: whatever
it wrote an object at, and whatever everybody else does meanwhile, as long as every step meets the
condition and a write that fails leaves no object. -/
theorem careful_placements_leave_no_residue {rows : List Ref} {tables : Tables} {epoch : Text}
    {objects : Objects Bytes} {rest : χ} {turns : List (Turn χ)} {history : List (Act Bytes)}
    {w after : World χ} {incarnation : Text} {until_ now : Instant} {entries : List Entry}
    {result : Except PlaceError Unit} (formed : ∀ row ∈ tables.prefixes, Formed row)
    (run : Run World.step Careful (World.start (start rows tables epoch objects) rest turns) history w)
    (placed : (placeShared (worldPorts Careful Careful false incarnation until_ now)
      (Layout.incarnationPrefix incarnation) entries (commitCall Careful Careful false now)).run w =
        some (result, after)) : Traced after := by
  obtain ⟨watched, _, wrote⟩ := watched_run formed run
  have triple : Triple ((residue : Account (World χ)).kept []) (placeShared
      (worldPorts Careful Careful false incarnation until_ now) (Layout.incarnationPrefix incarnation) entries
      (commitCall Careful Careful false now)) (Settled residue fun _ => Traced) :=
    served_residue.placeShared (Layout.incarnationPrefix incarnation) entries (fun _ _ => trivial)
      (commitCall Careful Careful false now) fun _ _ _ _ accounted => triple_residue_commit accounted
  have start : (residue : Account (World χ)).kept [] w := ⟨watched, by simp [wrote]⟩
  have settled := triple.outcome w start result after placed
  rcases result with e | _
  · exact settled
  · exact settled

/-! ### Two placements -/

/-- A turn in which nobody else acts and nothing fails. -/
def quiet : Turn Unit := ⟨[], none, none, none, false, [], [], []⟩

/-- One file, published under the incarnation `i`. -/
def file : List Entry := [⟨"r/i/p/s/f".toList, .bytes [7]⟩]

def created : List (Act Bytes) := [.create .npm "web".toList "i".toList 0]

/-- The commit is refused: the key is queued. -/
def refusedTurns : List (Turn Unit) :=
  [{ quiet with draws := [("n".toList, "t".toList)] }, quiet,
   { quiet with storeFails := some .conflict }, quiet]

theorem refused_placement_leaves_no_residue :
    ∃ w after, Run World.step Careful (World.start (start [] noTables "e".toList []) () refusedTurns)
        created w ∧
      (placeShared (worldPorts Careful Careful false "i".toList 9000000000 0)
        (Layout.incarnationPrefix "i".toList) file (commitCall Careful Careful false 0)).run w =
          some (.error (.refused .conflict), after) ∧
      published ∈ after.wrote ∧ published ∈ after.state.objects.keys ∧ Traced after := by
  obtain ⟨w, run, test⟩ := Run.of_test World.step Careful
    (World.start (start [] noTables "e".toList []) () refusedTurns) created
    (fun w => ((placeShared (worldPorts Careful Careful false "i".toList 9000000000 0)
      (Layout.incarnationPrefix "i".toList) file (commitCall Careful Careful false 0)).run w).any
        fun (r, after) => decide (r = .error (.refused .conflict) ∧ published ∈ after.wrote ∧
          published ∈ after.state.objects.keys)) (by decide +kernel)
  obtain ⟨⟨r, after⟩, placed, found⟩ := (Option.any_eq_true _ _).mp test
  obtain ⟨rfl, wrote, there⟩ := of_decide_eq_true found
  exact ⟨w, after, run, placed, wrote, there,
    careful_placements_leave_no_residue (by simp [noTables]) run placed⟩

/-- The pins have run out by the time of the commit, and are pruned before it. -/
def prunedTurns : List (Turn Unit) :=
  [{ quiet with draws := [("n".toList, "t".toList)] }, quiet,
   { quiet with acts := [.prune 0 20000000000 10] },
   { quiet with draws := [("m".toList, "u".toList)] }, quiet,
   { quiet with rows := [⟨"r/i/p/s/f~e-m".toList, false⟩] }]

/-- The commit names the pruned key as revoked, the file is placed again and committed, and nobody
knows of the object that was written first. -/
theorem pruned_placement_leaves_residue :
    ∃ w after, Run World.step Any (World.start (start [] noTables "e".toList []) () prunedTurns)
        created w ∧
      (placeShared (worldPorts Any Any true "i".toList 9000000000 0)
        (Layout.incarnationPrefix "i".toList) file (commitCall Any Any true 0)).run w =
          some (.ok (), after) ∧
      published ∈ after.wrote ∧ published ∈ after.state.objects.keys ∧
      after.state.rows = [⟨"r/i/p/s/f~e-m".toList, false⟩] ∧ after.state.tables.candidates = [] ∧
      after.state.tables.claims = [] ∧ ¬ Traced after := by
  obtain ⟨w, run, test⟩ := Run.of_test World.step Any
    (World.start (start [] noTables "e".toList []) () prunedTurns) created
    (fun w => ((placeShared (worldPorts Any Any true "i".toList 9000000000 0)
      (Layout.incarnationPrefix "i".toList) file (commitCall Any Any true 0)).run w).any
        fun (r, after) => decide (r = .ok () ∧ published ∈ after.wrote ∧
          published ∈ after.state.objects.keys ∧
          after.state.rows = [⟨"r/i/p/s/f~e-m".toList, false⟩] ∧
          after.state.tables.candidates = [] ∧ after.state.tables.claims = [])) (by decide +kernel)
  obtain ⟨⟨r, after⟩, placed, found⟩ := (Option.any_eq_true _ _).mp test
  obtain ⟨rfl, wrote, there, rows, queue, claims⟩ := of_decide_eq_true found
  refine ⟨w, after, run, placed, wrote, there, rows, queue, claims, fun traced => ?_⟩
  rcases traced published wrote there with referenced | ⟨row, mem, _⟩ | ⟨claim, mem, _⟩
  · rw [rows] at referenced
    exact absurd referenced (by decide)
  · rw [queue] at mem
    cases mem
  · rw [claims] at mem
    cases mem

end OpenCargo.Place
