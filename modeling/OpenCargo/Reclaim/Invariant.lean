/-
Module: OpenCargo.Reclaim.Invariant
Purpose: The invariant of the reclamation, and one lemma for each step that keeps it: nothing a claim
  covers is referenced or pinned for as long as its holder works, and no deleted key can come to be
  referenced again.
Trusted boundary: none
Main exports: Holder.Sound, Sound, sound_start, Sound.calm
-/
import OpenCargo.Reclaim.Facts
import OpenCargo.Reclaim.System

namespace OpenCargo.Reclaim

open OpenCargo.Lib

variable {β : Type}

/-! ### The invariant -/

/-- What is known of a reclaimer at work. -/
structure Holder.Sound (state : State β) (h : Holder) : Prop where
  seen : h.key ∈ state.seen
  gone : ∀ key, ClaimCovers h.key h.isPrefix key → Gone state.rows state.tables.pins key
  nonempty : h.isPrefix = true → h.key ≠ []
  listed : ∀ keys, h.stage = .listed keys → ∀ key ∈ keys,
    key ∈ state.seen ∧ ClaimCovers h.key h.isPrefix key
  retired : h.isPrefix = true → h.retired = true →
    OutOfUse state.tables state.incarnations h.key

structure Sound (state : State β) : Prop where
  objects : ∀ key ∈ state.objects.keys, key ∈ state.seen
  queued : ∀ row ∈ state.tables.candidates, row.key ∈ state.seen
  handed : ∀ candidate ∈ state.handed, candidate.key ∈ state.seen
  placed : ∀ key ∈ state.placed, key ∈ state.seen
  deleted : ∀ key ∈ state.deleted, key ∈ state.seen ∧ Gone state.rows state.tables.pins key
  holders : ∀ h ∈ state.holders, h.Sound state
  prefixes : ∀ row ∈ state.tables.prefixes, Formed row ∧ row.incarnation ∈ state.incarnations

/-- A database and a store as they are found, with nobody at work. -/
def start (rows : List Ref) (tables : Tables) (epoch : Text) (objects : Objects β) : State β where
  rows := rows
  tables := tables
  epoch := epoch
  objects := objects
  handed := []
  holders := []
  placed := []
  uploads := []
  seen := objects.keys ++ tables.candidates.map CandidateRow.key
  incarnations := tables.prefixes.map StoragePrefix.incarnation
  deleted := []

theorem sound_start {rows : List Ref} {tables : Tables} {epoch : Text} {objects : Objects β}
    (formed : ∀ row ∈ tables.prefixes, Formed row) : Sound (start rows tables epoch objects) where
  objects := fun key mem => List.mem_append_left _ mem
  queued := fun row mem => List.mem_append_right _ (List.mem_map_of_mem mem)
  handed := by simp [start]
  placed := by simp [start]
  deleted := by simp [start]
  holders := by simp [start]
  prefixes := fun row mem => ⟨formed row mem, List.mem_map_of_mem mem⟩

/-! ### Steps under which what is gone stays gone -/

/-- What the safety argument reads of two states, when every key that is gone in the first is gone in
the second. -/
structure Calmer (before after : State β) : Prop where
  seen : ∀ key ∈ before.seen, key ∈ after.seen
  gone : ∀ key, Gone before.rows before.tables.pins key → Gone after.rows after.tables.pins key
  out : ∀ key, OutOfUse before.tables before.incarnations key →
    OutOfUse after.tables after.incarnations key

theorem Holder.Sound.calmer {before after : State β} {h : Holder} (calm : Calmer before after)
    (sound : h.Sound before) : h.Sound after where
  seen := calm.seen _ sound.seen
  gone := fun key covered => calm.gone key (sound.gone key covered)
  nonempty := sound.nonempty
  listed := fun keys at_ key mem =>
    ⟨calm.seen key (sound.listed keys at_ key mem).1, (sound.listed keys at_ key mem).2⟩
  retired := fun wide flag => calm.out _ (sound.retired wide flag)

theorem Holder.Sound.stage {state : State β} {h : Holder} {stage : Stage} (sound : h.Sound state)
    (unlisted : ∀ keys, stage ≠ .listed keys) : ({ h with stage := stage } : Holder).Sound state where
  seen := sound.seen
  gone := sound.gone
  nonempty := sound.nonempty
  listed := fun keys at_ => absurd at_ (unlisted keys)
  retired := sound.retired

/-- The columns of the tables that decide which prefixes are in use are left alone. -/
theorem outOfUse_same {before after : Tables} {incarnations : List Text} {key : Text}
    (prefixes : after.prefixes = before.prefixes) (retired : after.retired = before.retired)
    (out : OutOfUse before incarnations key) : OutOfUse after incarnations key := by
  apply out.mono (fun _ mem => mem)
  intro i _ _ live
  unfold Tables.isLivePrefix at live ⊢
  rw [prefixes, retired] at live
  exact live

/-- A step that is calm, whatever it does to the objects, the queue and the reclaimers. -/
theorem Sound.calm {before after : State β} (sound : Sound before) (calm : Calmer before after)
    (objects : ∀ key ∈ after.objects.keys, key ∈ after.seen)
    (queued : ∀ row ∈ after.tables.candidates, row.key ∈ after.seen)
    (handed : ∀ candidate ∈ after.handed, candidate.key ∈ after.seen)
    (placed : ∀ key ∈ after.placed, key ∈ after.seen)
    (deleted : ∀ key ∈ after.deleted, key ∈ before.deleted ∨
      (key ∈ before.seen ∧ Gone before.rows before.tables.pins key))
    (holders : ∀ h ∈ after.holders, h.Sound before)
    (prefixes : ∀ row ∈ after.tables.prefixes, Formed row ∧ row.incarnation ∈ after.incarnations) :
    Sound after where
  objects := objects
  queued := queued
  handed := handed
  placed := placed
  deleted := by
    intro key mem
    rcases deleted key mem with old | ⟨seen, gone⟩
    · obtain ⟨seen, gone⟩ := sound.deleted key old
      exact ⟨calm.seen key seen, calm.gone key gone⟩
    · exact ⟨calm.seen key seen, calm.gone key gone⟩
  holders := fun h mem => (holders h mem).calmer calm
  prefixes := prefixes

/-! ### The reclaimers of a state -/

theorem State.mem_of_holder {state : State β} {id : Nat} {h : Holder}
    (found : state.holder id = some h) : h ∈ state.holders :=
  List.mem_of_find?_eq_some found

theorem Sound.setStage {state : State β} {h : Holder} {stage : Stage} (sound : Sound state)
    (moved : ({ h with stage := stage } : Holder).Sound state) (other : Holder)
    (mem : other ∈ (state.setStage h stage).holders) : other.Sound state := by
  obtain ⟨old, found, rfl⟩ := List.mem_map.mp mem
  split
  · exact moved
  · exact sound.holders old found

theorem Sound.dismiss {state : State β} {h : Holder} (sound : Sound state) (other : Holder)
    (mem : other ∈ (state.dismiss h).holders) : other.Sound state :=
  sound.holders other (List.mem_filter.mp mem).1

/-! ### Repositories -/

theorem Tables.adopt_live {tables : Tables} {format : Format} {name incarnation i : Text}
    (fresh : i ≠ incarnation)
    (live : (tables.adopt format name incarnation).isLivePrefix (Layout.incarnationPrefix i) = true) :
    tables.isLivePrefix (Layout.incarnationPrefix i) = true := by
  obtain ⟨row, mem, key, running⟩ := isLivePrefix_iff.mp live
  simp only [adopt, List.mem_append, List.mem_filter, List.mem_map, List.mem_cons] at mem
  rcases mem with ⟨old, _⟩ | ⟨own, whose, rfl⟩
  · exact isLivePrefix_iff.mpr ⟨row, old, key, running⟩
  · rcases whose with rfl | legacy
    · exact absurd (Layout.incarnationPrefix_inj key).symm fresh
    · change own = _ at key
      rw [key] at legacy
      exact absurd (foreign_nameKeyed legacy) (not_foreign_incarnationPrefix i)

theorem Sound.create {state after : State β} {format : Format} {name incarnation : Text}
    {now : Instant} (sound : Sound state)
    (taken : createStep state format name incarnation now = some after) : Sound after := by
  unfold createStep at taken
  split at taken
  case isFalse => cases taken
  case isTrue fresh =>
    cases taken
    simp only [Bool.and_eq_true, Bool.not_eq_true', List.contains_eq_mem,
      decide_eq_false_iff_not] at fresh
    obtain ⟨⟨flat, unused⟩, _⟩ := fresh
    apply sound.calm
    · refine ⟨fun _ mem => mem, fun _ gone => gone, fun key out => ?_⟩
      apply out.mono
      · exact fun i mem => List.mem_cons_of_mem _ mem
      · intro i used _ live
        apply Tables.adopt_live _ live
        rintro rfl
        exact unused used
    · exact sound.objects
    · exact fun row mem => sound.queued row (List.mem_filter.mp mem).1
    · exact sound.handed
    · exact sound.placed
    · exact fun key mem => .inl mem
    · exact sound.holders
    · intro row mem
      simp only [Tables.adopt, List.mem_append, List.mem_filter, List.mem_map,
        List.mem_cons] at mem
      rcases mem with ⟨old, _⟩ | ⟨own, whose, rfl⟩
      · obtain ⟨formed, used⟩ := sound.prefixes row old
        exact ⟨formed, List.mem_cons_of_mem _ used⟩
      · refine ⟨?_, List.mem_cons_self⟩
        rcases whose with rfl | legacy
        · exact .inl ⟨flat, rfl⟩
        · exact .inr (foreign_nameKeyed legacy)

theorem Sound.retire {state after : State β} {incarnation : Text} {group : Bool} {rows : List Ref}
    {now : Instant} (sound : Sound state)
    (taken : retireStep state incarnation group rows now = some after) : Sound after := by
  unfold retireStep at taken
  split at taken
  case isFalse => cases taken
  case isTrue fewer =>
    cases taken
    simp only [List.all_eq_true, List.contains_iff_mem] at fewer
    obtain ⟨pins, candidates, retired, tables, pinsOnly, queueOnly, more⟩ :=
      state.tables.retire_fixed incarnation group now
    rw [tables]
    apply sound.calm
    · refine ⟨fun _ mem => List.mem_append_right _ mem, fun key gone => ?_, fun key out => ?_⟩
      · exact gone.mono (referenced_of_subset fewer) pinsOnly
      · apply out.mono (fun _ mem => mem)
        intro i _ _ live
        obtain ⟨row, mem, same, running⟩ := isLivePrefix_iff.mp live
        exact isLivePrefix_iff.mpr ⟨row, mem, same, fun gone => running (more _ gone)⟩
    · exact fun key mem => List.mem_append_right _ (sound.objects key mem)
    · intro row mem
      rcases queueOnly row mem with ⟨old, found, same⟩ | own
      · exact List.mem_append_right _ (same ▸ sound.queued old found)
      · exact List.mem_append_left _ own
    · exact fun candidate mem => List.mem_append_right _ (sound.handed candidate mem)
    · exact fun key mem => List.mem_append_right _ (sound.placed key mem)
    · exact fun key mem => .inl mem
    · exact sound.holders
    · exact sound.prefixes

/-! ### Writers -/

theorem Sound.write {state after : State β} {key : Text} {body : β} (sound : Sound state)
    (taken : writeStep state key body = some after) : Sound after := by
  unfold writeStep at taken
  split at taken
  case isFalse => cases taken
  case isTrue =>
    cases taken
    apply sound.calm
    · exact ⟨fun _ mem => List.mem_cons_of_mem _ mem, fun _ gone => gone, fun _ out => out⟩
    · intro other mem
      rcases Objects.mem_keys_put.mp mem with rfl | old
      · exact List.mem_cons_self
      · exact List.mem_cons_of_mem _ (sound.objects other old)
    · exact fun row mem => List.mem_cons_of_mem _ (sound.queued row mem)
    · exact fun candidate mem => List.mem_cons_of_mem _ (sound.handed candidate mem)
    · exact fun other mem => List.mem_cons_of_mem _ (sound.placed other mem)
    · exact fun other mem => .inl mem
    · exact sound.holders
    · exact sound.prefixes

theorem Sound.enqueue {state : State β} {keys : List Text} {now : Instant} (sound : Sound state) :
    Sound { state with
      tables := state.tables.enqueueKeys keys now, seen := keys ++ state.seen } := by
  obtain ⟨candidates, tables, only⟩ := state.tables.enqueueKeys_fixed keys now
  rw [tables]
  apply sound.calm
  · exact ⟨fun _ mem => List.mem_append_right _ mem, fun _ gone => gone,
      fun _ out => outOfUse_same rfl rfl out⟩
  · exact fun key mem => List.mem_append_right _ (sound.objects key mem)
  · intro row mem
    rcases only row mem with old | new
    · exact List.mem_append_right _ (sound.queued row old)
    · exact List.mem_append_left _ new
  · exact fun candidate mem => List.mem_append_right _ (sound.handed candidate mem)
  · exact fun key mem => List.mem_append_right _ (sound.placed key mem)
  · exact fun key mem => .inl mem
  · exact sound.holders
  · exact sound.prefixes

theorem Sound.enqueuePrefix {state : State β} {key : Text} {now : Instant} (sound : Sound state) :
    Sound { state with
      tables := state.tables.enqueuePrefix key now
      handed := ⟨key, true⟩ :: state.handed
      seen := key :: state.seen } := by
  obtain ⟨candidates, tables, only⟩ := state.tables.enqueuePrefix_fixed key now
  rw [tables]
  apply sound.calm
  · exact ⟨fun _ mem => List.mem_cons_of_mem _ mem, fun _ gone => gone,
      fun _ out => outOfUse_same rfl rfl out⟩
  · exact fun other mem => List.mem_cons_of_mem _ (sound.objects other mem)
  · intro row mem
    rcases only row mem with ⟨old, found, same⟩ | new
    · exact List.mem_cons_of_mem _ (same ▸ sound.queued old found)
    · exact List.mem_cons.mpr (.inl new)
  · intro candidate mem
    rcases List.mem_cons.mp mem with rfl | old
    · exact List.mem_cons_self
    · exact List.mem_cons_of_mem _ (sound.handed candidate old)
  · exact fun other mem => List.mem_cons_of_mem _ (sound.placed other mem)
  · exact fun other mem => .inl mem
  · exact sound.holders
  · exact sound.prefixes

/-- A commit references nothing that is gone: what it adds was pinned or referenced before. -/
theorem gone_commit {state : State β} {tokens : List PinToken} {rows : List Ref} {tables : Tables}
    {key : Text} (admitted : admissible state tokens rows = true)
    (spent : state.tables.spendPins tokens = .ok tables)
    (gone : Gone state.rows state.tables.pins key) : Gone rows tables.pins key := by
  obtain ⟨live, pins, rfl, fewer⟩ := Tables.spendPins_ok spent
  refine ⟨?_, fun pin mem => gone.unpinned pin (fewer pin mem)⟩
  rintro ⟨row, mem, hit⟩
  simp only [admissible, List.all_eq_true, Bool.or_eq_true, Bool.and_eq_true, Bool.not_eq_true',
    List.contains_iff_mem, List.any_eq_true, beq_iff_eq] at admitted
  rcases admitted row mem with old | ⟨exact_, pinned | ⟨other, found, _, same⟩⟩
  · exact gone.unreferenced ⟨row, old, hit⟩
  · obtain ⟨token, given, same⟩ := pinned
    obtain ⟨pin, there, _, physical⟩ := live token given
    rcases hit with here | ⟨protects, _⟩
    · exact gone.unpinned pin there (physical.trans (same.trans here))
    · rw [exact_] at protects
      cases protects
  · rcases hit with here | ⟨protects, _⟩
    · exact gone.unreferenced ⟨other, found, .inl (same.trans here)⟩
    · rw [exact_] at protects
      cases protects

theorem Sound.commit {state after : State β} {tokens : List PinToken} {rows : List Ref}
    {enqueued : List Text} {now : Instant} (sound : Sound state)
    (taken : commitStep state tokens rows enqueued now = some after) : Sound after := by
  unfold commitStep at taken
  split at taken
  case isFalse => cases taken
  case isTrue admitted =>
    split at taken
    case h_1 =>
      cases taken
      exact sound
    case h_2 tables spent =>
      cases taken
      have spentOnly : Sound { state with rows := rows, tables := tables } := by
        obtain ⟨_, pins, rfl, _⟩ := Tables.spendPins_ok spent
        apply sound.calm
        · exact ⟨fun _ mem => mem, fun key gone => gone_commit admitted spent gone,
            fun _ out => outOfUse_same rfl rfl out⟩
        · exact sound.objects
        · exact sound.queued
        · exact sound.handed
        · exact sound.placed
        · exact fun key mem => .inl mem
        · exact sound.holders
        · exact sound.prefixes
      exact spentOnly.enqueue

theorem Sound.newEpoch {state : State β} {epoch : Text} (sound : Sound state) :
    Sound { state with epoch := epoch } := by
  apply sound.calm
  · exact ⟨fun _ mem => mem, fun _ gone => gone, fun _ out => out⟩
  · exact sound.objects
  · exact sound.queued
  · exact sound.handed
  · exact sound.placed
  · exact fun _ mem => .inl mem
  · exact sound.holders
  · exact sound.prefixes

/-! ### Placements and uploads -/

/-- A step that only adds references and pins, none of them on a key named before or covered by the
claim of a reclaimer that empties a prefix. -/
theorem Sound.grow {before after : State β} (sound : Sound before)
    (seen : ∀ key ∈ before.seen, key ∈ after.seen)
    (gone : ∀ key, key ∈ before.seen ∨ (∃ h ∈ before.holders, h.isPrefix = true ∧ Covers h.key key) →
      Gone before.rows before.tables.pins key → Gone after.rows after.tables.pins key)
    (out : ∀ key, OutOfUse before.tables before.incarnations key →
      OutOfUse after.tables after.incarnations key)
    (objects : after.objects = before.objects)
    (queued : after.tables.candidates = before.tables.candidates)
    (handed : after.handed = before.handed)
    (placed : ∀ key ∈ after.placed, key ∈ after.seen)
    (deleted : after.deleted = before.deleted) (holders : after.holders = before.holders)
    (prefixes : after.tables.prefixes = before.tables.prefixes)
    (incarnations : after.incarnations = before.incarnations) : Sound after where
  objects := by
    rw [objects]
    exact fun key mem => seen key (sound.objects key mem)
  queued := by
    rw [queued]
    exact fun row mem => seen _ (sound.queued row mem)
  handed := by
    rw [handed]
    exact fun candidate mem => seen _ (sound.handed candidate mem)
  placed := placed
  deleted := by
    rw [deleted]
    intro key mem
    obtain ⟨known, missing⟩ := sound.deleted key mem
    exact ⟨seen key known, gone key (.inl known) missing⟩
  holders := by
    rw [holders]
    intro h mem
    have old := sound.holders h mem
    refine
      { seen := seen _ old.seen
        gone := ?_
        nonempty := old.nonempty
        listed := fun keys at_ key found =>
          ⟨seen key (old.listed keys at_ key found).1, (old.listed keys at_ key found).2⟩
        retired := fun wide flag => out _ (old.retired wide flag) }
    intro key covered
    apply gone key _ (old.gone key covered)
    cases wide : h.isPrefix with
    | true =>
        right
        refine ⟨h, mem, wide, ?_⟩
        rw [ClaimCovers, if_pos wide] at covered
        exact covered
    | false =>
        left
        rw [ClaimCovers, if_neg (by simp [wide])] at covered
        rw [covered]
        exact old.seen
  prefixes := by
    rw [prefixes, incarnations]
    exact sound.prefixes

theorem Sound.live_flat {state : State β} {incarnation : Text} (sound : Sound state)
    (live : state.tables.isLivePrefix (Layout.incarnationPrefix incarnation) = true) :
    '/' ∉ incarnation := by
  obtain ⟨row, mem, own, _⟩ := isLivePrefix_iff.mp live
  exact ((sound.prefixes row mem).1.incarnation own).2

/-- A key of a live incarnation lies under no prefix that a reclaimer empties, once that is known of
the prefixes that are not retired. -/
theorem Sound.uncovered {state : State β} {incarnation key : Text} {h : Holder} (sound : Sound state)
    (live : state.tables.isLivePrefix (Layout.incarnationPrefix incarnation) = true)
    (within : Within '/' key (Layout.incarnationPrefix incarnation)) (mem : h ∈ state.holders)
    (wide : h.isPrefix = true) (admitted : h.retired = false → ¬ Covers h.key key) :
    ¬ Covers h.key key := by
  cases retired : h.retired with
  | false => exact admitted retired
  | true =>
      have out := (sound.holders h mem).retired wide retired
      exact out.apart live (sound.live_flat live) within

theorem Sound.startUpload {state after : State β} {incarnation upload : Text} (sound : Sound state)
    (taken : startUploadStep state incarnation upload = some after)
    (admitted : ∀ h ∈ state.holders, h.isPrefix = true → h.retired = false →
      ¬ Covers h.key (Layout.uploadPrefix (Layout.incarnationPrefix incarnation) upload)) :
    Sound after := by
  unfold startUploadStep at taken
  simp only at taken
  split at taken
  case isFalse => cases taken
  case isTrue opens =>
    cases taken
    simp only [Bool.and_eq_true, List.all_eq_true, Bool.not_eq_true'] at opens
    obtain ⟨live, fresh⟩ := opens
    generalize tree_eq : Layout.uploadPrefix (Layout.incarnationPrefix incarnation) upload = tree at *
    have unnamed : ∀ key ∈ state.seen, ¬ Covers tree key := by
      intro key mem covers
      have said := fresh key mem
      rw [Layout.under_iff.mpr covers] at said
      cases said
    apply sound.grow
    · exact fun key mem => List.mem_cons_of_mem _ mem
    · intro key known gone
      refine ⟨?_, gone.unpinned⟩
      rintro ⟨row, mem, hit⟩
      rcases List.mem_cons.mp mem with rfl | old
      · have covers : Covers tree key := by
          rcases hit with same | ⟨_, within⟩
          · exact .inl same.symm
          · exact .inr within
        rcases known with named | ⟨h, held, wide, above⟩
        · exact unnamed key named covers
        · -- the claim and the tree both lie above the key
          rcases Under.comparable covers above with below | inside
          · have within : Within '/' tree (Layout.incarnationPrefix incarnation) := by
              rw [← tree_eq]
              exact Layout.uploadPrefix_within _ _
            exact sound.uncovered live within held wide (admitted h held wide) below
          · exact unnamed h.key (sound.holders h held).seen inside
      · exact gone.unreferenced ⟨row, old, hit⟩
    · exact fun key out => out
    · rfl
    · rfl
    · rfl
    · exact fun key mem => List.mem_cons_of_mem _ (sound.placed key mem)
    · rfl
    · rfl
    · rfl
    · rfl

theorem Sound.pin {state after : State β} {incarnation : Text} {draws : List Tables.Draw}
    {until_ : Instant} (sound : Sound state) (taken : pinStep state incarnation draws until_ = some after)
    (admitted : state.tables.isLivePrefix (Layout.incarnationPrefix incarnation) = true →
      ∀ h ∈ state.holders, h.isPrefix = true → h.retired = false →
        ∀ draw ∈ draws, ¬ Covers h.key draw.logical) : Sound after := by
  unfold pinStep at taken
  split at taken
  case isFalse => cases taken
  case isTrue fair =>
    simp only [List.all_eq_true] at fair
    unfold Tables.pinAll at taken
    split at taken
    case h_1 =>
      cases taken
      exact sound
    case h_2 tokens tables answer =>
      split at answer
      case isTrue => cases answer
      case isFalse live =>
        simp only [Tables.isRetired, Bool.not_eq_true', Bool.not_eq_false] at live
        simp only [Tables.pinEach_eq, Prod.mk.injEq, Pinned.tokens.injEq] at answer
        obtain ⟨rfl, rfl⟩ := answer
        cases taken
        apply sound.grow
        · exact fun key mem => List.mem_append_right _ mem
        · intro key known gone
          refine ⟨gone.unreferenced, ?_⟩
          intro pin mem same
          rcases List.mem_append.mp mem with old | new
          · exact gone.unpinned pin old same
          · obtain ⟨draw, given, rfl⟩ := List.mem_map.mp new
            have test := fair draw given
            simp only [drawn, Bool.and_eq_true, Bool.not_eq_true', List.contains_eq_mem,
              decide_eq_false_iff_not, Layout.sqlWithin_iff] at test
            obtain ⟨⟨within, flat⟩, unnamed⟩ := test
            obtain ⟨gen, plain, placed, referenced | minted⟩ := Tables.place_cases flat
            · rw [Tables.pinOf] at same
              simp only at same
              rw [same] at referenced
              exact gone.unreferenced referenced
            · rw [Tables.pinOf] at same
              simp only at same
              rcases known with named | ⟨h, held, wide, above⟩
              · rw [← same, minted] at named
                exact unnamed named
              · rcases above with root | inside
                · have named := (sound.holders h held).seen
                  rw [← root, ← same, minted] at named
                  exact unnamed named
                · rw [← same, placed] at inside
                  have covers : Covers h.key draw.logical :=
                    (inside.of_append (Tables.generation_flat plain)).under
                  exact sound.uncovered live within held wide
                    (fun inUse => admitted live h held wide inUse draw given) covers
        · exact fun key out => outOfUse_same rfl rfl out
        · rfl
        · rfl
        · rfl
        · intro key mem
          rcases List.mem_append.mp mem with new | old
          · exact List.mem_append_left _ new
          · exact List.mem_append_right _ (sound.placed key old)
        · rfl
        · rfl
        · rfl
        · rfl

/-! ### Reclaimers -/

/-- A transaction of a reclaimer, together with what it does to the objects and to the reclaimers. -/
theorem Sound.shrink {state : State β} {tables : Tables} {objects : Objects β} {deleted : List Text}
    {holders : List Holder} (sound : Sound state) (shrinks : Tables.Shrinks state.tables tables)
    (fewer : ∀ key ∈ objects.keys, key ∈ state.objects.keys)
    (missing : ∀ key ∈ deleted, key ∈ state.deleted ∨
      (key ∈ state.seen ∧ Gone state.rows state.tables.pins key))
    (held : ∀ h ∈ holders, h.Sound state) :
    Sound { state with
      tables := tables, objects := objects, deleted := deleted, holders := holders } := by
  apply sound.calm
  · exact ⟨fun _ mem => mem, fun _ gone => gone.mono (fun hit => hit) shrinks.pins,
      fun _ out => outOfUse_same shrinks.prefixes shrinks.retired out⟩
  · exact fun key mem => sound.objects key (fewer key mem)
  · exact fun row mem => sound.queued row (shrinks.candidates row mem)
  · exact sound.handed
  · exact sound.placed
  · exact missing
  · exact held
  · rw [shrinks.prefixes]
    exact sound.prefixes

theorem Sound.shrinkTables {state : State β} {tables : Tables} {holders : List Holder}
    (sound : Sound state) (shrinks : Tables.Shrinks state.tables tables)
    (held : ∀ h ∈ holders, h.Sound state) :
    Sound { state with tables := tables, holders := holders } :=
  sound.shrink shrinks (fun _ mem => mem) (fun _ mem => .inl mem) held

/-- A reclaimer that empties a prefix was answered for a queued prefix. -/
def Flagged (tables : Tables) (root : Text) (isPrefix : Bool) : Prop :=
  isPrefix = true → ∀ row ∈ tables.candidates.find? (fun row => row.key == root), row.isPrefix = true

/-- What a reclaimer goes on to delete is covered by the row it was answered for. -/
theorem ClaimCovers.widen {tables : Tables} {refs : List Ref} {root key : Text} {grace : Duration}
    {now : Instant} {row : CandidateRow} {isPrefix : Bool}
    (claimable : tables.Claimable refs root grace now row) (flagged : Flagged tables root isPrefix)
    (covered : ClaimCovers root isPrefix key) : ClaimCovers root row.isPrefix key := by
  unfold ClaimCovers at covered ⊢
  split at covered
  case isTrue wide =>
    rw [if_pos (flagged wide row claimable.found)]
    exact covered
  case isFalse =>
    -- a claim of a prefix covers the prefix itself
    subst covered
    split
    · exact Under.refl key
    · rfl

theorem Sound.due {state : State β} {grace : Duration} {now : Instant} {limit : Nat}
    (sound : Sound state) :
    Sound { state with handed := state.tables.due grace now limit ++ state.handed } := by
  apply sound.calm
  · exact ⟨fun _ mem => mem, fun _ gone => gone, fun _ out => out⟩
  · exact sound.objects
  · exact sound.queued
  · intro candidate mem
    rcases List.mem_append.mp mem with new | old
    · obtain ⟨row, found, same⟩ := Tables.mem_candidates_of_due new
      exact same ▸ sound.queued row found
    · exact sound.handed candidate old
  · exact sound.placed
  · exact fun _ mem => .inl mem
  · exact sound.holders
  · exact sound.prefixes

/-- What a reclaimer that is answered `Claimed` holds: everything the claim covers is gone. -/
theorem gone_of_claimed {tables after : Tables} {rows : List Ref} {root : Text} {grace : Duration}
    {now until_ : Instant} {drawn token : Text} {isPrefix : Bool}
    (claim : tables.claimOne rows root grace now until_ drawn = (.claimed token, after))
    (flagged : Flagged tables root isPrefix) {key : Text} (covered : ClaimCovers root isPrefix key) :
    Gone rows after.pins key := by
  obtain ⟨row, claimable, rfl, _⟩ := Tables.claimOne_claimed claim
  have wider := covered.widen claimable flagged
  refine ⟨not_referenced_of_covered claimable.unreferenced wider, ?_⟩
  intro pin mem same
  rw [Tables.setClaim_pins] at mem
  apply (Tables.mem_revoke mem).2
  rw [same]
  exact wider

theorem Sound.claim {state after : State β} {id : Nat} {candidate : Candidate} {grace : Duration}
    {now until_ : Instant} {token : Text} (sound : Sound state)
    (taken : claimStep state id candidate grace now until_ token = some after)
    (nonempty : candidate.isPrefix = true → candidate.key ≠ [])
    (flagged : Flagged state.tables candidate.key candidate.isPrefix) : Sound after := by
  unfold claimStep at taken
  split at taken
  case isFalse => cases taken
  case isTrue given =>
    have shrinks := state.tables.claimOne_shrinks state.rows candidate.key grace now until_ token
    split at taken
    case h_1 drawn tables claim =>
      cases taken
      rw [claim] at shrinks
      have rest : Sound { state with tables := tables } :=
        sound.shrinkTables shrinks sound.holders
      refine { rest with holders := ?_ }
      intro h mem
      rcases List.mem_cons.mp mem with rfl | old
      · refine
          { seen := sound.handed candidate given.2
            gone := fun key covered => gone_of_claimed claim flagged covered
            nonempty := nonempty
            listed := fun keys at_ => by cases at_
            retired := ?_ }
        intro _ flag
        have formed : ∀ row ∈ tables.prefixes, Formed row ∧ row.incarnation ∈ state.incarnations := by
          rw [shrinks.prefixes]
          exact sound.prefixes
        apply outOfUse_of_retired formed
        unfold Tables.isRetiredPrefix at flag ⊢
        rw [shrinks.prefixes, shrinks.retired]
        exact flag
      · have kept := rest.holders h old
        exact ⟨kept.seen, kept.gone, kept.nonempty, kept.listed, kept.retired⟩
    case h_2 answer tables _ claim =>
      cases taken
      rw [claim] at shrinks
      exact sound.shrinkTables shrinks sound.holders

theorem Sound.move {state : State β} {tables : Tables} {h : Holder} {stage : Stage}
    (sound : Sound state) (mem : h ∈ state.holders) (shrinks : Tables.Shrinks state.tables tables)
    (unlisted : ∀ keys, stage ≠ .listed keys) :
    Sound ({ state with tables := tables }.setStage h stage) :=
  sound.shrinkTables shrinks (sound.setStage ((sound.holders h mem).stage unlisted))

theorem Sound.leave {state : State β} {tables : Tables} {h : Holder} (sound : Sound state)
    (shrinks : Tables.Shrinks state.tables tables) :
    Sound ({ state with tables := tables }.dismiss h) :=
  sound.shrinkTables shrinks sound.dismiss

theorem Sound.delete {state after : State β} {h : Holder} (sound : Sound state)
    (mem : h ∈ state.holders) (taken : deleteStep state h = some after) : Sound after := by
  unfold deleteStep at taken
  split at taken
  case h_1 narrow _ =>
    cases taken
    have held := sound.holders h mem
    apply sound.shrink (Tables.Shrinks.refl state.tables)
    · exact fun key found => (Objects.mem_keys_delete.mp found).1
    · intro key found
      rcases List.mem_cons.mp found with rfl | old
      · exact .inr ⟨held.seen, held.gone h.key (by simp [ClaimCovers, narrow])⟩
      · exact .inl old
    · exact sound.setStage (held.stage (by simp))
  case h_2 => cases taken

theorem Sound.release {state after : State β} {h : Holder} (sound : Sound state)
    (mem : h ∈ state.holders) (taken : releaseStep state h = some after) : Sound after := by
  unfold releaseStep at taken
  split at taken
  · cases taken
    exact sound.move mem (Tables.release_shrinks _ _) (by simp)
  · cases taken
    exact sound.leave (Tables.release_shrinks _ _)
  · cases taken

theorem Sound.settle {state after : State β} {h : Holder} (sound : Sound state)
    (taken : settleStep state h = some after) : Sound after := by
  unfold settleStep at taken
  split at taken
  · split at taken
    · cases taken
      exact sound.leave (.refl _)
    · cases taken
      exact sound.leave (Tables.forgetClaimed_shrinks _ _)
  · cases taken

theorem Sound.list {state after : State β} {h : Holder} {budget batch : Nat} (sound : Sound state)
    (mem : h ∈ state.holders) (taken : listStep state h budget batch = some after) : Sound after := by
  unfold listStep at taken
  split at taken
  case h_2 => cases taken
  case h_1 wide _ =>
    split at taken
    case h_2 =>
      cases taken
      exact sound.leave (.refl _)
    case h_1 keys listed =>
      split at taken
      case isTrue =>
        cases taken
        exact sound.move mem (.refl _) (by simp)
      case isFalse =>
        cases taken
        have held := sound.holders h mem
        apply sound.shrinkTables (Tables.Shrinks.refl state.tables)
        apply sound.setStage
        refine
          { seen := held.seen
            gone := held.gone
            nonempty := held.nonempty
            listed := ?_
            retired := held.retired }
        rintro _ ⟨⟩ key found
        obtain ⟨there, under⟩ := Objects.mem_list listed (List.mem_of_mem_take found)
        refine ⟨sound.objects key there, ?_⟩
        rw [ClaimCovers, if_pos wide]
        rcases Keys.under_iff.mp under with empty | covers
        · exact absurd empty (held.nonempty wide)
        · exact covers

theorem Sound.deleteBatch {state after : State β} {h : Holder} {keys : List Text}
    (sound : Sound state) (mem : h ∈ state.holders)
    (taken : deleteBatchStep state h keys = some after) : Sound after := by
  unfold deleteBatchStep at taken
  split at taken
  case h_2 => cases taken
  case h_1 listed _ at_ =>
    split at taken
    case isFalse => cases taken
    case isTrue among =>
      cases taken
      simp only [List.all_eq_true, List.contains_iff_mem] at among
      have held := sound.holders h mem
      apply sound.shrink (Tables.Shrinks.refl state.tables)
      · exact fun key found => (Objects.mem_keys_deleteBatch.mp found).1
      · intro key found
        rcases List.mem_append.mp found with swept | old
        · obtain ⟨seen, covered⟩ := held.listed listed at_ key (among key swept)
          exact .inr ⟨seen, held.gone key covered⟩
        · exact .inl old
      · exact sound.setStage (held.stage (by simp))

theorem Sound.renew {state after : State β} {h : Holder} {until_ : Instant} (sound : Sound state)
    (mem : h ∈ state.holders) (taken : renewStep state h until_ = some after) : Sound after := by
  unfold renewStep at taken
  have shrinks := state.tables.renew_shrinks h.token until_
  split at taken
  case h_2 => cases taken
  case h_1 =>
    split at taken
    case h_1 tables renewed =>
      cases taken
      rw [renewed] at shrinks
      exact sound.move mem shrinks (by simp)
    case h_2 =>
      cases taken
      exact sound.leave (.refl _)

theorem Sound.forgetRetired {state after : State β} {h : Holder} (sound : Sound state)
    (mem : h ∈ state.holders) (taken : forgetRetiredStep state h = some after) : Sound after := by
  unfold forgetRetiredStep at taken
  split at taken
  case h_2 => cases taken
  case h_1 =>
    cases taken
    obtain ⟨prefixes, retired, tables, fewer, live⟩ := state.tables.forgetRetired_fixed h.key
    have calm : Calmer state { state with tables := state.tables.forgetRetired h.key } := by
      refine ⟨fun _ known => known, ?_, fun key out => ?_⟩
      · rw [tables]
        exact fun _ gone => gone
      · exact out.mono (fun _ known => known) fun i _ _ => live i
    have forgotten : Sound { state with tables := state.tables.forgetRetired h.key } := by
      rw [tables] at calm ⊢
      apply sound.calm calm
      · exact sound.objects
      · exact sound.queued
      · exact sound.handed
      · exact sound.placed
      · exact fun key found => .inl found
      · exact sound.holders
      · exact fun row found => sound.prefixes row (fewer row found)
    exact forgotten.move mem (.refl _) (by simp)

end OpenCargo.Reclaim
