/-
Module: OpenCargo.Policy.Forgotten
Purpose: What an erasure leaves of its rows in the report totals, along every interleaving of calls of
  `totals` with erasures: as long as no call puts sums in the cache that count a row erased and
  forgotten since it read it, no call begun after `forget` counts an erased row.
Trusted boundary: none
Main exports: Unspoiled, Sound, Sound.step, unspoiled_totals_count_no_erased_row
-/
import OpenCargo.Policy.Totals

namespace OpenCargo.Policy

open OpenCargo.Lib

/-! ### What is claimed, and the condition it needs -/

/-- No call that has answered counts a row whose erasure was forgotten before the call began. -/
def Clean (world : World) : Prop :=
  ∀ id call reading, world.calls id = some call → call.phase = .answered reading →
    ∀ row ∈ reading.rows, row ∉ call.forgotten

/-- What the next step of a call puts in the cache. -/
def Call.puts (world : World) (call : Call) : Option Reading :=
  match call.phase with
  | .inserting _ _ _ reading => some reading
  | .absorbing after _ reading =>
      if (world.snapshots call.key).any (·.upto == after) then some reading else none
  | _ => none

/-- No spoiled sums are cached: a call that puts its sums in the cache does so while no row its queries
selected, or that the snapshot it began from counts, has been erased and forgotten. -/
def Unspoiled (world : World) (act : Act) (_ : World) : Prop :=
  match act with
  | .next id => ∀ call ∈ world.calls id, ∀ reading ∈ call.puts world,
      ∀ row ∈ reading.rows, row ∉ world.forgotten
  | _ => True

/-! ### The invariant -/

/-- The rows counted in what a call holds. -/
def Phase.rows : Phase → List Nat
  | .headed _ _ heads => heads.map HeadMark.id
  | .inserting _ _ _ reading => reading.rows
  | .growing _ _ base => base.rows
  | .grownHeads _ _ base heads => base.rows ++ heads.map HeadMark.id
  | .absorbing _ _ reading => reading.rows
  | .answered reading => reading.rows
  | _ => []

/-- None of these rows is one of those. -/
def Free (rows gone : List Nat) : Prop := ∀ row ∈ rows, row ∉ gone

/-- What a call counts is free of what was forgotten when it began, and that stays forgotten. -/
structure Call.Sound (forgotten : List Nat) (call : Call) : Prop where
  still : ∀ row ∈ call.forgotten, row ∈ forgotten
  free : Free call.phase.rows call.forgotten

structure Sound (world : World) : Prop where
  below : ∀ row ∈ world.rows, row.id ≤ world.seq
  /-- An erased id is of no row, and `AUTOINCREMENT` never gives it again. -/
  gone : ∀ id ∈ world.erased, id ≤ world.seq ∧ ∀ row ∈ world.rows, row.id ≠ id
  forgotten : ∀ row ∈ world.forgotten, row ∈ world.erased
  snapshots : ∀ key s, world.snapshots key = some s → Free s.reading.rows world.forgotten
  calls : ∀ id call, world.calls id = some call → call.Sound world.forgotten

theorem sound_start (table : Table) : Sound (start table) where
  below := table.below
  gone := by simp [start]
  forgotten := by simp [start]
  snapshots := by simp [start]
  calls := by simp [start]

theorem Free.append {rows others gone : List Nat} (first : Free rows gone) (second : Free others gone) :
    Free (rows ++ others) gone := by
  intro row mem
  rcases List.mem_append.mp mem with mem | mem
  · exact first row mem
  · exact second row mem

theorem Free.subset {rows gone fewer : List Nat} (free : Free rows gone)
    (subset : ∀ row ∈ fewer, row ∈ gone) : Free rows fewer :=
  fun row mem inFewer => free row mem (subset row inFewer)

/-! ### What the queries select -/

section Queries

variable {f : ReportFilter} {range : IdRange} {rows : List Resolution}

theorem mem_heads {mark : HeadMark} (mem : mark ∈ f.heads range rows) :
    ∃ row ∈ rows, row.id = mark.id := by
  simp only [ReportFilter.heads, List.mem_flatMap, List.mem_filter] at mem
  obtain ⟨row, ⟨stored, _⟩, mem⟩ := mem
  refine ⟨row, stored, ?_⟩
  unfold ReportFilter.headMarks at mem
  split at mem
  · rw [List.mem_singleton.mp mem]
  · obtain ⟨_, _, rfl⟩ := List.mem_map.mp mem
    rfl

theorem mem_marks {mark : VerdictMark} (mem : mark ∈ f.marks range rows) :
    ∃ row ∈ rows, row.id = mark.id := by
  simp only [ReportFilter.marks, List.mem_flatMap, List.mem_filter] at mem
  obtain ⟨row, ⟨stored, _⟩, mem⟩ := mem
  obtain ⟨_, _, rfl⟩ := List.mem_map.mp mem
  exact ⟨row, stored, rfl⟩

theorem Reading.rows_of {heads : List HeadMark} {marks : List VerdictMark} :
    (Reading.of heads marks).rows = heads.map HeadMark.id ++ marks.map VerdictMark.id := rfl

theorem Reading.mem_rows_absorb {reading delta : Reading} {row : Nat}
    (mem : row ∈ (reading.absorb delta).rows) : row ∈ reading.rows ∨ row ∈ delta.rows := by
  simp only [Reading.rows, Reading.absorb, List.map_append, List.mem_append] at mem ⊢
  tauto

theorem Sound.free_heads {world : World} (sound : Sound world) :
    Free ((f.heads range world.rows).map HeadMark.id) world.erased := by
  intro id mem erased
  obtain ⟨mark, selected, rfl⟩ := List.mem_map.mp mem
  obtain ⟨row, stored, same⟩ := mem_heads selected
  exact (sound.gone _ erased).2 row stored same

theorem Sound.free_marks {world : World} (sound : Sound world) :
    Free ((f.marks range world.rows).map VerdictMark.id) world.erased := by
  intro id mem erased
  obtain ⟨mark, selected, rfl⟩ := List.mem_map.mp mem
  obtain ⟨row, stored, same⟩ := mem_marks selected
  exact (sound.gone _ erased).2 row stored same

end Queries

/-! ### Steps of a call -/

theorem Sound.set {world : World} {id : Nat} {call : Option Call} (sound : Sound world)
    (moved : ∀ c ∈ call, c.Sound world.forgotten) : Sound (world.set id call) where
  below := sound.below
  gone := sound.gone
  forgotten := sound.forgotten
  snapshots := sound.snapshots
  calls := by
    intro other c found
    simp only [World.set] at found
    by_cases same : other = id
    · subst same
      rw [Function.update_self] at found
      exact moved c found
    · rw [Function.update_of_ne same] at found
      exact sound.calls other c found

theorem Sound.setSnapshot {world : World} {key : Text} {s : Snapshot} (sound : Sound world)
    (free : Free s.reading.rows world.forgotten) : Sound (world.setSnapshot key s) where
  below := sound.below
  gone := sound.gone
  forgotten := sound.forgotten
  snapshots := by
    intro other held found
    simp only [World.setSnapshot] at found
    by_cases same : other = key
    · subst same
      rw [Function.update_self] at found
      cases found
      exact free
    · rw [Function.update_of_ne same] at found
      exact sound.snapshots other held found
  calls := sound.calls

theorem Sound.writeBack {world : World} {key : Text} {after upto : Nat} {reading : Reading}
    (sound : Sound world)
    (free : (world.snapshots key).any (·.upto == after) → Free reading.rows world.forgotten) :
    Sound (world.writeBack key after upto reading) := by
  unfold World.writeBack
  split
  case h_1 s found =>
    apply sound.setSnapshot
    apply free
    obtain ⟨held, same⟩ := Option.filter_eq_some_iff.mp found
    rw [held]
    exact same
  case h_2 => exact sound

theorem World.writeBack_forgotten (world : World) (key : Text) (after upto : Nat)
    (reading : Reading) : (world.writeBack key after upto reading).forgotten = world.forgotten := by
  unfold World.writeBack
  split <;> rfl

theorem base_some {world : World} {key : Text} {s : Snapshot} (found : world.base key = some s) :
    world.snapshots key = some s := (Option.filter_eq_some_iff.mp found).1

theorem Sound.next {world after : World} {id : Nat} {call : Call} (sound : Sound world)
    (found : world.calls id = some call) (taken : Policy.next world id call = some after)
    (unspoiled : ∀ reading ∈ call.puts world, Free reading.rows world.forgotten) : Sound after := by
  have mine := sound.calls id call found
  have erased : ∀ row ∈ call.forgotten, row ∈ world.erased :=
    fun row mem => sound.forgotten row (mine.still row mem)
  have free := mine.free
  unfold Policy.next at taken
  cases phase : call.phase with
  | called =>
      simp only [phase] at taken
      cases taken
      apply sound.set
      rintro c ⟨⟩
      exact ⟨mine.still, by simp [Free, Phase.rows]⟩
  | bounded upto =>
      simp only [phase] at taken
      split at taken
      · cases taken
        apply sound.set
        rintro c ⟨⟩
        exact ⟨mine.still, by simp [Free, Phase.rows]⟩
      · rename_i s based
        -- what the cache holds counts nothing forgotten, so nothing forgotten before this call
        have held : Free s.reading.rows call.forgotten :=
          (sound.snapshots _ s (base_some based)).subset mine.still
        split at taken <;>
          · cases taken
            apply sound.set
            rintro c ⟨⟩
            exact ⟨mine.still, held⟩
  | scanning upto at_ =>
      simp only [phase] at taken
      cases taken
      apply sound.set
      rintro c ⟨⟩
      exact ⟨mine.still, sound.free_heads.subset erased⟩
  | headed upto at_ heads =>
      simp only [phase] at taken free
      cases taken
      apply sound.set
      rintro c ⟨⟩
      exact ⟨mine.still, free.append (sound.free_marks.subset erased)⟩
  | inserting upto at_ ttl reading =>
      simp only [phase] at taken free
      cases taken
      have put := unspoiled reading (by simp [Call.puts, phase])
      have after : Sound (world.setSnapshot call.key ⟨at_, ttl, upto, reading⟩) :=
        sound.setSnapshot put
      apply after.set
      rintro c ⟨⟩
      exact ⟨mine.still, free⟩
  | growing after upto base =>
      simp only [phase] at taken free
      cases taken
      apply sound.set
      rintro c ⟨⟩
      exact ⟨mine.still, free.append (sound.free_heads.subset erased)⟩
  | grownHeads after upto base heads =>
      simp only [phase] at taken free
      cases taken
      apply sound.set
      rintro c ⟨⟩
      refine ⟨mine.still, ?_⟩
      intro row mem
      rcases Reading.mem_rows_absorb mem with mem | mem
      · exact free row (List.mem_append_left _ mem)
      · rw [Reading.rows_of] at mem
        rcases List.mem_append.mp mem with mem | mem
        · exact free row (List.mem_append_right _ mem)
        · exact sound.free_marks.subset erased row mem
  | absorbing after upto reading =>
      simp only [phase] at taken free
      cases taken
      have written : Sound (world.writeBack call.key after upto reading) := by
        apply sound.writeBack
        intro there
        exact unspoiled reading (by simp [Call.puts, phase, there])
      apply written.set
      rintro c ⟨⟩
      refine ⟨?_, free⟩
      rw [World.writeBack_forgotten]
      exact mine.still
  | answered reading =>
      simp only [phase] at taken
      cases taken

/-! ### Steps of the table -/

theorem mem_writeBatch {now : Instant} {seq : Nat} {batch : List NewResolution} {row : Resolution}
    (mem : row ∈ writeBatch now seq batch) : seq < row.id ∧ row.id ≤ seq + batch.length := by
  induction batch generalizing seq with
  | nil => cases mem
  | cons first rest ih =>
      rcases List.mem_cons.mp mem with rfl | mem
      · simp [NewResolution.write]
      · have bounds := ih mem
        simp only [List.length_cons]
        omega

theorem Sound.insertBatch {world : World} {batch : List NewResolution} {now : Instant}
    (sound : Sound world) :
    Sound { world with
      rows := world.rows ++ writeBatch now world.seq batch, seq := world.seq + batch.length } where
  below := by
    intro row mem
    rcases List.mem_append.mp mem with mem | mem
    · exact Nat.le_add_right_of_le (sound.below row mem)
    · exact (mem_writeBatch mem).2
  gone := by
    intro id mem
    have ⟨below, unused⟩ := sound.gone id mem
    refine ⟨Nat.le_add_right_of_le below, ?_⟩
    intro row stored
    rcases List.mem_append.mp stored with stored | stored
    · exact unused row stored
    · have fresh := (mem_writeBatch stored).1
      omega
  forgotten := sound.forgotten
  snapshots := sound.snapshots
  calls := sound.calls

theorem Sound.deleteRows {world : World} {ids : List Nat} (sound : Sound world) :
    Sound (world.deleteRows ids) where
  below := fun row mem => sound.below row (List.mem_filter.mp mem).1
  gone := fun id mem =>
    ⟨(sound.gone id mem).1, fun row stored => (sound.gone id mem).2 row (List.mem_filter.mp stored).1⟩
  forgotten := sound.forgotten
  snapshots := sound.snapshots
  calls := sound.calls

theorem Sound.setErasure {world : World} {id : Nat} {erasure : Option Erasure} (sound : Sound world) :
    Sound (world.setErasure id erasure) where
  below := sound.below
  gone := sound.gone
  forgotten := sound.forgotten
  snapshots := sound.snapshots
  calls := sound.calls

theorem mem_chunk {predicate : Resolution → Bool} {rows : List Resolution} {id : Nat}
    (mem : id ∈ chunk predicate rows) : ∃ row ∈ rows, row.id = id := by
  obtain ⟨row, taken, rfl⟩ := List.mem_map.mp mem
  exact ⟨row, (List.mem_filter.mp (List.mem_of_mem_take taken)).1, rfl⟩

theorem Sound.eraseChunk {world : World} {id : Nat} {user : Int} (sound : Sound world) :
    Sound (eraseChunk world id user) := by
  have deleted : Sound { world.deleteRows (chunk (·.userId == some user) world.rows) with
      erased := chunk (·.userId == some user) world.rows ++ world.erased } := by
    have cut : Sound (world.deleteRows (chunk (·.userId == some user) world.rows)) := sound.deleteRows
    refine
      { below := cut.below
        gone := ?_
        forgotten := fun row mem => List.mem_append_right _ (sound.forgotten row mem)
        snapshots := cut.snapshots
        calls := cut.calls }
    intro gone mem
    rcases List.mem_append.mp mem with now | before
    · obtain ⟨row, stored, rfl⟩ := mem_chunk now
      refine ⟨sound.below row stored, ?_⟩
      intro other kept same
      have spared := (List.mem_filter.mp kept).2
      rw [same] at spared
      simp [now] at spared
    · exact cut.gone gone before
  simp only [Policy.eraseChunk]
  split
  · exact deleted.setErasure
  · exact deleted

theorem Sound.forget {world : World} {id : Nat} (sound : Sound world) :
    Sound { world.setErasure id none with
      snapshots := fun _ => none, forgotten := world.erased } where
  below := sound.below
  gone := sound.gone
  forgotten := fun _ mem => mem
  snapshots := by simp
  calls := fun id call found =>
    ⟨fun row mem => sound.forgotten row ((sound.calls id call found).still row mem),
      (sound.calls id call found).free⟩

theorem Sound.step {world after : World} {act : Act} (sound : Sound world)
    (taken : step world act = some after) (unspoiled : Unspoiled world act after) : Sound after := by
  cases act with
  | tick elapsed =>
      cases taken
      exact
        { below := sound.below
          gone := sound.gone
          forgotten := sound.forgotten
          snapshots := sound.snapshots
          calls := sound.calls }
  | insertBatch batch now =>
      cases taken
      exact sound.insertBatch
  | expire cutoff =>
      cases taken
      exact sound.deleteRows
  | call id key filter =>
      simp only [Policy.step] at taken
      split at taken
      · cases taken
        apply sound.set
        rintro c ⟨⟩
        exact ⟨fun _ mem => mem, by simp [Free, Phase.rows]⟩
      · cases taken
  | next id =>
      obtain ⟨call, found, moved⟩ := Option.bind_eq_some_iff.mp taken
      exact sound.next found moved (unspoiled call found)
  | fail id =>
      simp only [Policy.step] at taken
      split at taken
      · cases taken
        apply sound.set
        intro c mem
        cases mem
      · cases taken
  | erase id user =>
      simp only [Policy.step] at taken
      split at taken
      · cases taken
        exact sound.setErasure
      · cases taken
  | chunk id =>
      simp only [Policy.step] at taken
      split at taken
      · cases taken
        exact sound.eraseChunk
      · cases taken
  | forget id =>
      simp only [Policy.step] at taken
      split at taken
      · cases taken
        exact sound.forget
      · cases taken
  | failErasure id =>
      simp only [Policy.step] at taken
      split at taken
      · cases taken
        exact sound.setErasure
      · cases taken

/-! ### Whole runs -/

theorem Sound.clean {world : World} (sound : Sound world) : Clean world := by
  intro id call reading found answered row mem
  have free := (sound.calls id call found).free
  rw [answered] at free
  exact free row mem

/-- In every run, over any table, in which no call puts spoiled sums in the cache: no call of `totals`
that began after a `forget` returned counts a row erased before it. -/
theorem unspoiled_totals_count_no_erased_row {table : Table} {acts : List Act} {world : World}
    (run : Run step Unspoiled (start table) acts world) : Clean world :=
  (run.invariant Sound (sound_start table) fun _ _ _ sound taken unspoiled =>
    sound.step taken unspoiled).clean

instance (world : World) (act : Act) (after : World) : Decidable (Unspoiled world act after) :=
  match act with
  | .next id => inferInstanceAs (Decidable (∀ call ∈ world.calls id, ∀ reading ∈ call.puts world,
      ∀ row ∈ reading.rows, row ∉ world.forgotten))
  | .tick _ => .isTrue trivial
  | .insertBatch _ _ => .isTrue trivial
  | .expire _ => .isTrue trivial
  | .call _ _ _ => .isTrue trivial
  | .fail _ => .isTrue trivial
  | .erase _ _ => .isTrue trivial
  | .chunk _ => .isTrue trivial
  | .forget _ => .isTrue trivial
  | .failErasure _ => .isTrue trivial

/-- What user 7 resolved. -/
def resolved : NewResolution where
  requestedRepo := "p".toList
  memberRepo := "p".toList
  actorKind := .user
  userId := some 7
  verdicts := [⟨"typosquat".toList, .pass⟩]

/-- A table with that one row. -/
def oneRow : Table := ⟨[resolved.write 1 0], 1, by decide⟩

def everything : ReportFilter := ⟨0, none, none, none⟩

/-- A call of `totals` up to where its second query has answered, when there is no snapshot. -/
def scanBegun (id : Nat) : List Act :=
  [.call id [] everything, .next id, .next id, .next id, .next id]

/-- User 7 is erased. -/
def erasure : List Act := [.erase 0 7, .chunk 0, .forget 0]

/-- What call `id` has answered: how many resolutions, and of which rows. -/
def World.answer (world : World) (id : Nat) : Option (Nat × List Nat) :=
  match (world.calls id).map Call.phase with
  | some (.answered reading) => some (reading.totals.resolutions, reading.rows)
  | _ => none

/-- A call that stores its sums, the erasure, and a call after it: nothing is counted any more. -/
theorem erased_row_leaves_the_totals :
    ∃ world, Run step Unspoiled (start oneRow)
        (scanBegun 0 ++ [.next 0] ++ erasure ++ scanBegun 1 ++ [.next 1]) world ∧
      world.answer 0 = some (1, [1, 1]) ∧ world.answer 1 = some (0, []) ∧ Clean world := by
  obtain ⟨world, run, test⟩ := Run.of_test step Unspoiled (start oneRow)
    (scanBegun 0 ++ [.next 0] ++ erasure ++ scanBegun 1 ++ [.next 1])
    (fun world => world.answer 0 == some (1, [1, 1]) && world.answer 1 == some (0, []))
    (by decide +kernel)
  simp only [Bool.and_eq_true, beq_iff_eq] at test
  exact ⟨world, run, test.1, test.2, unspoiled_totals_count_no_erased_row run⟩

/-! ### Sums that are cached late -/

/-- Call 0 has scanned the table and is about to insert its snapshot when user 7 is erased and
forgotten; then it inserts it, and call 1 begins. -/
def cachedLate : List Act :=
  scanBegun 0 ++ erasure ++ [.next 0, .call 1 [] everything, .next 1, .next 1]

theorem late_snapshot_counts_an_erased_row :
    ∃ world, Run step Any (start oneRow) cachedLate world ∧
      world.rows = [] ∧ world.answer 1 = some (1, [1, 1]) ∧ ¬Clean world := by
  obtain ⟨world, run, test⟩ := Run.of_test step Any (start oneRow) cachedLate
    (fun world => world.rows == [] && world.answer 1 == some (1, [1, 1]) &&
      (world.calls 1).map Call.forgotten == some [1])
    (by decide +kernel)
  simp only [Bool.and_eq_true, beq_iff_eq] at test
  obtain ⟨⟨emptied, answer⟩, forgot⟩ := test
  refine ⟨world, run, emptied, answer, fun clean => ?_⟩
  obtain ⟨call, found, begun⟩ := Option.map_eq_some_iff.mp forgot
  simp only [World.answer, found, Option.map_some] at answer
  split at answer
  case h_1 reading phase =>
    simp only [Option.some.injEq, Prod.mk.injEq] at answer phase
    have free := clean 1 call reading found phase 1 (by simp [answer.2])
    rw [begun] at free
    simp at free
  case h_2 => cases answer

end OpenCargo.Policy
