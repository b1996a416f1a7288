/-
Module: OpenCargo.Mcp.CatchUp
Purpose: No update of the upstream is missed by the runs of a mirror. A run that succeeds has written, of
  every record updated before it started, content at least that new: what was updated after the previous
  success is inside the window of the run, whatever changed behind its cursor, and the rest was written
  by the previous one. A page that is empty and carries a cursor ends a run before its last page.
Trusted boundary: none
Main exports: Job.Inv, Mirror.Inv, Inv.step, sync_misses_no_update
-/
import OpenCargo.Mcp.Refresh
import OpenCargo.Mcp.Sync

namespace OpenCargo.Mcp

open OpenCargo.Lib

/-! ### What an upsert leaves in the catalogue -/

theorem held_eq (t : Tables) (slot : Int × Text × Text) :
    t.held slot = ((t.versions.map fun v => (v.slot, v.responseJson)).find? (·.1 == slot)).map (·.2) := by
  rw [List.find?_map, Option.map_map]
  rfl

theorem held_upsertRecord {t : Tables} (keyed : t.Keyed) (r : RecordWrite) (slot : Int × Text × Text) :
    (t.upsertRecord r).held slot = if slot = (r.row 0).slot then some r.envelopeJson else t.held slot := by
  have columns : (t.upsertRecord r).versions.map (fun v => (v.slot, v.responseJson)) =
      (t.writeRecord r).1.versions.map fun v => (v.slot, v.responseJson) := by
    rw [Tables.upsertRecord, refresh_map _ _ _ _ fun _ _ _ _ _ => rfl, upsertSurface_versions,
      takeLatest_map _ _ _ _ fun _ _ _ => rfl]
  have written : (t.upsertRecord r).held slot = (t.writeRecord r).1.held slot := by
    rw [held_eq, columns, held_eq]
  rw [written, Tables.writeRecord]
  split
  case h_1 held found =>
    have own : held.slot = (r.row 0).slot := by
      have slot : held.slot = (r.row (t.versionSeq + 1)).slot := by simpa using List.find?_some found
      rw [slot, r.row_slot, r.row_slot]
    have reads : (updateAt ServerVersion.id held.id r.update t.versions).find? (·.slot == slot) =
        (t.versions.find? (·.slot == slot)).map fun v => if v.id = held.id then r.update v else v := by
      rw [updateAt, List.find?_map]
      congr 1
      refine List.find?_congr fun v mem => ?_
      simp only [Function.comp_apply]
      split
      · rename_i same
        cases List.inj_on_of_nodup_map keyed.versions mem (List.mem_of_find?_eq_some found) same
        rw [own]
        rfl
      · rfl
    rw [Tables.held, reads, Option.map_map]
    by_cases here : slot = (r.row 0).slot
    · have found : t.versions.find? (·.slot == slot) = some held := by
        rw [here]
        exact found
      rw [if_pos here, found, Option.map_some, Function.comp_apply, if_pos rfl]
      rfl
    · rw [if_neg here, Tables.held]
      cases other : t.versions.find? (·.slot == slot) with
      | none => rfl
      | some v =>
          have apart : v.id ≠ held.id := by
            intro same
            have slot : v.slot = slot := by simpa using List.find?_some other
            cases List.inj_on_of_nodup_map keyed.versions (List.mem_of_find?_eq_some other)
              (List.mem_of_find?_eq_some found) same
            exact here (slot.symm.trans own)
          rw [Option.map_some, Option.map_some, Function.comp_apply, if_neg apart]
  case h_2 absent =>
    have none : ∀ v ∈ t.versions, v.slot ≠ (r.row 0).slot := by
      intro v mem same
      have miss := List.find?_eq_none.mp absent v mem
      rw [same] at miss
      exact miss (beq_self_eq_true _)
    rw [Tables.held, List.find?_append]
    by_cases here : slot = (r.row 0).slot
    · have miss : t.versions.find? (·.slot == slot) = Option.none :=
        List.find?_eq_none.mpr fun v mem => by simpa [here] using none v mem
      rw [if_pos here, miss, Option.none_or, here, List.find?_cons_of_pos (by simp [r.row_slot])]
      rfl
    · have other : (r.row (t.versionSeq + 1)).slot ≠ slot := fun same => here same.symm
      rw [if_neg here, List.find?_cons_of_neg (by simpa using other), List.find?_nil, Option.or_none]
      rfl

/-! ### What is due -/

section Due

variable {ε : Type} (parse : ε → Option Detail) (repository : Int)

/-- An update at or before `s` of a record the mirror can read from there on. -/
structure Due (m : Mirror ε) (s : Instant) (r : Listed ε) : Prop where
  mem : r ∈ m.updates
  before : r.at_ ≤ s
  readable : m.ReadableSince parse r

/-- Of what is due, all that a predicate covers is held. -/
def Covered (m : Mirror ε) (s : Instant) (covers : Listed ε → Prop) : Prop :=
  ∀ r, Due parse m s r → covers r → m.HasSince parse repository r

end Due

section Parse

variable {ε κ : Type} [LinearOrder κ] {parse : ε → Option Detail} {rank : Text × Text → κ}
  {position : Text → κ} {repository : Int} {m : Mirror ε}

theorem translate_eq_some {e : ε} {now : Instant} {w : RecordWrite}
    (translated : translate parse repository e now = some w) :
    ∃ d, parse e = some d ∧ (w.row 0).slot = (repository, d.name, d.version) ∧
      w.envelopeJson = d.envelopeJson := by
  simp only [translate, Option.bind_eq_some_iff] at translated
  obtain ⟨d, parsed, written⟩ := translated
  refine ⟨d, parsed, ?_⟩
  rw [recordWrite] at written
  split at written
  · cases written
  · cases written
  · cases Option.some.inj written
    exact ⟨rfl, rfl⟩

theorem translate_isSome {e : ε} (readable : Readable parse e) (now : Instant) :
    (translate parse repository e now).isSome = true := by
  obtain ⟨d, parsed, named, versioned⟩ := readable
  rw [translate, parsed, Option.bind_some, recordWrite]
  split
  · rename_i refused
    cases named.symm.trans refused
  · rename_i refused
    cases versioned.symm.trans refused
  · rfl

theorem exists_current {updates : List (Listed ε)} {r : Listed ε} (mem : r ∈ updates) :
    ∃ x ∈ current updates, x.key = r.key ∧ r.at_ ≤ x.at_ := by
  have among : r ∈ updates.filter fun x => x.key == r.key :=
    List.mem_filter.mpr ⟨mem, beq_self_eq_true _⟩
  cases last : List.argmax (fun x : Listed ε => x.at_) (updates.filter fun x => x.key == r.key) with
  | none =>
      rw [List.argmax_eq_none.mp last] at among
      cases among
  | some x =>
      have ⟨there, own⟩ := List.mem_filter.mp (List.argmax_mem last)
      have own : x.key = r.key := by simpa using own
      have newest : ∀ y ∈ updates, y.key = x.key → y.at_ ≤ x.at_ := fun y among same =>
        List.le_of_mem_argmax (List.mem_filter.mpr ⟨among, by simpa using same.trans own⟩) last
      refine ⟨x, List.mem_filter.mpr ⟨there, ?_⟩, own, newest r mem own.symm⟩
      simp only [List.all_eq_true, Bool.or_eq_true, bne_iff_ne, ne_eq, decide_eq_true_eq]
      exact fun y among => or_iff_not_imp_left.mpr fun same => newest y among (not_not.mp same)

theorem newest_of_current {updates : List (Listed ε)} {x r : Listed ε} (last : x ∈ current updates)
    (mem : r ∈ updates) (same : r.key = x.key) : r.at_ ≤ x.at_ := by
  have all := List.all_eq_true.mp (List.mem_filter.mp last).2 r mem
  simpa [same] using all

/-! ### Where a run is -/

section Job

variable (parse rank position repository m)

/-- The records a cursor is past. -/
def Passed (cursor : Option Text) (r : Listed ε) : Prop := ∃ c ∈ cursor, rank r.key ≤ position c

/-- Those before the end of a page. -/
def Within (q : FeedQuery) (page : FeedPage ε) (r : Listed ε) : Prop :=
  Passed rank position q.cursor r ∨ ∀ c ∈ page.nextCursor, rank r.key ≤ position c

/-- While a page is written: what is left of it is newer than what is due, and what is due before its end
is held or comes with the rest of it. -/
structure Reading (started : Instant) (query : FeedQuery) (page : FeedPage ε) (rest : List ε) : Prop where
  paged : page.nextCursor.isSome = true → page.servers.isEmpty = false
  fetched : ∀ e ∈ rest, ∃ x ∈ m.updates, x.envelope = e ∧
    ∀ r ∈ m.updates, r.key = x.key → r.at_ ≤ started → r.at_ ≤ x.at_
  coming : ∀ r, Due parse m started r → Within rank position query page r →
    m.HasSince parse repository r ∨
      ∃ x ∈ m.updates, x.key = r.key ∧ r.at_ ≤ x.at_ ∧ x.envelope ∈ rest

/-- What a run has covered. -/
def Job.Done (job : Job ε) : Prop :=
  match job.phase with
  | .asking => Covered parse repository m job.started (Passed rank position job.query.cursor)
  | .reading page rest =>
      Reading parse rank position repository m job.started job.query page rest
  | .ended outcome => outcome = .ok () → Covered parse repository m job.started fun _ => True

/-- A run since the last success: its window begins before that one did, and what it covered is held. -/
structure Job.Inv (job : Job ε) : Prop where
  started : job.started ≤ m.now
  later : ∀ s ∈ m.succeeded, s ≤ job.started
  state : job.state.highWater = m.stored.highWater
  since : ∀ h ∈ job.query.updatedSince, ∃ s ∈ m.succeeded, h ≤ s - skew
  deleted : job.query.includeDeleted = true
  done : job.Done parse rank position repository m

/-- What every mirror has that such a history leads to. -/
structure Mirror.Inv : Prop where
  keyed : m.tables.Keyed
  dated : ∀ r ∈ m.updates, r.at_ ≤ m.now ∧ r.at_ - skew < r.updatedAt
  named : ∀ r ∈ m.updates, ∀ d ∈ parse r.envelope, (d.name, d.version) = r.key
  highWater : ∀ h ∈ m.stored.highWater, ∃ s ∈ m.succeeded, h ≤ s - skew
  succeeded : ∀ s ∈ m.succeeded, s ≤ m.now ∧ Covered parse repository m s fun _ => True
  job : ∀ job ∈ m.job, job.Inv parse rank position repository m

end Job

/-! ### The upstream goes on -/

/-- Time passes and records are updated; the mirror's rows are not touched. -/
structure Grows (m m' : Mirror ε) : Prop where
  now : m.now ≤ m'.now
  updates : ∀ r ∈ m.updates, r ∈ m'.updates
  fresh : ∀ r ∈ m'.updates, r ∈ m.updates ∨ m.now < r.at_
  tables : m'.tables = m.tables
  stored : m'.stored = m.stored
  succeeded : m'.succeeded = m.succeeded

section Grows

variable {m' : Mirror ε} {s : Instant} {r : Listed ε}

theorem Grows.due (grows : Grows m m') (before : s ≤ m.now) (due : Due parse m' s r) : Due parse m s r where
  mem := by
    rcases grows.fresh r due.mem with old | new
    · exact old
    · exact absurd (due.before.trans before) (not_le.mpr new)
  before := due.before
  readable := fun x mem => due.readable x (grows.updates x mem)

theorem Grows.hasSince (grows : Grows m m') (has : m.HasSince parse repository r) :
    m'.HasSince parse repository r := by
  obtain ⟨x, mem, same, newer, d, parsed, held⟩ := has
  exact ⟨x, grows.updates x mem, same, newer, d, parsed, grows.tables ▸ held⟩

theorem Grows.covered (grows : Grows m m') (before : s ≤ m.now) {covers : Listed ε → Prop}
    (covered : Covered parse repository m s covers) : Covered parse repository m' s covers :=
  fun r due here => grows.hasSince (covered r (grows.due before due) here)

theorem Grows.reading (grows : Grows m m') (before : s ≤ m.now) {query : FeedQuery}
    {page : FeedPage ε} {rest : List ε}
    (reading : Reading parse rank position repository m s query page rest) :
    Reading parse rank position repository m' s query page rest where
  paged := reading.paged
  fetched := by
    intro e mem
    obtain ⟨x, there, same, newest⟩ := reading.fetched e mem
    refine ⟨x, grows.updates x there, same, fun r among key due => ?_⟩
    rcases grows.fresh r among with old | new
    · exact newest r old key due
    · exact absurd (due.trans before) (not_le.mpr new)
  coming := by
    intro r due within
    rcases reading.coming r (grows.due before due) within with has | ⟨x, there, rest⟩
    · exact .inl (grows.hasSince has)
    · exact .inr ⟨x, grows.updates x there, rest⟩

theorem Grows.done (grows : Grows m m') {job : Job ε} (before : job.started ≤ m.now)
    (done : job.Done parse rank position repository m) :
    job.Done parse rank position repository m' := by
  rw [Job.Done] at done ⊢
  split at done
  · exact grows.covered before done
  · exact grows.reading before done
  · exact fun ok => grows.covered before (done ok)

theorem Grows.jobInv (grows : Grows m m') {job : Job ε}
    (inv : job.Inv parse rank position repository m) :
    job.Inv parse rank position repository m' where
  started := inv.started.trans grows.now
  later := grows.succeeded ▸ inv.later
  state := grows.stored ▸ inv.state
  since := grows.succeeded ▸ inv.since
  deleted := inv.deleted
  done := grows.done inv.started inv.done

theorem Mirror.Inv.grows (inv : m.Inv parse rank position repository) (grows : Grows m m')
    (dated : ∀ r ∈ m'.updates, r.at_ ≤ m'.now ∧ r.at_ - skew < r.updatedAt)
    (named : ∀ r ∈ m'.updates, ∀ d ∈ parse r.envelope, (d.name, d.version) = r.key)
    (job : ∀ job ∈ m'.job, job.Inv parse rank position repository m') :
    m'.Inv parse rank position repository where
  keyed := grows.tables ▸ inv.keyed
  dated := dated
  named := named
  highWater := grows.stored ▸ grows.succeeded ▸ inv.highWater
  succeeded := by
    rw [grows.succeeded]
    intro s success
    have ⟨before, covered⟩ := inv.succeeded s success
    exact ⟨before.trans grows.now, grows.covered before covered⟩
  job := job

theorem Mirror.Inv.withJob (inv : m.Inv parse rank position repository) {next : Option (Job ε)}
    (job : ∀ job ∈ next, job.Inv parse rank position repository m) :
    Mirror.Inv parse rank position repository { m with job := next } := by
  have grows : Grows m { m with job := next } := ⟨le_refl _, fun _ mem => mem, fun _ => .inl, rfl, rfl, rfl⟩
  exact inv.grows grows inv.dated inv.named fun one is => grows.jobInv (job one is)

end Grows

/-! ### The moves of a run -/

section Moves

variable {job : Job ε} {page : FeedPage ε} {e : ε} {rest : List ε}

theorem Mirror.Inv.begin (inv : m.Inv parse rank position repository) (forceFull : Bool) :
    (m.begin_ forceFull).Inv parse rank position repository m where
  started := le_refl _
  later := fun s success => (inv.succeeded s success).1
  state := rfl
  since := by
    intro h bound
    refine inv.highWater h ?_
    simp only [Mirror.begin_] at bound
    split at bound
    · cases bound
    · exact bound
  deleted := rfl
  done := by
    rintro r due ⟨c, ⟨⟩, _⟩

/-- What is due and not held yet is in the page that is asked for, up to its end. -/
theorem Mirror.Inv.answer (inv : m.Inv parse rank position repository)
    (held : job.Inv parse rank position repository m) (asking : job.phase = .asking)
    (answers : Answers rank position m.updates job.query page)
    (paged : page.nextCursor.isSome = true → page.servers.isEmpty = false) :
    Reading parse rank position repository m job.started job.query page page.servers where
  paged := paged
  fetched := by
    intro e mem
    obtain ⟨x, last, same⟩ := answers.current e mem
    exact ⟨x, (List.mem_filter.mp last).1, same, fun r among key _ => newest_of_current last among key⟩
  coming := by
    intro r due within
    have covered := held.done
    rw [Job.Done, asking] at covered
    by_cases passed : Passed rank position job.query.cursor r
    · exact .inl (covered r due passed)
    have beyond : ∀ c ∈ job.query.cursor, position c < rank r.key := fun c is =>
      not_le.mp fun less => passed ⟨c, is, less⟩
    have ends := within.resolve_left passed
    -- what the last success covered is held, and the rest was updated after its window began
    by_cases before : ∃ s ∈ m.succeeded, r.at_ ≤ s
    · obtain ⟨s, success, early⟩ := before
      exact .inl ((inv.succeeded s success).2 r ⟨due.mem, early, due.readable⟩ trivial)
    obtain ⟨x, last, same, newer⟩ := exists_current due.mem
    have there := (List.mem_filter.mp last).1
    refine .inr ⟨x, there, same, newer, answers.complete x last ⟨?_, .inl held.deleted⟩ ?_ ?_⟩
    · intro since bound
      obtain ⟨s, success, less⟩ := held.since since bound
      have late : s < r.at_ := not_le.mp fun early => before ⟨s, success, early⟩
      have dated := (inv.dated x there).2
      calc readTs (bindTs since)
          ≤ since := Int.ediv_mul_le since (by decide)
        _ ≤ s - skew := less
        _ ≤ x.at_ - skew := Int.sub_le_sub_right (late.le.trans newer) skew
        _ ≤ x.updatedAt := dated.le
    · exact fun c is => same ▸ beyond c is
    · exact fun c is => same ▸ ends c is

theorem hasSince_upsertRecord (inv : m.Inv parse rank position repository) {x : Listed ε} {w : RecordWrite}
    (there : x ∈ m.updates) (translated : translate parse repository x.envelope m.now = some w)
    {r : Listed ε} (newer : r.key = x.key → r.at_ ≤ x.at_) {newJob : Option (Job ε)}
    (has : m.HasSince parse repository r ∨ r.key = x.key) :
    Mirror.HasSince parse repository { m with tables := m.tables.upsertRecord w, job := newJob } r := by
  obtain ⟨d, parsed, slot, json⟩ := translate_eq_some translated
  have named := inv.named x there d parsed
  have own : (w.row 0).slot = (repository, x.key.1, x.key.2) := by rw [slot, ← named]
  by_cases same : r.key = x.key
  · refine ⟨x, there, same.symm, newer same, d, parsed, ?_⟩
    rw [held_upsertRecord inv.keyed, if_pos own.symm, json]
  · obtain ⟨y, among, key, late, d, parsed, held⟩ := has.resolve_right same
    refine ⟨y, among, key, late, d, parsed, ?_⟩
    have apart : (repository, y.key.1, y.key.2) ≠ (w.row 0).slot := by
      rw [own]
      intro equal
      refine same (key.symm.trans (Prod.ext ?_ ?_))
      · exact congrArg (fun slot => slot.2.1) equal
      · exact congrArg (fun slot => slot.2.2) equal
    rw [held_upsertRecord inv.keyed, if_neg apart]
    exact held

theorem Mirror.Inv.take (inv : m.Inv parse rank position repository)
    (held : job.Inv parse rank position repository m) (reads : job.phase = .reading page (e :: rest)) :
    (m.take parse repository job page e rest).Inv parse rank position repository := by
  have reading := held.done
  rw [Job.Done, reads] at reading
  obtain ⟨x, there, same, newest⟩ := reading.fetched e List.mem_cons_self
  rw [Mirror.take]
  split
  case h_1 w translated =>
    rw [← same] at translated
    let m' : Mirror ε := { m with tables := m.tables.upsertRecord w }
    have due : ∀ {s : Instant} {r : Listed ε}, Due parse m' s r → Due parse m s r :=
      fun due => ⟨due.mem, due.before, due.readable⟩
    have keeps : ∀ {r : Listed ε}, r ∈ m.updates → r.at_ ≤ job.started →
        m.HasSince parse repository r → m'.HasSince parse repository r := fun mem before has =>
      hasSince_upsertRecord inv there translated (fun key => newest _ mem key before) (.inl has)
    refine
      { keyed := Tables.Keyed.write inv.keyed (w := .upsertRecord w) rfl
        dated := inv.dated
        named := inv.named
        highWater := inv.highWater
        succeeded := fun s success => ⟨(inv.succeeded s success).1, fun r is here => ?_⟩
        job := ?_ }
    · exact keeps is.mem (is.before.trans (held.later s success))
        ((inv.succeeded s success).2 r ⟨is.mem, is.before, is.readable⟩ here)
    · rintro _ ⟨⟩
      refine
        { started := held.started
          later := held.later
          state := held.state
          since := held.since
          deleted := held.deleted
          done :=
            { paged := reading.paged
              fetched := fun e mem => reading.fetched e (List.mem_cons_of_mem _ mem)
              coming := fun r is within => ?_ } }
      rcases reading.coming r ⟨is.mem, is.before, is.readable⟩ within with has | ⟨y, among, key, late, mem⟩
      · exact .inl (keeps is.mem is.before has)
      · rcases List.mem_cons.mp mem with here | later
        · refine .inl (hasSince_upsertRecord inv there translated
            (fun key => newest r is.mem key is.before) (.inr ?_))
          obtain ⟨d, parsed, _⟩ := translate_eq_some translated
          have one := inv.named x there d parsed
          have other := inv.named y among d (by rw [here, ← same]; exact parsed)
          exact key.symm.trans (other.symm.trans one)
        · exact .inr ⟨y, among, key, late, later⟩
  case h_2 refused =>
    refine inv.withJob ?_
    rintro _ ⟨⟩
    refine
      { started := held.started
        later := held.later
        state := held.state
        since := held.since
        deleted := held.deleted
        done :=
          { paged := reading.paged
            fetched := fun e mem => reading.fetched e (List.mem_cons_of_mem _ mem)
            coming := fun r is within => ?_ } }
    rcases reading.coming r ⟨is.mem, is.before, is.readable⟩ within with has | ⟨y, among, key, late, mem⟩
    · exact .inl has
    · rcases List.mem_cons.mp mem with here | later
      · have readable := is.readable y among key late
        rw [here] at readable
        have taken : (translate parse repository e m.now).isSome = true :=
          translate_isSome readable m.now
        rw [refused] at taken
        cases taken
      · exact .inr ⟨y, among, key, late, later⟩

theorem Job.Inv.turn (held : job.Inv parse rank position repository m)
    (reads : job.phase = .reading page []) :
    (Mirror.turn job page).Inv parse rank position repository m := by
  have reading := held.done
  rw [Job.Done, reads] at reading
  have all : ∀ r, Due parse m job.started r → Within rank position job.query page r →
      m.HasSince parse repository r := by
    intro r due within
    rcases reading.coming r due within with has | ⟨_, _, _, _, none⟩
    · exact has
    · cases none
  rw [Mirror.turn]
  cases cursor : page.nextCursor with
  | none =>
      refine { held with done := fun _ r due _ => all r due (.inr ?_) }
      rw [cursor]
      rintro _ ⟨⟩
  | some next =>
      have some := reading.paged (by rw [cursor]; rfl)
      simp only [some, Bool.false_eq_true, if_false]
      split
      · exact { held with done := nofun }
      · refine { held with done := ?_ }
        rintro r due ⟨c, ⟨⟩, less⟩
        refine all r due (.inr fun c is => ?_)
        rw [cursor] at is
        cases is
        exact less

/-- A run that succeeded has covered what was due when it started; its mark is a skew before. -/
theorem Mirror.Inv.save (inv : m.Inv parse rank position repository)
    (held : job.Inv parse rank position repository m) {outcome : Except Text Unit}
    (ended : job.phase = .ended outcome) :
    Mirror.Inv parse rank position repository { m with
      job := none
      stored := (Mirror.saved job outcome).kept
      succeeded := if outcome.toBool then some job.started else m.succeeded } := by
  have floor : ∀ at_ : Instant, readTs (bindTs at_) ≤ at_ := fun at_ => Int.ediv_mul_le at_ (by decide)
  have covered := held.done
  rw [Job.Done, ended] at covered
  cases outcome with
  | ok _ =>
      refine { inv with highWater := ?_, succeeded := ?_, job := by rintro _ ⟨⟩ }
      · intro h mark
        have mark : readTs (bindTs (job.started - skew)) = h := Option.some.inj mark
        exact ⟨job.started, rfl, mark ▸ floor (job.started - skew)⟩
      · intro s success
        have same : job.started = s := Option.some.inj success
        rw [← same]
        exact ⟨held.started, fun r due here => covered rfl r ⟨due.mem, due.before, due.readable⟩ here⟩
  | error why =>
      refine { inv with highWater := ?_, succeeded := ?_, job := by rintro _ ⟨⟩ }
      · intro h mark
        simp only [SyncState.kept, Mirror.saved, held.state, Option.mem_def, Option.map_eq_some_iff] at mark
        obtain ⟨before, is, rfl⟩ := mark
        obtain ⟨s, success, less⟩ := inv.highWater before is
        exact ⟨s, success, (floor before).trans less⟩
      · intro s success
        have ⟨before, all⟩ := inv.succeeded s success
        exact ⟨before, fun r due here => all r ⟨due.mem, due.before, due.readable⟩ here⟩

end Moves

/-- What a mirror has, every move keeps, as long as the upstream answers as it is promised to and no page
that carries a cursor is empty. -/
theorem Mirror.Inv.step {m' : Mirror ε} {move : Move ε} (inv : m.Inv parse rank position repository)
    (taken : m.step parse repository move = some m')
    (assumed : Assumed parse rank position m move) (paged : Paged move) :
    m'.Inv parse rank position repository := by
  cases move with
  | tick passed =>
      cases taken
      have later : m.now ≤ m.now + passed := by simp
      have grows : Grows m { m with now := m.now + passed } :=
        ⟨later, fun _ mem => mem, fun _ => .inl, rfl, rfl, rfl⟩
      exact inv.grows grows (fun r mem => ⟨(inv.dated r mem).1.trans later, (inv.dated r mem).2⟩) inv.named
        fun job is => grows.jobInv (inv.job job is)
  | update key envelope deleted updatedAt passed =>
      cases taken
      obtain ⟨dated, named⟩ := assumed
      have later : m.now < m.now + passed + 1 := by
        have := Int.natCast_nonneg passed
        exact Int.lt_add_one_of_le (Int.le_add_of_nonneg_right this)
      let new : Listed ε := ⟨key, envelope, deleted, updatedAt, m.now + passed + 1⟩
      have grows : Grows m { m with now := m.now + passed + 1, updates := m.updates ++ [new] } := by
        refine ⟨later.le, fun r mem => List.mem_append_left _ mem, fun r mem => ?_, rfl, rfl, rfl⟩
        rcases List.mem_append.mp mem with old | fresh
        · exact .inl old
        · rw [List.mem_singleton.mp fresh]
          exact .inr later
      refine inv.grows grows (fun r mem => ?_) (fun r mem => ?_) fun job is => grows.jobInv (inv.job job is)
      · rcases List.mem_append.mp mem with old | fresh
        · exact ⟨(inv.dated r old).1.trans later.le, (inv.dated r old).2⟩
        · rw [List.mem_singleton.mp fresh]
          have lower := (abs_lt.mp dated).1
          exact ⟨le_refl _, by simp only; linarith⟩
      · rcases List.mem_append.mp mem with old | fresh
        · exact inv.named r old
        · rw [List.mem_singleton.mp fresh]
          exact named
  | start forceFull =>
      rw [Mirror.step] at taken
      split at taken
      · cases taken
        refine inv.withJob ?_
        rintro _ ⟨⟩
        exact inv.begin forceFull
      · cases taken
  | answer page =>
      rw [Mirror.step] at taken
      split at taken
      · rename_i job running
        split at taken
        · rename_i asking
          cases taken
          have held := inv.job job running
          have reading := inv.answer held asking (assumed job running) paged
          refine inv.withJob ?_
          rintro _ ⟨⟩
          exact { held with done := reading }
        · cases taken
      · cases taken
  | take =>
      rw [Mirror.step] at taken
      split at taken
      · rename_i job running
        split at taken
        · rename_i reads
          cases taken
          exact inv.take (inv.job job running) reads
        · cases taken
      · cases taken
  | turn =>
      rw [Mirror.step] at taken
      split at taken
      · rename_i job running
        split at taken
        · rename_i reads
          cases taken
          refine inv.withJob ?_
          rintro _ ⟨⟩
          exact (inv.job job running).turn reads
        · cases taken
      · cases taken
  | refuse why =>
      rw [Mirror.step] at taken
      split at taken
      · rename_i job running
        split at taken
        · cases taken
        · cases taken
          refine inv.withJob ?_
          rintro _ ⟨⟩
          exact { inv.job job running with done := nofun }
      · cases taken
  | save =>
      rw [Mirror.step] at taken
      split at taken
      · rename_i job running
        split at taken
        · rename_i outcome ended
          cases taken
          exact inv.save (inv.job job running) ended
        · cases taken
      · cases taken
  | stop =>
      cases taken
      refine inv.withJob ?_
      rintro _ ⟨⟩

theorem inv_start (now : Instant) : (Mirror.start now).Inv parse rank position repository where
  keyed := keyed_empty
  dated := by rintro r ⟨⟩
  named := by rintro r ⟨⟩
  highWater := by rintro h ⟨⟩
  succeeded := by rintro s ⟨⟩
  job := by rintro job ⟨⟩

end Parse

/-- In every history of updates and every sequence of runs, succeeding or failing at any page, in which
no page that carries a cursor is empty: after a run that succeeded and started at `s`, the mirror holds,
of every record it can read, content at least as new as its last update at or before `s`. -/
theorem sync_misses_no_update {ε κ : Type} [LinearOrder κ] (parse : ε → Option Detail)
    (rank : Text × Text → κ) (position : Text → κ) (repository : Int) (now : Instant)
    {moves : List (Move ε)} {m : Mirror ε}
    (run : Run (Mirror.step parse repository)
      (fun m move _ => Assumed parse rank position m move ∧ Paged move) (.start now) moves m)
    {s : Instant} (success : m.succeeded = some s) : m.Holds parse repository s := by
  have inv : m.Inv parse rank position repository :=
    run.invariant (fun m => m.Inv parse rank position repository) (inv_start now)
      fun m move m' inv taken met => inv.step taken met.1 met.2
  exact fun r mem before readable => (inv.succeeded s success).2 r ⟨mem, before, readable⟩ trivial

/-! ### One record -/

/-- The one record of an upstream; its wire form is what it is read as. -/
def onlyRecord : Detail where
  name := "a/b".toList
  version := "1".toList
  envelopeJson := "first".toList
  status := .active
  isLatest := true
  remoteUrls := []
  declared := ⟨.declared, [], none, "p".toList, "d".toList, []⟩

/-- It is listed, and a run asks for the first page. -/
def listed : List (Move Detail) :=
  [.update ("a/b".toList, "1".toList) onlyRecord false 0 0, .start false]

/-- The run goes on until the mirror holds the record. -/
def oneFullPage : List (Move Detail) :=
  listed ++ [.answer ⟨[onlyRecord], none⟩, .take, .turn, .save]

/-- The first page is empty, and its cursor is before the record. -/
def oneEmptyPage : List (Move Detail) :=
  listed ++ [.answer ⟨[], some "a".toList⟩, .turn, .save]

theorem one_full_page_is_held :
    ∃ m, Run (Mirror.step some 1)
        (fun m move _ => Assumed some (fun _ => 1) (fun _ => 0) m move ∧ Paged move)
        (.start 0) oneFullPage m ∧ m.updates.length = 1 ∧ m.Holds some 1 1 := by
  obtain ⟨m, run, held⟩ := Run.of_test (Mirror.step some 1)
    (fun m move _ => Assumed some (fun _ => (1 : ℕ)) (fun _ => 0) m move ∧ Paged move)
    (.start 0) oneFullPage (fun m => decide (m.updates.length = 1 ∧ m.succeeded = some 1))
    (by decide +kernel)
  have held := of_decide_eq_true held
  exact ⟨m, run, held.1, sync_misses_no_update some _ _ 1 0 run held.2⟩

/-- The run ends with the empty page, returns `Ok` and moves its mark; the record, last updated when it
started, is not there. -/
theorem empty_page_ends_the_run :
    ∃ m, Run (Mirror.step some 1) (fun m move _ => Assumed some (fun _ => 1) (fun _ => 0) m move)
        (.start 0) oneEmptyPage m ∧ m.succeeded = some 1 ∧ m.stored.highWater = some (-60000000000) ∧
      ¬m.Holds some 1 1 := by
  obtain ⟨m, run, missed⟩ := Run.of_test (Mirror.step some 1)
    (fun m move _ => Assumed some (fun _ => (1 : ℕ)) (fun _ => 0) m move) (.start 0) oneEmptyPage
    (fun m => decide (m.succeeded = some 1 ∧ m.stored.highWater = some (-60000000000) ∧
      m.tables.versions = [] ∧ m.updates = [⟨("a/b".toList, "1".toList), onlyRecord, false, 0, 1⟩]))
    (by decide +kernel)
  obtain ⟨success, mark, empty, updates⟩ := of_decide_eq_true missed
  refine ⟨m, run, success, mark, fun holds => ?_⟩
  obtain ⟨x, _, _, _, d, _, held⟩ := holds ⟨("a/b".toList, "1".toList), onlyRecord, false, 0, 1⟩
    (updates ▸ List.mem_singleton_self _) (le_refl _) (by
      intro x mem _ _
      rw [updates] at mem
      cases List.mem_singleton.mp mem
      exact ⟨onlyRecord, rfl, by rfl, by rfl⟩)
  rw [Tables.held, empty] at held
  cases held

end OpenCargo.Mcp
