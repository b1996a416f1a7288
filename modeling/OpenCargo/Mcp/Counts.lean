/-
Module: OpenCargo.Mcp.Counts
Purpose: The finding counts a version carries. Every write leaves on each version the counts over its live
  surfaces; a recount of one repository reads every surface there is, so the two disagree where a
  superseded surface an approval pins keeps a finding nobody suppressed.
Trusted boundary: none
Main exports: Tables.Kept, Kept.write, Tables.readCounts, counts_agree_iff
-/
import OpenCargo.Mcp.Refresh

namespace OpenCargo.Mcp

open OpenCargo.Lib

/-! ### What the counts hang on -/

namespace Tables

variable {t t' : Tables}

/-- The findings on one surface. -/
def findingsOn (t : Tables) (surface : Int) : List Finding :=
  t.findings.filter (·.subject == .surface surface)

theorem countsOn_eq (suppressing : Option Int) (surface : Int) :
    t.countsOn suppressing surface =
      ((((t.findingsOn surface).countP fun f => f.high && !suppressing.any (t.suppressed · f) : ℕ) : ℤ),
        (((t.findingsOn surface).countP fun f => !f.high && !suppressing.any (t.suppressed · f) : ℕ) :
          ℤ)) := by
  simp only [countsOn, findingsOn, List.countP_filter]
  congr 3 <;> funext f <;> grind

theorem countsOver_congr {surfaces : List Int} {suppressing : Option Int}
    (findings : ∀ id ∈ surfaces, t'.findingsOn id = t.findingsOn id)
    (suppressed : ∀ r f, suppressing = some r → t'.suppressed r f = t.suppressed r f) :
    t'.countsOver surfaces suppressing = t.countsOver surfaces suppressing := by
  have same : ∀ id ∈ surfaces, t'.countsOn suppressing id = t.countsOn suppressing id := by
    intro id mem
    rw [countsOn_eq, countsOn_eq, findings id mem]
    cases suppressing with
    | none => rfl
    | some r => simp only [Option.any_some, suppressed r _ rfl]
  rw [countsOver, countsOver, List.map_congr_left fun id mem => congrArg Prod.fst (same id mem),
    List.map_congr_left fun id mem => congrArg Prod.snd (same id mem)]

/-- The version carries the counts over its live surfaces. -/
def CountedAt (t : Tables) (v : ServerVersion) : Prop :=
  (v.findingsHigh, v.findingsMedium) = t.countsOver ((t.liveOf v).map Surface.id) none

/-- Every version does. -/
def Counted (t : Tables) : Prop := ∀ v ∈ t.versions, t.CountedAt v

/-- Every version does but the one that is being written. -/
def CountedBut (t : Tables) (versionId : Int) : Prop :=
  ∀ v ∈ t.versions, v.id ≠ versionId → t.CountedAt v

theorem Counted.but (counted : t.Counted) (versionId : Int) : t.CountedBut versionId :=
  fun v mem _ => counted v mem

theorem CountedAt.congr {v v' : ServerVersion} (counted : t.CountedAt v)
    (live : t'.liveOf v' = t.liveOf v)
    (findings : ∀ s ∈ t.liveOf v, t'.findingsOn s.id = t.findingsOn s.id)
    (high : v'.findingsHigh = v.findingsHigh) (medium : v'.findingsMedium = v.findingsMedium) :
    t'.CountedAt v' := by
  have sums : t'.countsOver ((t.liveOf v).map Surface.id) none =
      t.countsOver ((t.liveOf v).map Surface.id) none := by
    refine countsOver_congr (fun id mem => ?_) nofun
    obtain ⟨s, among, rfl⟩ := List.mem_map.mp mem
    exact findings s among
  rw [CountedAt, live, high, medium, sums]
  exact counted

end Tables

/-! ### Refresh -/

section Refresh

variable {t : Tables} {v : ServerVersion}

theorem findingsOn_deleteSurfaces {dead : List Int} {id : Int} (stays : id ∉ dead) :
    (t.deleteSurfaces dead).findingsOn id = t.findingsOn id := by
  simp only [Tables.deleteSurfaces, Tables.findingsOn, List.filter_filter]
  refine List.filter_congr fun f _ => ?_
  cases on : f.subject == Subject.surface id with
  | false => simp
  | true =>
      have subject : f.subject = .surface id := by simpa using on
      have apart : ∀ gone ∈ dead, ¬id = gone := fun gone mem same => stays (same ▸ mem)
      simpa [subject] using apart

theorem findingsOn_refreshRow (keyed : t.Keyed) {w : ServerVersion} (now : Instant)
    (urls : w.id = v.id → w.urls = v.urls) {s : Surface} (live : s ∈ t.liveOf w) :
    (t.refreshRow v now).findingsOn s.id = t.findingsOn s.id := by
  obtain ⟨there, own, _⟩ := mem_liveOf live
  refine findingsOn_deleteSurfaces (t := t.retireWithdrawn v) fun dead => ?_
  obtain ⟨whose, out⟩ := dead_iff (keyed.retireWithdrawn v) there dead
  have same : w.id = v.id := own.symm.trans whose
  have held : (t.retireWithdrawn v).liveOf v = t.liveOf w :=
    liveOf_congr rfl same.symm (urls same).symm
  exact out (held ▸ live)

theorem Tables.CountedBut.refreshRow (keyed : t.Keyed) (mem : v ∈ t.versions)
    (counted : t.CountedBut v.id) (now : Instant) : (t.refreshRow v now).Counted := by
  intro w there
  rcases mem_updateAt.mp there with ⟨old, other⟩ | ⟨old, was, same, rfl⟩
  · refine (counted w old other).congr ?_ ?_ rfl rfl
    · exact liveOf_refreshRow keyed now (fun same => absurd same other) rfl rfl
    · exact fun s live => findingsOn_refreshRow keyed now (fun same => absurd same other) live
  · cases List.inj_on_of_nodup_map keyed.versions was mem same
    have held : (t.retireWithdrawn v).liveOf v = t.liveOf v := liveOf_congr rfl rfl rfl
    rw [Tables.CountedAt, liveOf_refreshRow keyed now (fun _ => rfl) (w := v) (by rfl) (by rfl), ← held]
    rfl

theorem Tables.CountedBut.refresh (keyed : t.Keyed) {versionId : Int} (counted : t.CountedBut versionId)
    (now : Instant) : (t.refresh versionId now).Counted := by
  by_cases held : ∃ v ∈ t.versions, v.id = versionId
  · obtain ⟨v, mem, rfl⟩ := held
    rw [refresh_of_mem keyed mem]
    exact counted.refreshRow keyed mem now
  · have absent : ∀ v ∈ t.versions, v.id ≠ versionId := fun v mem same => held ⟨v, mem, same⟩
    rw [refresh_of_absent absent]
    exact fun v mem => counted v mem (absent v mem)

end Refresh

/-! ### A surface is written -/

theorem findingsOn_replaceFindings {t : Tables} {id other : Int} (apart : id ≠ other)
    (findings : List NewFinding) :
    (t.replaceFindings (.surface other) findings).findingsOn id = t.findingsOn id := by
  have inserts : ∀ rows : List Finding,
      (findings.foldl (insertFinding (.surface other)) rows).filter (·.subject == .surface id) =
        rows.filter (·.subject == .surface id) := by
    induction findings with
    | nil => exact fun rows => rfl
    | cons f findings ih =>
        intro rows
        rw [List.foldl_cons, ih]
        refine filter_upsert (by simpa using Ne.symm apart) fun row same => ?_
        have subject : row.subject = .surface other := congrArg Prod.fst same
        simpa [subject] using Ne.symm apart
  rw [Tables.findingsOn, Tables.replaceFindings, inserts, Tables.findingsOn, List.filter_filter]
  refine List.filter_congr fun f _ => ?_
  cases on : f.subject == Subject.surface id with
  | false => simp
  | true =>
      have subject : f.subject = .surface id := by simpa using on
      simpa [subject] using apart

theorem findingsOn_upsertSurface {t : Tables} (keyed : t.Keyed) {versionId : Int} (s : NewSurface)
    (now : Instant) {x : Surface} (there : x ∈ t.surfaces) (apart : x.versionId ≠ versionId) :
    (t.upsertSurface versionId s now).findingsOn x.id = t.findingsOn x.id := by
  rw [Tables.upsertSurface]
  split
  case h_1 held found =>
    refine findingsOn_replaceFindings (fun same => apart ?_) _
    cases List.inj_on_of_nodup_map keyed.surfaces there (List.mem_of_find?_eq_some found) same
    exact versionId_of_find found
  case h_2 =>
    refine findingsOn_replaceFindings (fun same => ?_) _
    have below := keyed.surfacesBelow x there
    simp only [NewSurface.row] at same
    omega

theorem Tables.CountedBut.upsertSurface {t : Tables} (keyed : t.Keyed) {versionId : Int}
    (counted : t.CountedBut versionId) (s : NewSurface) (now : Instant) :
    (t.upsertSurface versionId s now).CountedBut versionId := by
  intro v mem apart
  rw [upsertSurface_versions] at mem
  refine (counted v mem apart).congr ?_ ?_ rfl rfl
  · rw [liveOf_eq, liveOf_eq, newest_upsertSurface keyed s now apart]
  · intro x live
    obtain ⟨there, own, _⟩ := mem_liveOf live
    exact findingsOn_upsertSurface keyed s now there (own ▸ apart)

/-! ### The transactions -/

theorem Tables.Counted.writeRecord {t : Tables} (counted : t.Counted) (r : RecordWrite) :
    (t.writeRecord r).1.CountedBut (t.writeRecord r).2 := by
  rw [Tables.writeRecord]
  split
  case h_1 held found =>
    intro v mem apart
    rcases mem_updateAt.mp mem with ⟨old, _⟩ | ⟨old, _, same, rfl⟩
    · exact counted v old
    · exact absurd same apart
  case h_2 =>
    intro v mem apart
    rcases List.mem_append.mp mem with old | new
    · exact counted v old
    · exact absurd (congrArg ServerVersion.id (List.mem_singleton.mp new)) apart

theorem Tables.CountedBut.takeLatest {t : Tables} {versionId : Int} (counted : t.CountedBut versionId)
    (r : RecordWrite) (id : Int) : (t.takeLatest r id).CountedBut versionId := by
  intro v mem apart
  obtain ⟨old, there, latest, changed, rfl⟩ := mem_takeLatest mem
  obtain ⟨rows, same⟩ := takeLatest_rest t r id
  rw [same]
  exact (counted old there apart).congr (liveOf_congr rfl rfl rfl) (fun _ _ => rfl) rfl rfl

theorem Tables.Counted.decideAll {t t' : Tables} (keyed : t.Keyed) (counted : t.Counted)
    {approvals : List NewApproval} (decided : t.decideAll approvals = .ok t') : t'.Counted := by
  induction approvals generalizing t with
  | nil =>
      cases decided
      exact counted
  | cons a rest ih =>
      obtain ⟨written, write, decided⟩ := Lib.bind_eq_ok.mp decided
      have start : written.Keyed ∧ written.Counted := by
        refine ⟨keyed.writeApproval write, ?_⟩
        obtain ⟨rows, seq, rfl⟩ := writeApproval_rest write
        exact fun v mem => (counted v mem).congr (liveOf_congr rfl rfl rfl) (fun _ _ => rfl) rfl rfl
      have refreshed : ∀ ids : List Int,
          (ids.foldl (fun t id => t.refresh id a.now) written).Keyed ∧
            (ids.foldl (fun t id => t.refresh id a.now) written).Counted := by
        intro ids
        refine foldl_refresh (I := fun t => t.Keyed ∧ t.Counted) (fun t id now held => ?_) start ids _
        exact ⟨held.1.refresh id now, (held.2.but id).refresh held.1 now⟩
      exact ih (refreshed _).1 (refreshed _).2 decided

theorem Tables.Counted.dropVersions {t : Tables} (keyed : t.Keyed) (counted : t.Counted)
    (repository : Int) {gone : ServerVersion → Bool}
    (own : ∀ v ∈ t.versions, v.repositoryId = repository → gone v = true) :
    ((t.forgetFindings repository).dropVersions gone).Counted := by
  intro v mem
  obtain ⟨there, stays⟩ : v ∈ t.versions ∧ gone v = false := by
    simpa [Tables.dropVersions, Tables.forgetFindings] using mem
  have elsewhere : v.repositoryId ≠ repository := by
    intro same
    rw [own v there same] at stays
    cases stays
  have kept : ∀ w ∈ t.versions, w.id = v.id → w = v :=
    fun w among same => List.inj_on_of_nodup_map keyed.versions among there same
  refine (counted v there).congr ?_ ?_ rfl rfl
  · have keyed' : (t.forgetFindings repository).Keyed :=
      keyed.of_sublist (.refl _) (.refl _) (.refl _) rfl rfl rfl
    exact (liveOf_dropVersions keyed' there stays).trans (liveOf_congr rfl rfl rfl)
  · intro s live
    obtain ⟨held, whose, _⟩ := mem_liveOf live
    simp only [Tables.findingsOn, Tables.dropVersions, Tables.forgetFindings, List.filter_filter]
    refine List.filter_congr fun f _ => ?_
    cases on : f.subject == Subject.surface s.id with
    | false => simp
    | true =>
        have subject : f.subject = .surface s.id := by simpa using on
        simp only [Bool.true_and, Bool.not_eq_true', List.any_eq_false, beq_iff_eq, subject,
          Subject.surface.injEq, List.mem_map, List.mem_filter, List.contains_eq_mem,
          decide_eq_true_eq]
        rintro id ⟨x, ⟨among, w, ⟨row, here⟩, same⟩, rfl⟩ equal
        cases List.inj_on_of_nodup_map keyed.surfaces among held equal.symm
        cases kept w row (same.trans whose)
        exact elsewhere here

/-- What the callers of the store keep to: a record is published in a repository or mirrored into one,
never both in the same, and the cache of a mirror alone is purged. -/
def Issued (mirror : Int → Bool) (_ : Tables) (w : Write) (_ : Tables) : Prop :=
  match w with
  | .upsertRecord r => r.hosted = !mirror r.repository
  | .purge repository => mirror repository = true
  | _ => True

instance (mirror : Int → Bool) (t : Tables) (w : Write) (t' : Tables) :
    Decidable (Issued mirror t w t') := by
  cases w <;> unfold Issued <;> infer_instance

/-- What every store has that such writes lead to: keys, one kind of record to a repository, and on
every version the counts over its live surfaces. -/
structure Tables.Kept (mirror : Int → Bool) (t : Tables) : Prop where
  keyed : t.Keyed
  mirrored : ∀ v ∈ t.versions, v.hosted = !mirror v.repositoryId
  counted : t.Counted

section Writes

variable {mirror : Int → Bool} {t t' : Tables} {w : Write}

theorem Tables.Kept.mirrored_write (kept : t.Kept mirror) (issued : Issued mirror t w t')
    (done : t.write w = .ok t') : ∀ v ∈ t'.versions, v.hosted = !mirror v.repositoryId := by
  have before : ∀ one ∈ t.versions.map ServerVersion.identity, one.2 = !mirror one.1.1 := by
    intro one mem
    obtain ⟨v, there, rfl⟩ := List.mem_map.mp mem
    exact kept.mirrored v there
  have after : ∀ one ∈ t'.versions.map ServerVersion.identity, one.2 = !mirror one.1.1 := by
    intro one mem
    rcases write_identities done with fewer | ⟨r, rfl, ⟨held, _, _, same⟩ | ⟨_, same⟩⟩
    · exact before one (fewer.subset mem)
    · rw [same] at mem
      obtain ⟨v, there, rfl⟩ := List.mem_map.mp mem
      split
      · exact issued
      · exact kept.mirrored v there
    · rw [same] at mem
      rcases List.mem_append.mp mem with old | new
      · exact before one old
      · rw [List.mem_singleton.mp new]
        exact issued
  exact fun v mem => after _ (List.mem_map_of_mem mem)

theorem Tables.Kept.counted_write (kept : t.Kept mirror) (issued : Issued mirror t w t')
    (done : t.write w = .ok t') : t'.Counted := by
  have untouched : ∀ {t' : Tables}, t'.versions = t.versions → t'.surfaces = t.surfaces →
      t'.findings = t.findings → t'.Counted := by
    intro t' versions surfaces findings v mem
    refine (kept.counted v (versions ▸ mem)).congr (liveOf_congr surfaces rfl rfl) (fun s _ => ?_) rfl rfl
    rw [Tables.findingsOn, findings, Tables.findingsOn]
  cases w with
  | upsertRecord r =>
      cases done
      have written := (kept.counted.writeRecord r).takeLatest r (t.writeRecord r).2
      have keyed := (kept.keyed.writeRecord r).takeLatest r (t.writeRecord r).2
      exact (written.upsertSurface keyed _ _).refresh (keyed.upsertSurface _ _ _) _
  | recordProbe run =>
      cases done
      rw [Tables.recordProbe]
      split
      · split
        · exact ((kept.counted.but _).upsertSurface kept.keyed _ _).refresh (kept.keyed.upsertSurface _ _ _) _
        · exact (kept.counted.but _).refresh kept.keyed _
      · exact kept.counted
  | recordAttested versionId surface now =>
      simp only [Tables.write, Tables.recordAttested] at done
      split at done
      · cases done
        exact ((kept.counted.but _).upsertSurface kept.keyed _ _).refresh (kept.keyed.upsertSurface _ _ _) _
      · cases done
  | decide approvals => exact kept.counted.decideAll kept.keyed done
  | addSuppression repository pattern tool =>
      simp only [Tables.write, Tables.addSuppression] at done
      split at done
      · cases done
      · cases done
        exact untouched rfl rfl rfl
  | deleteSuppression repository id =>
      simp only [Tables.write, Tables.deleteSuppression] at done
      split at done
      · cases done
        exact untouched rfl rfl rfl
      · cases done
  | seed repository suppressions =>
      cases done
      obtain ⟨rows, counts, same⟩ := seed_rest t repository suppressions
      rw [same]
      exact untouched rfl rfl rfl
  | purge repository =>
      cases done
      refine kept.counted.dropVersions kept.keyed repository fun v mem own => ?_
      have mirrored : mirror repository = true := issued
      simp [kept.mirrored v mem, own, mirrored]
  | deleteRepository repository =>
      simp only [Tables.write, Tables.deleteRepository] at done
      split at done
      · cases done
      · cases done
        have dropped : ((t.forgetFindings repository).dropVersions
            (·.repositoryId == repository)).Counted :=
          kept.counted.dropVersions kept.keyed repository fun v mem own => by simpa using own
        exact fun v mem => (dropped v mem).congr (liveOf_congr rfl rfl rfl) (fun _ _ => rfl) rfl rfl

theorem Tables.Kept.write (kept : t.Kept mirror) (issued : Issued mirror t w t')
    (done : t.write w = .ok t') : t'.Kept mirror where
  keyed := kept.keyed.write done
  mirrored := kept.mirrored_write issued done
  counted := kept.counted_write issued done

theorem kept_of_run {writes : List Write} (run : Run store (Issued mirror) Tables.empty writes t) :
    t.Kept mirror := by
  refine run.invariant (Tables.Kept mirror) ⟨keyed_empty, by simp [Tables.empty], ?_⟩ ?_
  · intro v mem
    cases mem
  · exact fun t w t' kept taken issued => kept.write issued (store_eq_some.mp taken)

end Writes

/-! ### Who counted -/

/-- The counts a repository reads for a version. -/
def Tables.readCounts (t : Tables) (repository versionId : Int) : Option (Int × Int) :=
  (t.versions.find? (·.id == versionId)).map (t.shownCounts repository)

section Reads

variable {t : Tables} {v : ServerVersion}

theorem suppressed_of_none {repository : Int} (none : repository ∉ t.suppressions.map (·.repositoryId))
    (f : Finding) : t.suppressed repository f = false := by
  rw [Tables.suppressed, List.any_eq_false]
  intro s mem
  have other : s.repositoryId ≠ repository := fun same => none (same ▸ List.mem_map_of_mem mem)
  simp [other]

theorem countsOver_unsuppressed {repository : Int} {surfaces : List Int}
    (plain : ∀ id ∈ surfaces, ∀ f ∈ t.findings, f.subject = .surface id →
      t.suppressed repository f = false) :
    t.countsOver surfaces (some repository) = t.countsOver surfaces none := by
  have same : ∀ id ∈ surfaces, t.countsOn (some repository) id = t.countsOn none id := by
    intro id mem
    simp only [Tables.countsOn]
    have kept : t.findings.filter
        (fun f => f.subject == .surface id && !(some repository).any (t.suppressed · f)) =
          t.findings.filter (fun f => f.subject == .surface id && !(none : Option Int).any (t.suppressed · f)) := by
      refine List.filter_congr fun f there => ?_
      cases on : f.subject == Subject.surface id with
      | false => rfl
      | true => simp [plain id mem f there (by simpa using on)]
    rw [kept]
  rw [Tables.countsOver, Tables.countsOver, List.map_congr_left fun id mem => congrArg Prod.fst (same id mem),
    List.map_congr_left fun id mem => congrArg Prod.snd (same id mem)]

/-- After a refresh a repository reads the counts over the live surfaces, less what it suppresses. -/
theorem readCounts_refresh (keyed : t.Keyed) (mem : v ∈ t.versions) (repository : Int) (now : Instant) :
    (t.refresh v.id now).readCounts repository v.id =
      some (t.countsOver ((t.liveOf v).map Surface.id) (some repository)) := by
  have held : (t.retireWithdrawn v).liveOf v = t.liveOf v := liveOf_congr rfl rfl rfl
  have sums : ∀ suppressing, (t.settle v).countsOver ((t.liveOf v).map Surface.id) suppressing =
      t.countsOver ((t.liveOf v).map Surface.id) suppressing := by
    intro suppressing
    refine Tables.countsOver_congr (fun id among => ?_) fun _ _ _ => rfl
    obtain ⟨s, live, rfl⟩ := List.mem_map.mp among
    exact findingsOn_refreshRow (v := v) keyed now (fun _ => rfl) live
  have row : (t.refreshRow v now).versions.find? (·.id == v.id) =
      (t.versions.find? (·.id == v.id)).map _ := find?_updateAt fun _ _ => rfl
  have counts : (t.refreshRow v now).countOf repository v.id = if
      repository ∈ (t.suppressions.map (·.repositoryId)).dedup then
        some ⟨repository, v.id, (t.countsOver ((t.liveOf v).map Surface.id) (some repository)).1,
          (t.countsOver ((t.liveOf v).map Surface.id) (some repository)).2⟩ else none := by
    rw [← sums, ← held]
    refine find?_append_map (fun row among => ?_) fun id => ?_
    · have other : row.versionId ≠ v.id := by simpa using (List.mem_filter.mp among).2
      simp [other]
    · simp
  rw [refresh_of_mem keyed mem, Tables.readCounts, row, find?_of_unique keyed.versions mem]
  simp only [Option.map_some, if_true, Tables.shownCounts, Option.some.injEq]
  rw [counts]
  by_cases some : repository ∈ (t.suppressions.map (·.repositoryId)).dedup
  · rw [if_pos some]
  · rw [if_neg some]
    have unsuppressed : t.countsOver ((t.liveOf v).map Surface.id) (.some repository) =
        t.countsOver ((t.liveOf v).map Surface.id) none :=
      countsOver_unsuppressed fun _ _ f _ _ =>
        suppressed_of_none (fun mem => some (List.mem_dedup.mpr mem)) f
    rw [unsuppressed, ← sums none, ← held]

/-- After a recount it reads the counts over every surface of the version, where it suppresses a finding
on one of them, else what the version carries. -/
theorem readCounts_recount (keyed : t.Keyed) (mem : v ∈ t.versions) (repository : Int) :
    (t.refreshRepositoryCounts repository).readCounts repository v.id =
      some (if t.suppressing repository v.id = true then
        t.countsOver (t.surfacesOf v.id) (some repository) else (v.findingsHigh, v.findingsMedium)) := by
  have counts : (t.refreshRepositoryCounts repository).countOf repository v.id =
      if v.id ∈ (t.surfaces.map (·.versionId)).dedup.filter (t.suppressing repository) then
        some ⟨repository, v.id, (t.countsOver (t.surfacesOf v.id) (some repository)).1,
          (t.countsOver (t.surfacesOf v.id) (some repository)).2⟩ else none := by
    refine find?_append_map (fun row among => ?_) fun id => ?_
    · have other : row.repositoryId ≠ repository := by simpa using (List.mem_filter.mp among).2
      simp [other]
    · simp
  have has : v.id ∈ (t.surfaces.map (·.versionId)).dedup.filter (t.suppressing repository) ↔
      t.suppressing repository v.id = true := by
    rw [List.mem_filter, List.mem_dedup]
    refine ⟨And.right, fun yes => ⟨?_, yes⟩⟩
    obtain ⟨f, _, both⟩ := List.any_eq_true.mp yes
    obtain ⟨id, among, _⟩ := List.any_eq_true.mp (Bool.and_eq_true_iff.mp both).1
    obtain ⟨s, own, _⟩ := List.mem_map.mp among
    obtain ⟨there, whose⟩ := List.mem_filter.mp own
    exact List.mem_map.mpr ⟨s, there, by simpa using whose⟩
  have row : (t.refreshRepositoryCounts repository).versions.find? (·.id == v.id) = some v :=
    find?_of_unique keyed.versions mem
  rw [Tables.readCounts, row, Option.map_some, Tables.shownCounts, counts]
  simp only [has]
  cases t.suppressing repository v.id with
  | true => rfl
  | false => rfl

theorem countsOver_surfacesOf (keyed : t.Keyed) (suppressing : Option Int) :
    ∃ rest : List Int, t.countsOver (t.surfacesOf v.id) suppressing =
        ((t.countsOver ((t.liveOf v).map Surface.id) suppressing).1 + (t.countsOver rest suppressing).1,
          (t.countsOver ((t.liveOf v).map Surface.id) suppressing).2 + (t.countsOver rest suppressing).2) ∧
      ∀ id, id ∈ rest ↔ ∃ s ∈ t.surfaces, s.versionId = v.id ∧ s ∉ t.liveOf v ∧ s.id = id := by
  let live := (t.liveOf v).map Surface.id
  have own : (t.surfacesOf v.id).Nodup := keyed.surfaces.sublist (List.filter_sublist.map _)
  have among : ∀ id ∈ live, id ∈ t.surfacesOf v.id := by
    intro id mem
    obtain ⟨s, held, rfl⟩ := List.mem_map.mp mem
    obtain ⟨there, whose, _⟩ := mem_liveOf held
    exact List.mem_map.mpr ⟨s, List.mem_filter.mpr ⟨there, by simpa using whose⟩, rfl⟩
  have kept : ((t.surfacesOf v.id).filter (live.contains ·)).Perm live := by
    refine (List.perm_ext_iff_of_nodup (own.sublist List.filter_sublist) (nodup_liveOf keyed v)).mpr
      fun id => ?_
    simp only [List.mem_filter, List.contains_eq_mem, decide_eq_true_eq]
    exact ⟨And.right, fun mem => ⟨among id mem, mem⟩⟩
  have split : (live ++ (t.surfacesOf v.id).filter fun id => !live.contains id).Perm
      (t.surfacesOf v.id) :=
    (kept.symm.append_right _).trans (List.filter_append_perm _ _)
  refine ⟨(t.surfacesOf v.id).filter fun id => !live.contains id, ?_, fun id => ?_⟩
  · have high := (split.map fun id => (t.countsOn suppressing id).1).sum_eq
    have medium := (split.map fun id => (t.countsOn suppressing id).2).sum_eq
    rw [List.map_append, List.sum_append] at high medium
    rw [Tables.countsOver, ← high, ← medium]
    rfl
  · simp only [List.mem_filter, Tables.surfacesOf, List.mem_map, beq_iff_eq, Bool.not_eq_true',
      List.contains_eq_mem, decide_eq_false_iff_not, live]
    constructor
    · rintro ⟨⟨s, ⟨there, whose⟩, rfl⟩, out⟩
      exact ⟨s, there, whose, fun held => out ⟨s, held, rfl⟩, rfl⟩
    · rintro ⟨s, there, whose, out, rfl⟩
      refine ⟨⟨s, ⟨there, whose⟩, rfl⟩, ?_⟩
      rintro ⟨other, held, same⟩
      cases List.inj_on_of_nodup_map keyed.surfaces (mem_liveOf held).1 there same
      exact out held

theorem countsOver_eq_zero_iff {repository : Int} {surfaces : List Int} :
    t.countsOver surfaces (some repository) = (0, 0) ↔
      ∀ id ∈ surfaces, ∀ f ∈ t.findings, f.subject = .surface id → t.suppressed repository f = true := by
  have nonneg : ∀ id, 0 ≤ (t.countsOn (some repository) id).1 ∧ 0 ≤ (t.countsOn (some repository) id).2 := by
    intro id
    exact ⟨Int.natCast_nonneg _, Int.natCast_nonneg _⟩
  have zero : ∀ column : Int → Int, (∀ id, 0 ≤ column id) →
      ((surfaces.map column).sum = 0 ↔ ∀ id ∈ surfaces, column id = 0) := by
    intro column sign
    constructor
    · intro sum id mem
      refine List.all_zero_of_le_zero_le_of_sum_eq_zero (fun x among => ?_) sum (List.mem_map_of_mem mem)
      obtain ⟨other, _, rfl⟩ := List.mem_map.mp among
      exact sign other
    · intro each
      refine List.sum_eq_zero fun x among => ?_
      obtain ⟨id, mem, rfl⟩ := List.mem_map.mp among
      exact each id mem
  have one : ∀ id, ((t.countsOn (some repository) id).1 = 0 ∧ (t.countsOn (some repository) id).2 = 0) ↔
      ∀ f ∈ t.findings, f.subject = .surface id → t.suppressed repository f = true := by
    intro id
    simp only [Tables.countsOn, Option.any_some, Int.natCast_eq_zero, List.countP_eq_zero,
      List.mem_filter, Bool.and_eq_true, beq_iff_eq, Bool.not_eq_true', Bool.not_eq_true]
    constructor
    · rintro ⟨high, medium⟩ f mem subject
      cases suppressed : t.suppressed repository f with
      | true => rfl
      | false =>
          have low := high f ⟨mem, subject, suppressed⟩
          exact absurd (medium f ⟨mem, subject, suppressed⟩) (by simp [low])
    · intro every
      constructor
      · rintro f ⟨mem, subject, kept⟩
        cases (every f mem subject).symm.trans kept
      · rintro f ⟨mem, subject, kept⟩
        cases (every f mem subject).symm.trans kept
  rw [Tables.countsOver, Prod.mk.injEq, zero _ fun id => (nonneg id).1, zero _ fun id => (nonneg id).2]
  constructor
  · rintro ⟨high, medium⟩ id mem
    exact (one id).mp ⟨high id mem, medium id mem⟩
  · intro every
    exact ⟨fun id mem => ((one id).mpr (every id mem)).1, fun id mem => ((one id).mpr (every id mem)).2⟩

end Reads

/-- In every store that runs reach, a refresh of a version and a recount of a repository leave the same
counts to read, exactly where the repository suppresses no finding on the surfaces of the version, or
every finding on those that are not live. -/
theorem counts_agree_iff {mirror : Int → Bool} {writes : List Write} {t : Tables}
    (run : Run store (Issued mirror) Tables.empty writes t) {v : ServerVersion} (mem : v ∈ t.versions)
    (repository : Int) (now : Instant) :
    (t.refresh v.id now).readCounts repository v.id =
        (t.refreshRepositoryCounts repository).readCounts repository v.id ↔
      t.suppressing repository v.id = false ∨
        ∀ s ∈ t.surfaces, s.versionId = v.id → s ∉ t.liveOf v →
          ∀ f ∈ t.findings, f.subject = .surface s.id → t.suppressed repository f = true := by
  have kept := kept_of_run run
  rw [readCounts_refresh kept.keyed mem, readCounts_recount kept.keyed mem, Option.some.injEq]
  cases counts : t.suppressing repository v.id with
  | false =>
      have plain : t.countsOver ((t.liveOf v).map Surface.id) (some repository) =
          t.countsOver ((t.liveOf v).map Surface.id) none := by
        refine countsOver_unsuppressed fun id among f there subject => ?_
        obtain ⟨s, live, rfl⟩ := List.mem_map.mp among
        obtain ⟨held, whose, _⟩ := mem_liveOf live
        have own : s.id ∈ t.surfacesOf v.id :=
          List.mem_map.mpr ⟨s, List.mem_filter.mpr ⟨held, by simpa using whose⟩, rfl⟩
        have none := List.any_eq_false.mp counts f there
        have here : (t.surfacesOf v.id).any (fun id => f.subject == .surface id) = true :=
          List.any_eq_true.mpr ⟨s.id, own, by simpa using subject⟩
        simpa [here] using none
      simpa [plain] using (kept.counted v mem).symm
  | true =>
      obtain ⟨rest, sums, spec⟩ := countsOver_surfacesOf (v := v) kept.keyed (some repository)
      have nothing : t.countsOver ((t.liveOf v).map Surface.id) (some repository) =
          t.countsOver (t.surfacesOf v.id) (some repository) ↔
            t.countsOver rest (some repository) = (0, 0) := by
        rw [sums, Prod.ext_iff, Prod.ext_iff]
        simp only [left_eq_add]
      simp only [if_true, nothing, countsOver_eq_zero_iff, spec, reduceCtorEq, false_or]
      constructor
      · exact fun every s there whose out => every s.id ⟨s, there, whose, out, rfl⟩
      · rintro every id ⟨s, there, whose, out, rfl⟩
        exact every s there whose out

/-! ### A superseded surface an approval pins -/

/-- An answer of the one endpoint, its tools hashed `hash`, with one high finding. -/
def answered (hash pattern : Text) : NewSurface where
  source := .probe
  remoteUrl := "u".toList
  toolsSha256 := some hash
  permissionsSha256 := "p".toList
  combinedSha256 := hash
  findings := [⟨pattern, true, "tools".toList, [], 0⟩]

/-- A record with one endpoint, mirrored into the first repository. -/
def mirrored : RecordWrite where
  repository := 1
  name := "a/b".toList
  version := "1".toList
  hosted := false
  envelopeJson := []
  status := .active
  isLatest := true
  takeLatest := true
  remoteUrls := ["u".toList]
  declared := ⟨.declared, [], none, "p".toList, "d".toList, []⟩
  now := 0
  named := by rfl
  versioned := by rfl

def approval : NewApproval where
  repository := 1
  skill := false
  name := "a/b".toList
  version := "1".toList
  remoteUrl := "u".toList
  permissionsSha256 := "p".toList
  toolsSha256 := some "h1".toList
  surfaceId := some 2
  decision := .approved
  now := 1000000000

/-- The first answer is approved, the second supersedes it, and what was found in the second is
suppressed. -/
def repinned : List Write :=
  [.upsertRecord mirrored, .recordProbe ⟨1, .ok (answered "h1".toList "first".toList), 1000000000⟩,
    .decide [approval], .recordProbe ⟨1, .ok (answered "h2".toList "second".toList), 2000000000⟩,
    .addSuppression 1 "second".toList []]

/-- The refresh reads no finding, the recount the one on the superseded surface. -/
theorem counts_depend_on_who_counted :
    ∃ t, Run store (Issued fun _ => true) Tables.empty repinned t ∧ ∃ v ∈ t.versions,
      (t.refresh v.id 3000000000).readCounts 1 v.id = some (0, 0) ∧
        (t.refreshRepositoryCounts 1).readCounts 1 v.id = some (1, 0) := by
  obtain ⟨t, run, seen⟩ := Run.of_test store (Issued fun _ => true) Tables.empty repinned
    (fun t => t.versions.any fun v =>
      decide ((t.refresh v.id 3000000000).readCounts 1 v.id = some (0, 0) ∧
        (t.refreshRepositoryCounts 1).readCounts 1 v.id = some (1, 0))) (by decide +kernel)
  obtain ⟨v, mem, reads⟩ := List.any_eq_true.mp seen
  exact ⟨t, run, v, mem, of_decide_eq_true reads⟩

/-- While only the first answer was found and nothing is suppressed, the two agree. -/
theorem counts_agree_on_a_probed_record :
    ∃ t, Run store (Issued fun _ => true) Tables.empty (repinned.take 2) t ∧ ∃ v ∈ t.versions,
      (t.refresh v.id 3000000000).readCounts 1 v.id =
        (t.refreshRepositoryCounts 1).readCounts 1 v.id := by
  obtain ⟨t, run, seen⟩ := Run.of_test store (Issued fun _ => true) Tables.empty (repinned.take 2)
    (fun t => t.versions.any fun v => !t.suppressing 1 v.id) (by decide +kernel)
  obtain ⟨v, mem, none⟩ := List.any_eq_true.mp seen
  exact ⟨t, run, v, mem, (counts_agree_iff run mem 1 3000000000).mpr (.inl (by simpa using none))⟩

end OpenCargo.Mcp
