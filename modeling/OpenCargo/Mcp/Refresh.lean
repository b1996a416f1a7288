/-
Module: OpenCargo.Mcp.Refresh
Purpose: What `refresh` does to the rows it rewrites and what it leaves of the others: the live surfaces
  of a version are the same before and after the superseded ones are deleted, and those of any other
  version are not touched.
Trusted boundary: none
Main exports: liveOf_refreshRow, write_identities, Sound.write, sound_of_run
-/
import OpenCargo.Lib.Fallible
import OpenCargo.Mcp.Writes

namespace OpenCargo.Mcp

open OpenCargo.Lib

/-! ### The live surfaces -/

/-- The loop of `prune`, as far as it chooses the live surfaces. -/
def liveStep (urls : List Text) (live : List Surface) (s : Surface) : List Surface :=
  if s.withdrawn urls || live.any (·.endpoint == s.endpoint) then live else live ++ [s]

section Live

variable {urls : List Text} {pinned : Int → Bool} {xs live : List Surface} {dead : List Int}

theorem pruneStep_fst (found : List Surface × List Int) (s : Surface) :
    (pruneStep urls pinned found s).1 = liveStep urls found.1 s := by
  rw [pruneStep, liveStep]
  split <;> rfl

theorem foldl_pruneStep_fst (found : List Surface × List Int) :
    (xs.foldl (pruneStep urls pinned) found).1 = xs.foldl (liveStep urls) found.1 := by
  induction xs generalizing found with
  | nil => rfl
  | cons s xs ih => rw [List.foldl_cons, List.foldl_cons, ih, pruneStep_fst]

theorem liveStep_grows {s x : Surface} (mem : x ∈ live) : x ∈ liveStep urls live s := by
  rw [liveStep]
  split
  · exact mem
  · exact List.mem_append_left _ mem

theorem foldl_liveStep_grows {x : Surface} (mem : x ∈ live) : x ∈ xs.foldl (liveStep urls) live := by
  induction xs generalizing live with
  | nil => exact mem
  | cons s xs ih => exact ih (liveStep_grows mem)

/-- A live surface is one of those looked at, and its endpoint was not withdrawn. -/
theorem mem_foldl_liveStep {x : Surface} (mem : x ∈ xs.foldl (liveStep urls) live) :
    x ∈ live ∨ (x ∈ xs ∧ x.withdrawn urls = false) := by
  induction xs generalizing live with
  | nil => exact .inl mem
  | cons s xs ih =>
      rcases ih mem with held | ⟨later, kept⟩
      · rw [liveStep] at held
        split at held
        · exact .inl held
        · rename_i fresh
          rcases List.mem_append.mp held with held | held
          · exact .inl held
          · cases List.mem_singleton.mp held
            refine .inr ⟨List.mem_cons_self, ?_⟩
            cases gone : x.withdrawn urls with
            | false => rfl
            | true => simp [gone] at fresh
      · exact .inr ⟨List.mem_cons_of_mem _ later, kept⟩

theorem foldl_liveStep_sublist : (xs.foldl (liveStep urls) live).Sublist (live ++ xs) := by
  induction xs generalizing live with
  | nil => simp
  | cons s xs ih =>
      refine ih.trans ?_
      rw [liveStep]
      split
      · exact List.Sublist.append_left (List.sublist_cons_self _ _) _
      · simp

theorem dead_not_live (distinct : (live ++ xs).Nodup) {id : Int}
    (mem : id ∈ (xs.foldl (pruneStep urls pinned) (live, dead)).2) :
    id ∈ dead ∨ ∃ s ∈ xs, s.id = id ∧ s ∉ xs.foldl (liveStep urls) live := by
  induction xs generalizing live dead with
  | nil => exact .inl mem
  | cons s xs ih =>
      rw [List.foldl_cons] at mem
      by_cases skipped : (s.withdrawn urls || live.any (·.endpoint == s.endpoint)) = true
      case pos =>
        have shorter : (live ++ xs).Nodup :=
          distinct.sublist (List.Sublist.append_left (List.sublist_cons_self _ _) _)
        have stays : liveStep urls live s = live := by rw [liveStep, if_pos skipped]
        rw [pruneStep, if_pos skipped] at mem
        rcases ih shorter mem with before | ⟨other, among, same, out⟩
        · split at before
          · rcases List.mem_append.mp before with before | now
            · exact .inl before
            · refine .inr ⟨s, List.mem_cons_self, (List.mem_singleton.mp now).symm, ?_⟩
              rw [List.foldl_cons, stays]
              intro held
              have apart := List.nodup_append.mp distinct
              rcases mem_foldl_liveStep held with held | ⟨later, _⟩
              · exact apart.2.2 s held s List.mem_cons_self rfl
              · exact (List.nodup_cons.mp apart.2.1).1 later
          · exact .inl before
        · refine .inr ⟨other, List.mem_cons_of_mem _ among, same, ?_⟩
          rw [List.foldl_cons, stays]
          exact out
      case neg =>
        have added : liveStep urls live s = live ++ [s] := by rw [liveStep, if_neg skipped]
        rw [pruneStep, if_neg skipped] at mem
        have moved : ((live ++ [s]) ++ xs).Nodup := by simpa using distinct
        rcases ih moved mem with before | ⟨other, among, same, out⟩
        · exact .inl before
        · refine .inr ⟨other, List.mem_cons_of_mem _ among, same, ?_⟩
          rw [List.foldl_cons, added]
          exact out

theorem foldl_liveStep_filter {p : Surface → Bool}
    (spares : ∀ s ∈ xs, p s = false → s ∉ xs.foldl (liveStep urls) live) :
    (xs.filter p).foldl (liveStep urls) live = xs.foldl (liveStep urls) live := by
  induction xs generalizing live with
  | nil => rfl
  | cons s xs ih =>
      cases kept : p s with
      | true =>
          rw [List.filter_cons_of_pos kept, List.foldl_cons, List.foldl_cons]
          exact ih fun other mem gone => spares other (List.mem_cons_of_mem _ mem) gone
      | false =>
          have stays : liveStep urls live s = live := by
            have out := spares s List.mem_cons_self kept
            rw [List.foldl_cons] at out
            rw [liveStep] at out ⊢
            split
            · rfl
            · rename_i fresh
              rw [if_neg fresh] at out
              exact absurd (foldl_liveStep_grows (List.mem_append_right _ (List.mem_singleton_self s))) out
          rw [List.filter_cons_of_neg (by simp [kept]), List.foldl_cons, stays]
          refine ih fun other mem gone => ?_
          have out := spares other (List.mem_cons_of_mem _ mem) gone
          rwa [List.foldl_cons, stays] at out

end Live

/-- The surfaces of a version, the newest first. -/
def newest (surfaces : List Surface) (versionId : Int) : List Surface :=
  (surfaces.filter (·.versionId == versionId)).insertionSort fun a b => a.recency ≤ b.recency

theorem mem_newest {surfaces : List Surface} {versionId : Int} {s : Surface} :
    s ∈ newest surfaces versionId ↔ s ∈ surfaces ∧ s.versionId = versionId := by
  simp [newest]

/-- The live surfaces hang on the surfaces of the version and the urls of the record alone. -/
theorem liveOf_eq (t : Tables) (v : ServerVersion) :
    t.liveOf v = (newest t.surfaces v.id).foldl (liveStep v.urls) [] :=
  foldl_pruneStep_fst _

theorem mem_liveOf {t : Tables} {v : ServerVersion} {s : Surface} (mem : s ∈ t.liveOf v) :
    s ∈ t.surfaces ∧ s.versionId = v.id ∧ s.withdrawn v.urls = false := by
  rw [liveOf_eq] at mem
  rcases mem_foldl_liveStep mem with none | ⟨among, kept⟩
  · cases none
  · have ⟨there, own⟩ := mem_newest.mp among
    exact ⟨there, own, kept⟩

/-! ### Keys -/

/-- Ids name rows, and the sequences are ahead of them. -/
structure Tables.Keyed (t : Tables) : Prop where
  versions : (t.versions.map ServerVersion.id).Nodup
  versionsBelow : ∀ v ∈ t.versions, v.id ≤ t.versionSeq
  surfaces : (t.surfaces.map Surface.id).Nodup
  surfacesBelow : ∀ s ∈ t.surfaces, s.id ≤ t.surfaceSeq
  approvals : (t.approvals.map Approval.id).Nodup
  approvalsBelow : ∀ a ∈ t.approvals, a.id ≤ t.approvalSeq

theorem ordered_newest {surfaces : List Surface} (ids : (surfaces.map Surface.id).Nodup)
    (versionId : Int) :
    (newest surfaces versionId).Pairwise fun a b => a.recency < b.recency := by
  apply ordered_insertionSort
  have own : ((surfaces.filter (·.versionId == versionId)).map Surface.id).Nodup :=
    ids.sublist (List.filter_sublist.map _)
  refine List.Nodup.of_map (fun column : ℤ ×ₗ ℤ => -(ofLex column).2) ?_
  rw [List.map_map]
  simpa [Function.comp_def, Surface.recency] using own

theorem newest_filter {surfaces : List Surface} (ids : (surfaces.map Surface.id).Nodup)
    (p : Surface → Bool) (versionId : Int) :
    newest (surfaces.filter p) versionId = (newest surfaces versionId).filter p := by
  have fewer : ((surfaces.filter p).map Surface.id).Nodup := ids.sublist (List.filter_sublist.map _)
  refine eq_of_ordered (ordered_newest fewer versionId) ((ordered_newest ids versionId).filter _) ?_
  intro s
  simp only [mem_newest, List.mem_filter]
  tauto

theorem nodup_liveOf {t : Tables} (keyed : t.Keyed) (v : ServerVersion) :
    ((t.liveOf v).map Surface.id).Nodup := by
  have among : (t.liveOf v).Sublist (newest t.surfaces v.id) := by
    rw [liveOf_eq]
    exact foldl_liveStep_sublist
  have own : ((newest t.surfaces v.id).map Surface.id).Nodup := by
    refine ((List.perm_insertionSort _ _).map Surface.id).nodup_iff.mpr ?_
    exact keyed.surfaces.sublist (List.filter_sublist.map _)
  exact own.sublist (among.map _)

theorem dead_spec {t : Tables} (keyed : t.Keyed) {v : ServerVersion} {id : Int}
    (mem : id ∈ (t.pruned v).2) : ∃ s ∈ t.surfaces, s.id = id ∧ s.versionId = v.id ∧ s ∉ t.liveOf v := by
  have distinct : ([] ++ newest t.surfaces v.id).Nodup := by
    have strict := ordered_newest keyed.surfaces v.id
    rw [List.nil_append]
    exact strict.imp fun {a b} less same => absurd (same ▸ less) (lt_irrefl _)
  rcases dead_not_live distinct mem with none | ⟨s, among, same, out⟩
  · cases none
  · have ⟨there, own⟩ := mem_newest.mp among
    exact ⟨s, there, same, own, liveOf_eq t v ▸ out⟩

theorem dead_iff {t : Tables} (keyed : t.Keyed) {v : ServerVersion} {s : Surface}
    (there : s ∈ t.surfaces) (mem : s.id ∈ (t.pruned v).2) :
    s.versionId = v.id ∧ s ∉ t.liveOf v := by
  obtain ⟨other, among, same, own, out⟩ := dead_spec keyed mem
  cases List.inj_on_of_nodup_map keyed.surfaces among there same
  exact ⟨own, out⟩

/-- Deleting what `prune` found leaves the live surfaces of every version as they were. -/
theorem liveOf_deleteSurfaces {t : Tables} (keyed : t.Keyed) (v w : ServerVersion)
    (urls : w.id = v.id → w.urls = v.urls) :
    (t.deleteSurfaces (t.pruned v).2).liveOf w = t.liveOf w := by
  rw [liveOf_eq, liveOf_eq]
  have cut : newest (t.deleteSurfaces (t.pruned v).2).surfaces w.id =
      (newest t.surfaces w.id).filter fun s => !(t.pruned v).2.contains s.id :=
    newest_filter keyed.surfaces _ _
  rw [cut]
  refine foldl_liveStep_filter fun s mem gone => ?_
  have ⟨there, own⟩ := mem_newest.mp mem
  have dead : s.id ∈ (t.pruned v).2 := by simpa using gone
  have ⟨whose, out⟩ := dead_iff keyed there dead
  have same : w.id = v.id := own.symm.trans whose
  rw [liveOf_eq] at out
  rw [urls same, same]
  exact out

theorem liveOf_congr {t t' : Tables} {v v' : ServerVersion} (surfaces : t'.surfaces = t.surfaces)
    (id : v'.id = v.id) (urls : v'.urls = v.urls) : t'.liveOf v' = t.liveOf v := by
  rw [liveOf_eq, liveOf_eq, surfaces, id, urls]

theorem orderedOf_congr {t t' : Tables} {v v' : ServerVersion} (live : t'.liveOf v' = t.liveOf v)
    (urls : v'.urls = v.urls) : t'.orderedOf v' = t.orderedOf v := by
  rw [Tables.orderedOf, Tables.orderedOf, live, urls]

/-! ### What keeps the keys -/

theorem Tables.Keyed.of_sublist {t t' : Tables} (keyed : t.Keyed)
    (versions : (t'.versions.map ServerVersion.id).Sublist (t.versions.map ServerVersion.id))
    (surfaces : (t'.surfaces.map Surface.id).Sublist (t.surfaces.map Surface.id))
    (approvals : (t'.approvals.map Approval.id).Sublist (t.approvals.map Approval.id))
    (versionSeq : t'.versionSeq = t.versionSeq) (surfaceSeq : t'.surfaceSeq = t.surfaceSeq)
    (approvalSeq : t'.approvalSeq = t.approvalSeq) : t'.Keyed where
  versions := keyed.versions.sublist versions
  versionsBelow := by
    intro v mem
    obtain ⟨old, there, same⟩ := List.mem_map.mp (versions.subset (List.mem_map_of_mem mem))
    rw [← same, versionSeq]
    exact keyed.versionsBelow old there
  surfaces := keyed.surfaces.sublist surfaces
  surfacesBelow := by
    intro s mem
    obtain ⟨old, there, same⟩ := List.mem_map.mp (surfaces.subset (List.mem_map_of_mem mem))
    rw [← same, surfaceSeq]
    exact keyed.surfacesBelow old there
  approvals := keyed.approvals.sublist approvals
  approvalsBelow := by
    intro a mem
    obtain ⟨old, there, same⟩ := List.mem_map.mp (approvals.subset (List.mem_map_of_mem mem))
    rw [← same, approvalSeq]
    exact keyed.approvalsBelow old there

section Approvals

variable {t : Tables} {v : ServerVersion}

theorem rekeySlot_ids (first : Text) (approvals : List Approval) (slot : Approval) :
    ((Tables.rekeySlot v first approvals slot).map Approval.id).Sublist (approvals.map Approval.id) := by
  rw [Tables.rekeySlot]
  split
  · exact List.filter_sublist.map _
  · have same : (updateAt Approval.id slot.id (fun a => { a with remoteUrl := first }) approvals).map
        Approval.id = approvals.map Approval.id := map_updateAt fun _ _ => rfl
    exact same ▸ List.Sublist.refl _

theorem rekeyed_ids (t : Tables) (v : ServerVersion) (endpoints : List Text) :
    ((t.rekeyed v endpoints).map Approval.id).Sublist (t.approvals.map Approval.id) := by
  rw [Tables.rekeyed]
  split
  · exact List.Sublist.refl _
  · split
    · exact List.Sublist.refl _
    · rename_i first _ _
      generalize (t.approvals.filter fun a => a.isFor v && a.remoteUrl.isEmpty) = slots
      generalize t.approvals = approvals
      induction slots generalizing approvals with
      | nil => exact List.Sublist.refl _
      | cons slot slots ih => exact (ih _).trans (rekeySlot_ids first approvals slot)

theorem deleteSurfaces_ids (t : Tables) (dead : List Int) :
    (t.deleteSurfaces dead).approvals.map Approval.id = t.approvals.map Approval.id := by
  rw [Tables.deleteSurfaces, List.map_map]
  refine List.map_congr_left fun a _ => ?_
  simp only [Function.comp_apply]
  split <;> rfl

theorem settle_ids (t : Tables) (v : ServerVersion) :
    ((t.settle v).approvals.map Approval.id).Sublist (t.approvals.map Approval.id) := by
  refine (rekeyed_ids _ v _).trans ?_
  rw [deleteSurfaces_ids]
  exact List.filter_sublist.map _

end Approvals

theorem Tables.Keyed.retireWithdrawn {t : Tables} (keyed : t.Keyed) (v : ServerVersion) :
    (t.retireWithdrawn v).Keyed :=
  keyed.of_sublist (.refl _) (.refl _) (List.filter_sublist.map _) rfl rfl rfl

theorem Tables.Keyed.refreshRow {t : Tables} (keyed : t.Keyed) (v : ServerVersion) (now : Instant) :
    (t.refreshRow v now).Keyed := by
  have ids : (t.refreshRow v now).versions.map ServerVersion.id = t.versions.map ServerVersion.id :=
    map_updateAt fun _ _ => rfl
  exact keyed.of_sublist (ids ▸ .refl _) (List.filter_sublist.map _) (settle_ids t v) rfl rfl rfl

theorem Tables.Keyed.refresh {t : Tables} (keyed : t.Keyed) (versionId : Int) (now : Instant) :
    (t.refresh versionId now).Keyed := by
  rw [Tables.refresh]
  split
  · exact keyed
  · exact keyed.refreshRow _ now

theorem refresh_of_mem {t : Tables} (keyed : t.Keyed) {v : ServerVersion} (mem : v ∈ t.versions)
    (now : Instant) : t.refresh v.id now = t.refreshRow v now := by
  rw [Tables.refresh, find?_of_unique keyed.versions mem]

theorem refresh_of_absent {t : Tables} {versionId : Int} (absent : ∀ v ∈ t.versions, v.id ≠ versionId)
    (now : Instant) : t.refresh versionId now = t := by
  rw [Tables.refresh, List.find?_eq_none.mpr (by simpa using absent)]

theorem liveOf_refreshRow {t : Tables} (keyed : t.Keyed) {v w w' : ServerVersion} (now : Instant)
    (urls : w.id = v.id → w.urls = v.urls) (id : w'.id = w.id) (same : w'.urls = w.urls) :
    (t.refreshRow v now).liveOf w' = t.liveOf w :=
  calc (t.refreshRow v now).liveOf w'
      = ((t.retireWithdrawn v).deleteSurfaces ((t.retireWithdrawn v).pruned v).2).liveOf w :=
        liveOf_congr rfl id same
    _ = (t.retireWithdrawn v).liveOf w := liveOf_deleteSurfaces (keyed.retireWithdrawn v) v w urls
    _ = t.liveOf w := liveOf_congr rfl rfl rfl

/-! ### The transactions -/

theorem Tables.Keyed.replaceFindings {t : Tables} (keyed : t.Keyed) (subject : Subject)
    (findings : List NewFinding) : (t.replaceFindings subject findings).Keyed :=
  keyed.of_sublist (.refl _) (.refl _) (.refl _) rfl rfl rfl

theorem nodup_append_new {ids : List Int} {seq : Int} (nodup : ids.Nodup) (below : ∀ id ∈ ids, id ≤ seq) :
    (ids ++ [seq + 1]).Nodup := by
  refine List.nodup_append.mpr ⟨nodup, by simp, fun id mem other new => ?_⟩
  have less := below id mem
  have equal := List.mem_singleton.mp new
  omega

theorem Tables.Keyed.upsertSurface {t : Tables} (keyed : t.Keyed) (versionId : Int) (s : NewSurface)
    (now : Instant) : (t.upsertSurface versionId s now).Keyed := by
  rw [Tables.upsertSurface]
  split
  case h_1 held found =>
    have ids : (updateAt Surface.id held.id (fun s => { s with capturedAt := bindTs now })
        t.surfaces).map Surface.id = t.surfaces.map Surface.id := map_updateAt fun _ _ => rfl
    have renewed : Tables.Keyed { t with
        surfaces := updateAt Surface.id held.id (fun s => { s with capturedAt := bindTs now })
          t.surfaces } :=
      keyed.of_sublist (.refl _) (ids ▸ .refl _) (.refl _) rfl rfl rfl
    exact renewed.replaceFindings _ _
  case h_2 =>
    refine Tables.Keyed.replaceFindings ?_ _ _
    have below : ∀ id ∈ t.surfaces.map Surface.id, id ≤ t.surfaceSeq := by
      simpa using keyed.surfacesBelow
    refine { keyed with surfaces := ?_, surfacesBelow := ?_ }
    · simpa [NewSurface.row] using nodup_append_new keyed.surfaces below
    · intro row mem
      rcases List.mem_append.mp mem with mem | mem
      · have less := keyed.surfacesBelow row mem
        simp only [NewSurface.row]
        omega
      · rw [List.mem_singleton.mp mem]

theorem Tables.Keyed.writeRecord {t : Tables} (keyed : t.Keyed) (r : RecordWrite) :
    (t.writeRecord r).1.Keyed := by
  rw [Tables.writeRecord]
  split
  case h_1 held found =>
    refine keyed.of_sublist ?_ (.refl _) (.refl _) rfl rfl rfl
    have ids : (updateAt ServerVersion.id held.id r.update t.versions).map ServerVersion.id =
        t.versions.map ServerVersion.id := map_updateAt fun _ _ => rfl
    exact ids ▸ .refl _
  case h_2 =>
    have below : ∀ id ∈ t.versions.map ServerVersion.id, id ≤ t.versionSeq := by
      simpa using keyed.versionsBelow
    refine { keyed with versions := ?_, versionsBelow := ?_ }
    · simpa [RecordWrite.row] using nodup_append_new keyed.versions below
    · intro row mem
      rcases List.mem_append.mp mem with mem | mem
      · have less := keyed.versionsBelow row mem
        simp only [RecordWrite.row]
        omega
      · rw [List.mem_singleton.mp mem]

theorem takeLatest_map {β : Type*} (t : Tables) (r : RecordWrite) (id : Int) (column : ServerVersion → β)
    (keeps : ∀ (v : ServerVersion) (latest : Bool) (changed : Int),
      column { v with isLatest := latest, rowChangedAt := changed } = column v) :
    (t.takeLatest r id).versions.map column = t.versions.map column := by
  rw [Tables.takeLatest]
  split
  · rw [List.map_map]
    refine List.map_congr_left fun v _ => ?_
    simp only [Function.comp_apply]
    split
    · exact keeps v _ _
    · rfl
  · rfl

theorem mem_takeLatest {t : Tables} {r : RecordWrite} {id : Int} {v : ServerVersion}
    (mem : v ∈ (t.takeLatest r id).versions) :
    ∃ old ∈ t.versions, ∃ latest changed, v = { old with isLatest := latest, rowChangedAt := changed } := by
  rw [Tables.takeLatest] at mem
  split at mem
  · obtain ⟨old, there, rfl⟩ := List.mem_map.mp mem
    refine ⟨old, there, ?_⟩
    split
    · exact ⟨_, _, rfl⟩
    · exact ⟨_, _, rfl⟩
  · exact ⟨v, mem, _, _, rfl⟩

theorem takeLatest_rest (t : Tables) (r : RecordWrite) (id : Int) :
    ∃ rows, t.takeLatest r id = { t with versions := rows } := by
  rw [Tables.takeLatest]
  split
  · exact ⟨_, rfl⟩
  · exact ⟨_, rfl⟩

theorem Tables.Keyed.takeLatest {t : Tables} (keyed : t.Keyed) (r : RecordWrite) (id : Int) :
    (t.takeLatest r id).Keyed := by
  have ids := takeLatest_map t r id ServerVersion.id fun _ _ _ => rfl
  obtain ⟨rows, same⟩ := takeLatest_rest t r id
  rw [same] at ids ⊢
  exact keyed.of_sublist (ids ▸ .refl _) (.refl _) (.refl _) rfl rfl rfl

theorem Tables.Keyed.writeApproval {t t' : Tables} (keyed : t.Keyed) {a : NewApproval}
    (written : t.writeApproval a = .ok t') : t'.Keyed := by
  rw [Tables.writeApproval] at written
  split at written
  case isFalse => cases written
  case isTrue =>
    simp only at written
    split at written
    case h_1 held found =>
      cases written
      refine keyed.of_sublist (.refl _) (.refl _) ?_ rfl rfl rfl
      have ids : (updateAt Approval.id held.id (fun _ => a.row held.id) t.approvals).map Approval.id =
          t.approvals.map Approval.id := map_updateAt fun row same => same.symm
      exact ids ▸ .refl _
    case h_2 =>
      cases written
      have below : ∀ id ∈ t.approvals.map Approval.id, id ≤ t.approvalSeq := by
        simpa using keyed.approvalsBelow
      refine { keyed with approvals := ?_, approvalsBelow := ?_ }
      · simpa [NewApproval.row] using nodup_append_new keyed.approvals below
      · intro row mem
        rcases List.mem_append.mp mem with mem | mem
        · have less := keyed.approvalsBelow row mem
          simp only [NewApproval.row]
          omega
        · rw [List.mem_singleton.mp mem]

theorem Tables.Keyed.dropVersions {t : Tables} (keyed : t.Keyed) (gone : ServerVersion → Bool) :
    (t.dropVersions gone).Keyed := by
  refine keyed.of_sublist (List.filter_sublist.map _) (List.filter_sublist.map _) ?_ rfl rfl rfl
  have ids : (t.dropVersions gone).approvals.map Approval.id = t.approvals.map Approval.id := by
    rw [Tables.dropVersions, List.map_map]
    refine List.map_congr_left fun a _ => ?_
    simp only [Function.comp_apply]
    split <;> rfl
  exact ids ▸ .refl _

theorem foldl_refresh {I : Tables → Prop} (keeps : ∀ t id now, I t → I (t.refresh id now)) {t : Tables}
    (held : I t) (ids : List Int) (now : Instant) :
    I (ids.foldl (fun t id => t.refresh id now) t) := by
  induction ids generalizing t with
  | nil => exact held
  | cons id ids ih => exact ih (keeps t id now held)

theorem Tables.Keyed.decideAll {t t' : Tables} (keyed : t.Keyed) {approvals : List NewApproval}
    (decided : t.decideAll approvals = .ok t') : t'.Keyed := by
  induction approvals generalizing t with
  | nil =>
      cases decided
      exact keyed
  | cons a rest ih =>
      obtain ⟨written, write, decided⟩ := Lib.bind_eq_ok.mp decided
      refine ih (foldl_refresh (fun t id now held => ?_) (keyed.writeApproval write) _ _) decided
      exact held.refresh id now

theorem seed_rest (t : Tables) (repository : Int) (suppressions : List (Text × Text)) :
    ∃ rows counts, t.seed repository suppressions = { t with suppressions := rows, counts := counts } := by
  have inner : ∀ found : Tables × Bool,
      ∃ rows, (suppressions.foldl (Tables.seedOne repository) found).1 =
        { found.1 with suppressions := rows } := by
    induction suppressions with
    | nil => exact fun found => ⟨_, rfl⟩
    | cons s suppressions ih =>
        intro found
        obtain ⟨rows, same⟩ := ih (Tables.seedOne repository found s)
        refine ⟨rows, ?_⟩
        rw [List.foldl_cons, same, Tables.seedOne]
        split <;> rfl
  obtain ⟨rows, same⟩ := inner (t, false)
  rw [Tables.seed]
  simp only
  split
  · exact ⟨rows, _, by rw [Tables.refreshRepositoryCounts, same]⟩
  · exact ⟨rows, t.counts, by rw [same]⟩

theorem Tables.Keyed.write {t t' : Tables} (keyed : t.Keyed) {w : Write} (done : t.write w = .ok t') :
    t'.Keyed := by
  cases w with
  | upsertRecord r =>
      cases done
      exact ((keyed.writeRecord r).takeLatest r _ |>.upsertSurface _ _ _).refresh _ _
  | recordProbe run =>
      cases done
      rw [Tables.recordProbe]
      split
      · split
        · exact (keyed.upsertSurface _ _ _).refresh _ _
        · exact keyed.refresh _ _
      · exact keyed
  | recordAttested versionId surface now =>
      simp only [Tables.write, Tables.recordAttested] at done
      split at done
      · cases done
        exact (keyed.upsertSurface _ _ _).refresh _ _
      · cases done
  | decide approvals => exact keyed.decideAll done
  | addSuppression repository pattern tool =>
      simp only [Tables.write, Tables.addSuppression] at done
      split at done
      · cases done
      · cases done
        exact keyed.of_sublist (.refl _) (.refl _) (.refl _) rfl rfl rfl
  | deleteSuppression repository id =>
      simp only [Tables.write, Tables.deleteSuppression] at done
      split at done
      · cases done
        exact keyed.of_sublist (.refl _) (.refl _) (.refl _) rfl rfl rfl
      · cases done
  | seed repository suppressions =>
      cases done
      obtain ⟨rows, counts, same⟩ := seed_rest t repository suppressions
      rw [same]
      exact keyed.of_sublist (.refl _) (.refl _) (.refl _) rfl rfl rfl
  | purge repository =>
      cases done
      exact Tables.Keyed.dropVersions
        (keyed.of_sublist (.refl _) (.refl _) (.refl _) rfl rfl rfl : (t.forgetFindings repository).Keyed) _
  | deleteRepository repository =>
      simp only [Tables.write, Tables.deleteRepository] at done
      split at done
      · cases done
      · cases done
        have dropped := Tables.Keyed.dropVersions
          (keyed.of_sublist (.refl _) (.refl _) (.refl _) rfl rfl rfl : (t.forgetFindings repository).Keyed)
          (·.repositoryId == repository)
        exact dropped.of_sublist (.refl _) (.refl _) (List.filter_sublist.map _) rfl rfl rfl

theorem keyed_empty : Tables.empty.Keyed where
  versions := List.nodup_nil
  versionsBelow := by simp [Tables.empty]
  surfaces := List.nodup_nil
  surfacesBelow := by simp [Tables.empty]
  approvals := List.nodup_nil
  approvalsBelow := by simp [Tables.empty]

/-! ### The surfaces of the other versions -/

theorem versionId_of_find {t : Tables} {versionId : Int} {s : NewSurface} {now : Instant} {held : Surface}
    (found : t.surfaces.find? (·.slot == (s.row (t.surfaceSeq + 1) versionId now).slot) = some held) :
    held.versionId = versionId := by
  have slot : held.slot = (s.row (t.surfaceSeq + 1) versionId now).slot := by
    simpa using List.find?_some found
  exact congrArg Prod.fst slot

theorem newest_upsertSurface {t : Tables} (keyed : t.Keyed) {versionId other : Int} (s : NewSurface)
    (now : Instant) (apart : other ≠ versionId) :
    newest (t.upsertSurface versionId s now).surfaces other = newest t.surfaces other := by
  have stay : (t.upsertSurface versionId s now).surfaces.filter (·.versionId == other) =
      t.surfaces.filter (·.versionId == other) := by
    rw [Tables.upsertSurface]
    split
    case h_1 held found =>
      refine filter_updateAt_of_mem fun row among same => ?_
      cases List.inj_on_of_nodup_map keyed.surfaces among (List.mem_of_find?_eq_some found) same
      simp [versionId_of_find found, Ne.symm apart]
    case h_2 => simp [Tables.replaceFindings, NewSurface.row, Ne.symm apart]
  exact congrArg (List.insertionSort fun a b : Surface => a.recency ≤ b.recency) stay

theorem liveOf_dropVersions {t : Tables} (keyed : t.Keyed) {gone : ServerVersion → Bool}
    {v : ServerVersion} (there : v ∈ t.versions) (stays : gone v = false) :
    (t.dropVersions gone).liveOf v = t.liveOf v := by
  rw [liveOf_eq, liveOf_eq]
  have cut := newest_filter keyed.surfaces
    (fun s => !((t.versions.filter gone).map (·.id)).contains s.versionId) v.id
  have all : (newest t.surfaces v.id).filter
      (fun s => !((t.versions.filter gone).map (·.id)).contains s.versionId) = newest t.surfaces v.id := by
    refine List.filter_eq_self.mpr fun s among => ?_
    have whose := (mem_newest.mp among).2
    simp only [Bool.not_eq_true', List.contains_eq_mem, decide_eq_false_iff_not, List.mem_map,
      List.mem_filter]
    rintro ⟨w, ⟨among, dropped⟩, same⟩
    rw [List.inj_on_of_nodup_map keyed.versions among there (same.trans whose), stays] at dropped
    cases dropped
  rw [← all, ← cut]
  rfl

/-! ### What a version is -/

theorem refresh_map {β : Type*} (t : Tables) (versionId : Int) (now : Instant)
    (column : ServerVersion → β)
    (keeps : ∀ (v : ServerVersion) (current : Option Int) (high medium changed : Int),
      column { v with
        currentSurfaceId := current, findingsHigh := high, findingsMedium := medium,
        rowChangedAt := changed } = column v) :
    (t.refresh versionId now).versions.map column = t.versions.map column := by
  rw [Tables.refresh]
  split
  · rfl
  · exact map_updateAt fun v _ => keeps v _ _ _ _

theorem foldl_refresh_map {β : Type*} (t : Tables) (ids : List Int) (now : Instant)
    (column : ServerVersion → β)
    (keeps : ∀ (v : ServerVersion) (current : Option Int) (high medium changed : Int),
      column { v with
        currentSurfaceId := current, findingsHigh := high, findingsMedium := medium,
        rowChangedAt := changed } = column v) :
    (ids.foldl (fun t id => t.refresh id now) t).versions.map column = t.versions.map column :=
  foldl_refresh (I := fun t' => t'.versions.map column = t.versions.map column)
    (fun t' id now same => (refresh_map t' id now column keeps).trans same) rfl ids now

theorem upsertSurface_versions (t : Tables) (versionId : Int) (s : NewSurface) (now : Instant) :
    (t.upsertSurface versionId s now).versions = t.versions := by
  rw [Tables.upsertSurface]
  split <;> rfl

theorem writeApproval_rest {t t' : Tables} {a : NewApproval} (written : t.writeApproval a = .ok t') :
    ∃ rows seq, t' = { t with approvals := rows, approvalSeq := seq } := by
  rw [Tables.writeApproval] at written
  split at written
  case isFalse => cases written
  case isTrue =>
    simp only at written
    split at written <;> exact ⟨_, _, (Except.ok.inj written).symm⟩

/-- What a version is, whatever is written about it later: its slot, and whether it was published here. -/
def ServerVersion.identity (v : ServerVersion) : (Int × Text × Text) × Bool := (v.slot, v.hosted)

theorem RecordWrite.row_slot (r : RecordWrite) (id : Int) :
    (r.row id).slot = (r.repository, r.name, r.version) := rfl

theorem write_identities {t t' : Tables} {w : Write} (done : t.write w = .ok t') :
    (t'.versions.map ServerVersion.identity).Sublist (t.versions.map ServerVersion.identity) ∨
      ∃ r : RecordWrite, w = .upsertRecord r ∧
        ((∃ held ∈ t.versions, held.slot = (r.row 0).slot ∧
            t'.versions.map ServerVersion.identity =
              t.versions.map fun v => if v.id = held.id then (r.row 0).identity else v.identity) ∨
          ((∀ v ∈ t.versions, v.slot ≠ (r.row 0).slot) ∧
            t'.versions.map ServerVersion.identity =
              t.versions.map ServerVersion.identity ++ [(r.row 0).identity])) := by
  have refreshed := fun (t : Tables) id now =>
    refresh_map t id now ServerVersion.identity fun _ _ _ _ _ => rfl
  cases w with
  | upsertRecord r =>
      cases done
      refine .inr ⟨r, rfl, ?_⟩
      rw [Tables.upsertRecord, refreshed, upsertSurface_versions,
        takeLatest_map _ _ _ ServerVersion.identity fun _ _ _ => rfl, Tables.writeRecord]
      split
      case h_1 held found =>
        have slot : held.slot = (r.row (t.versionSeq + 1)).slot := by simpa using List.find?_some found
        rw [r.row_slot, ← r.row_slot 0] at slot
        refine .inl ⟨held, List.mem_of_find?_eq_some found, slot, ?_⟩
        simp only [updateAt, List.map_map]
        refine List.map_congr_left fun v _ => ?_
        simp only [Function.comp_apply]
        split <;> rfl
      case h_2 absent =>
        refine .inr ⟨fun v mem same => ?_, List.map_append⟩
        have none := List.find?_eq_none.mp absent v mem
        rw [same] at none
        exact none (beq_self_eq_true _)
  | recordProbe run =>
      cases done
      refine .inl ?_
      rw [Tables.recordProbe]
      split
      · split
        · rw [refreshed, upsertSurface_versions]
        · rw [refreshed]
      · exact .refl _
  | recordAttested versionId surface now =>
      simp only [Tables.write, Tables.recordAttested] at done
      split at done
      · cases done
        rw [refreshed, upsertSurface_versions]
        exact .inl (.refl _)
      · cases done
  | decide approvals =>
      refine .inl ?_
      simp only [Tables.write] at done
      induction approvals generalizing t with
      | nil =>
          cases done
          exact .refl _
      | cons a rest ih =>
          obtain ⟨written, write, decided⟩ := Lib.bind_eq_ok.mp done
          obtain ⟨rows, seq, rfl⟩ := writeApproval_rest write
          have later := ih decided
          rwa [foldl_refresh_map _ _ _ ServerVersion.identity fun _ _ _ _ _ => rfl] at later
  | addSuppression repository pattern tool =>
      simp only [Tables.write, Tables.addSuppression] at done
      split at done
      · cases done
      · cases done
        exact .inl (.refl _)
  | deleteSuppression repository id =>
      simp only [Tables.write, Tables.deleteSuppression] at done
      split at done
      · cases done
        exact .inl (.refl _)
      · cases done
  | seed repository suppressions =>
      cases done
      obtain ⟨rows, counts, same⟩ := seed_rest t repository suppressions
      rw [same]
      exact .inl (.refl _)
  | purge repository =>
      cases done
      exact .inl (List.filter_sublist.map _)
  | deleteRepository repository =>
      simp only [Tables.write, Tables.deleteRepository] at done
      split at done
      · cases done
      · cases done
        exact .inl (List.filter_sublist.map _)

theorem Tables.Sound.write {t t' : Tables} (sound : t.Sound) (keyed : t.Keyed) {w : Write}
    (done : t.write w = .ok t') : t'.Sound := by
  have slots : ∀ rows : List ServerVersion,
      rows.map ServerVersion.slot = (rows.map ServerVersion.identity).map Prod.fst := by
    intro rows
    rw [List.map_map]
    rfl
  have named : ∀ slot ∈ t.versions.map ServerVersion.slot,
      validateName slot.2.1 = .ok () ∧ validateVersion slot.2.2 = .ok () := by
    intro slot mem
    obtain ⟨v, there, rfl⟩ := List.mem_map.mp mem
    exact ⟨sound.named v there, sound.versioned v there⟩
  have whole : (t'.versions.map ServerVersion.slot).Nodup ∧ ∀ slot ∈ t'.versions.map ServerVersion.slot,
      validateName slot.2.1 = .ok () ∧ validateVersion slot.2.2 = .ok () := by
    rcases write_identities done with fewer | ⟨r, rfl, ⟨held, mem, slot, after⟩ | ⟨fresh, after⟩⟩
    · have fewer : (t'.versions.map ServerVersion.slot).Sublist (t.versions.map ServerVersion.slot) := by
        rw [slots, slots]
        exact fewer.map _
      exact ⟨sound.slots.sublist fewer, fun slot mem => named slot (fewer.subset mem)⟩
    · have same : t'.versions.map ServerVersion.slot = t.versions.map ServerVersion.slot := by
        rw [slots, after, List.map_map]
        refine List.map_congr_left fun v there => ?_
        simp only [Function.comp_apply]
        split
        · rename_i id
          cases List.inj_on_of_nodup_map keyed.versions there mem id
          exact slot.symm
        · rfl
      rw [same]
      exact ⟨sound.slots, named⟩
    · have more : t'.versions.map ServerVersion.slot = t.versions.map ServerVersion.slot ++ [(r.row 0).slot] := by
        rw [slots, after, List.map_append, ← slots]
        rfl
      rw [more]
      constructor
      · refine List.nodup_append.mpr ⟨sound.slots, by simp, fun slot mem other new => ?_⟩
        obtain ⟨v, there, rfl⟩ := List.mem_map.mp mem
        rw [List.mem_singleton.mp new]
        exact fresh v there
      · intro slot mem
        rcases List.mem_append.mp mem with mem | mem
        · exact named slot mem
        · rw [List.mem_singleton.mp mem]
          exact ⟨r.named, r.versioned⟩
  exact
    { slots := whole.1
      named := fun v mem => (whole.2 _ (List.mem_map_of_mem mem)).1
      versioned := fun v mem => (whole.2 _ (List.mem_map_of_mem mem)).2 }

theorem store_eq_some {t t' : Tables} {w : Write} : store t w = some t' ↔ t.write w = .ok t' := by
  rw [store]
  cases t.write w <;> simp [Except.toOption]

theorem sound_empty : Tables.empty.Sound where
  slots := List.nodup_nil
  named := by simp [Tables.empty]
  versioned := by simp [Tables.empty]

theorem sound_of_run {R : Tables → Write → Tables → Prop} {writes : List Write} {t : Tables}
    (run : Run store R Tables.empty writes t) : t.Keyed ∧ t.Sound := by
  refine run.invariant (fun t => t.Keyed ∧ t.Sound) ⟨keyed_empty, sound_empty⟩ ?_
  intro t w t' held taken _
  have done := store_eq_some.mp taken
  exact ⟨held.1.write done, held.2.write held.1 done⟩

end OpenCargo.Mcp
