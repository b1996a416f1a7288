/-
Module: OpenCargo.Mcp.Verdicts
Purpose: The verdicts `refresh` stores. An approval is keyed by name and version, whichever repository
  took it, while a verdict is of one version row: the refresh of one row retires and re-keys approvals
  that rows of the same name and version in other repositories may still count.
Trusted boundary: none
Main exports: Tables.refreshes, Spared, Settled, verdicts_current
-/
import OpenCargo.Mcp.Counts

namespace OpenCargo.Mcp

open OpenCargo.Governance (EndpointVerdict endpointVerdict)
open OpenCargo.Lib

/-! ### What `refresh` does to the approvals -/

namespace Tables

/-- The url the declared slot of a version is re-keyed to. -/
def replacement (t : Tables) (v : ServerVersion) : Option Text :=
  (t.endpointUrls v).head?.filter fun _ => !(t.endpointUrls v).any (·.isEmpty)

/-- A repository has decided about an endpoint of the version. -/
def taken (t : Tables) (v : ServerVersion) (repository : Int) (url : Text) : Bool :=
  t.approvals.any fun a => a.repositoryId == repository && a.isFor v && a.remoteUrl == url

end Tables

theorem mem_foldl_urls {observed : List Surface} {seen : List Text} {url : Text}
    (mem : url ∈ observed.foldl
      (fun seen s => if seen.contains s.remoteUrl then seen else seen ++ [s.remoteUrl]) seen) :
    url ∈ seen ∨ ∃ s ∈ observed, s.remoteUrl = url := by
  induction observed generalizing seen with
  | nil => exact .inl mem
  | cons s observed ih =>
      rcases ih mem with held | ⟨later, among, same⟩
      · beta_reduce at held
        split at held
        · exact .inl held
        · rcases List.mem_append.mp held with held | new
          · exact .inl held
          · exact .inr ⟨s, List.mem_cons_self, (List.mem_singleton.mp new).symm⟩
      · exact .inr ⟨later, List.mem_cons_of_mem _ among, same⟩

theorem mem_endpointUrls {t : Tables} {v : ServerVersion} {url : Text}
    (mem : url ∈ t.endpointUrls v) : url = [] ∨ url ∈ v.urls := by
  rw [Tables.endpointUrls, endpointUrlsOf] at mem
  split at mem
  · exact .inl (List.mem_singleton.mp mem)
  · rcases mem_foldl_urls mem with none | ⟨s, observed, rfl⟩
    · cases none
    · have live : s ∈ t.liveOf v := (List.mem_insertionSort _).mp (List.mem_filter.mp observed).1
      have kept := (mem_liveOf live).2.2
      simp only [Surface.withdrawn, Bool.and_eq_false_iff, Bool.not_eq_false', List.isEmpty_iff,
        List.contains_eq_mem, decide_eq_true_eq] at kept
      exact kept

theorem endpointUrls_retireWithdrawn (t : Tables) (v w : ServerVersion) :
    (t.retireWithdrawn v).endpointUrls w = t.endpointUrls w := by
  have live : (t.retireWithdrawn v).liveOf w = t.liveOf w := liveOf_congr rfl rfl rfl
  rw [Tables.endpointUrls, Tables.endpointUrls, orderedOf_congr live rfl]

section Settle

variable {t : Tables} {v : ServerVersion} {β : Type} {q : Approval → Bool} {g : Approval → β}

theorem filter_rekeySlot {first : Text} {approvals : List Approval} {slot : Approval}
    (own : ∀ a ∈ approvals, a.id = slot.id → a = slot) (out : q slot = false)
    (spared : (approvals.any fun a =>
        a.repositoryId == slot.repositoryId && a.isFor v && a.remoteUrl == first) = false →
      q { slot with remoteUrl := first } = false) :
    (Tables.rekeySlot v first approvals slot).filter q = approvals.filter q := by
  rw [Tables.rekeySlot]
  split
  case isTrue =>
    rw [List.filter_filter]
    refine List.filter_congr fun a mem => ?_
    cases asked : q a with
    | false => rfl
    | true =>
        have other : a.id ≠ slot.id := by
          intro same
          rw [own a mem same, out] at asked
          cases asked
        simp [other]
  case isFalse free =>
    refine filter_updateAt_of_mem fun a mem same => ?_
    cases own a mem same
    exact ⟨out, spared (by simpa using free)⟩

theorem filter_foldl_rekeySlot {first : Text} {slots approvals : List Approval}
    (ids : (slots.map Approval.id).Nodup)
    (own : ∀ slot ∈ slots, ∀ a ∈ approvals, a.id = slot.id → a = slot)
    (declared : ∀ slot ∈ slots, slot.remoteUrl ≠ first) (out : ∀ slot ∈ slots, q slot = false)
    (spared : ∀ slot ∈ slots, (approvals.any fun a =>
        a.repositoryId == slot.repositoryId && a.isFor v && a.remoteUrl == first) = false →
      q { slot with remoteUrl := first } = false) :
    (slots.foldl (Tables.rekeySlot v first) approvals).filter q = approvals.filter q := by
  induction slots generalizing approvals with
  | nil => rfl
  | cons slot slots ih =>
      obtain ⟨fresh, ids⟩ := List.nodup_cons.mp ids
      have here := List.mem_cons_self (a := slot) (l := slots)
      have step : ∀ a ∈ Tables.rekeySlot v first approvals slot, a.id ≠ slot.id → a ∈ approvals := by
        intro a mem other
        rw [Tables.rekeySlot] at mem
        split at mem
        · exact (List.mem_filter.mp mem).1
        · rcases mem_updateAt.mp mem with ⟨old, _⟩ | ⟨old, _, same, rfl⟩
          · exact old
          · exact absurd same other
      have keeps : ∀ r, (approvals.any fun a =>
            a.repositoryId == r && a.isFor v && a.remoteUrl == first) = true →
          ((Tables.rekeySlot v first approvals slot).any fun a =>
            a.repositoryId == r && a.isFor v && a.remoteUrl == first) = true := by
        intro r held
        obtain ⟨a, mem, matched⟩ := List.any_eq_true.mp held
        have other : a.id ≠ slot.id := by
          intro same
          rw [own slot here a mem same] at matched
          simp [declared slot here] at matched
        refine List.any_eq_true.mpr ⟨a, ?_, matched⟩
        rw [Tables.rekeySlot]
        split
        · exact List.mem_filter.mpr ⟨mem, by simpa using other⟩
        · exact mem_updateAt.mpr (.inl ⟨mem, other⟩)
      rw [List.foldl_cons, ih ids ?_ (fun s mem => declared s (List.mem_cons_of_mem _ mem))
        (fun s mem => out s (List.mem_cons_of_mem _ mem)) ?_]
      · exact filter_rekeySlot (own slot here) (out slot here) (spared slot here)
      · intro other mem a among same
        have apart : a.id ≠ slot.id := fun equal =>
          fresh (equal ▸ same ▸ List.mem_map_of_mem mem)
        exact own other (List.mem_cons_of_mem _ mem) a (step a among apart) same
      · intro other mem free
        refine spared other (List.mem_cons_of_mem _ mem) ?_
        cases before : approvals.any fun a =>
            a.repositoryId == other.repositoryId && a.isFor v && a.remoteUrl == first with
        | false => rfl
        | true => exact (keeps _ before).symm.trans free

theorem filter_unpin {approvals : List Approval} {gone : Approval → Bool}
    (asks : ∀ (a : Approval) surface, q { a with surfaceId := surface } = q a)
    (reads : ∀ (a : Approval) surface, g { a with surfaceId := surface } = g a) :
    ((approvals.map fun a => if gone a then { a with surfaceId := none } else a).filter q).map g =
      (approvals.filter q).map g := by
  have asked : ∀ a : Approval, q (if gone a then { a with surfaceId := none } else a) = q a := by
    intro a
    split
    · exact asks a none
    · rfl
  have read : ∀ a : Approval, g (if gone a then { a with surfaceId := none } else a) = g a := by
    intro a
    split
    · exact reads a none
    · rfl
  simp only [List.filter_map, List.map_map, Function.comp_def, asked, read]

/-- What a refresh leaves of the approvals asked for: those it retires and those it re-keys are not
among them, before or after. -/
theorem settle_filter (keyed : t.Keyed)
    (asks : ∀ (a : Approval) surface, q { a with surfaceId := surface } = q a)
    (reads : ∀ (a : Approval) surface, g { a with surfaceId := surface } = g a)
    (kept : ∀ a ∈ t.approvals, q a = true → a.isFor v = true → a.remoteUrl ≠ [] →
      a.remoteUrl ∈ v.urls)
    (out : ∀ first ∈ t.replacement v, ∀ a ∈ t.approvals, a.isFor v = true → a.remoteUrl = [] →
      q a = false)
    (spared : ∀ first ∈ t.replacement v, ∀ a ∈ t.approvals, a.isFor v = true → a.remoteUrl = [] →
      t.taken v a.repositoryId first = false → q { a with remoteUrl := first } = false) :
    ((t.settle v).approvals.filter q).map g = (t.approvals.filter q).map g := by
  let retired := t.retireWithdrawn v
  let cut := retired.deleteSurfaces (retired.pruned v).2
  have rows : ∀ a ∈ cut.approvals, ∃ old ∈ t.approvals, ∃ surface,
      a = { old with surfaceId := surface } := by
    intro a mem
    obtain ⟨old, there, rfl⟩ := List.mem_map.mp mem
    refine ⟨old, (List.mem_filter.mp there).1, ?_⟩
    split
    · exact ⟨none, rfl⟩
    · exact ⟨old.surfaceId, rfl⟩
  have ids : (cut.approvals.map Approval.id).Nodup := by
    rw [deleteSurfaces_ids]
    exact keyed.approvals.sublist (List.filter_sublist.map _)
  have before : (cut.approvals.filter q).map g = (t.approvals.filter q).map g := by
    have retires : retired.approvals.filter q = t.approvals.filter q := by
      simp only [retired, Tables.retireWithdrawn, List.filter_filter]
      refine List.filter_congr fun a mem => ?_
      cases asked : q a with
      | false => rfl
      | true =>
          have stays := kept a mem asked
          simp only [Bool.true_and, Bool.not_eq_true', Bool.and_eq_false_iff, Bool.not_eq_false',
            List.isEmpty_iff, List.contains_eq_mem, decide_eq_true_eq]
          grind
    rw [← retires]
    exact filter_unpin asks reads
  rw [← before]
  have endpoints : retired.endpointUrls v = t.endpointUrls v := endpointUrls_retireWithdrawn t v v
  change ((cut.rekeyed v (retired.endpointUrls v)).filter q).map g = _
  rw [endpoints, Tables.rekeyed]
  cases head : (t.endpointUrls v).head? with
  | none => rfl
  | some first =>
      simp only
      split
      · rfl
      · rename_i whole
        have named : first.isEmpty = false ∧ (t.endpointUrls v).any (·.isEmpty) = false :=
          Bool.or_eq_false_iff.mp (Bool.eq_false_iff.mpr whole)
        have replaces : first ∈ t.replacement v := by
          rw [Tables.replacement, head]
          simp [Option.filter, named.2]
        have some : first ≠ [] := by simpa using named.1
        have declared : first ∈ v.urls :=
          (mem_endpointUrls (List.mem_of_mem_head? head)).resolve_left some
        have slots : ∀ slot ∈ cut.approvals.filter fun a => a.isFor v && a.remoteUrl.isEmpty,
            ∃ old ∈ t.approvals, old.isFor v = true ∧ old.remoteUrl = [] ∧ ∃ surface,
              slot = { old with surfaceId := surface } := by
          intro slot mem
          obtain ⟨there, is⟩ := List.mem_filter.mp mem
          obtain ⟨old, held, surface, rfl⟩ := rows slot there
          have is : old.isFor v = true ∧ old.remoteUrl.isEmpty = true := Bool.and_eq_true_iff.mp is
          exact ⟨old, held, is.1, by simpa using is.2, surface, rfl⟩
        refine congrArg (List.map g) (filter_foldl_rekeySlot ?_ ?_ ?_ ?_ ?_)
        · exact ids.sublist (List.filter_sublist.map _)
        · intro slot mem a among same
          exact List.inj_on_of_nodup_map ids among (List.mem_filter.mp mem).1 same
        · intro slot mem
          obtain ⟨old, _, _, empty, surface, rfl⟩ := slots slot mem
          exact fun same => some (same ▸ empty)
        · intro slot mem
          obtain ⟨old, held, is, empty, surface, rfl⟩ := slots slot mem
          exact (asks old surface).trans (out first replaces old held is empty)
        · intro slot mem free
          obtain ⟨old, held, is, empty, surface, rfl⟩ := slots slot mem
          refine (asks { old with remoteUrl := first } surface).trans
            (spared first replaces old held is empty ?_)
          rw [Tables.taken, List.any_eq_false]
          intro a among matched
          have stays : a ∈ retired.approvals := by
            refine List.mem_filter.mpr ⟨among, ?_⟩
            have url : a.remoteUrl = first := by simpa using (Bool.and_eq_true_iff.mp matched).2
            simp [url, declared]
          have kept := List.any_eq_false.mp free _ (List.mem_map_of_mem stays)
          refine kept ?_
          split
          · exact matched
          · exact matched

end Settle

/-! ### Stored and recomputed -/

theorem mem_judges {v : ServerVersion} {approvals : List Approval} {repository : Int} :
    repository ∈ judges v approvals ↔
      repository ∈ approvals.map (·.repositoryId) ∨ repository = v.repositoryId := by
  simp [judges]

/-- What is stored about one version for one repository: a verdict that is there is the one over the
approvals and the live surfaces, and a repository that judges the version has one. -/
structure Tables.CurrentFor (t : Tables) (v : ServerVersion) (repository : Int) : Prop where
  stored : ∀ verdict, t.verdictOf repository v.id = some verdict →
    verdict = endpointVerdict (t.endpointsOf v repository)
  judged : repository ∈ judges v (t.approvalsFor v) → (t.verdictOf repository v.id).isSome = true

/-- Every version, for every repository. -/
def Tables.Current (t : Tables) : Prop := ∀ v ∈ t.versions, ∀ repository, t.CurrentFor v repository

/-- Every version but those a write has still to refresh. -/
def Tables.CurrentBut (t : Tables) (pending : List Int) : Prop :=
  ∀ v ∈ t.versions, v.id ∉ pending → ∀ repository, t.CurrentFor v repository

/-- What a repository decided about one endpoint. -/
def Tables.decidedAt (t : Tables) (v : ServerVersion) (repository : Int) (url : Text) :
    List (Governance.Decision × Governance.Fingerprint) :=
  (t.approvals.filter fun a => a.isFor v && (a.repositoryId == repository && a.remoteUrl == url)).map
    fun a => (a.state, ⟨a.permissionsSha256, a.toolsSha256⟩)

section Current

variable {t t' : Tables} {v v' : ServerVersion} {repository : Int}

theorem endpointsOf_congr (ordered : t'.orderedOf v' = t.orderedOf v)
    (permissions : v'.permissionsSha256 = v.permissionsSha256)
    (decided : ∀ url ∈ t.endpointUrls v, t'.decidedAt v' repository url = t.decidedAt v repository url) :
    t'.endpointsOf v' repository = t.endpointsOf v repository := by
  have reads : ∀ (t : Tables) (v : ServerVersion) (url : Text),
      ((t.approvalsFor v).find? fun a => a.repositoryId == repository && a.remoteUrl == url).map
          (fun a => (a.state, (⟨a.permissionsSha256, a.toolsSha256⟩ : Governance.Fingerprint))) =
        (t.decidedAt v repository url).head? := by
    intro t v url
    rw [Tables.decidedAt, List.head?_map, List.head?_filter, Tables.approvalsFor, List.find?_filter]
    simp only [Bool.decide_and, Bool.decide_eq_true]
  rw [Tables.endpointsOf, Tables.endpointsOf, endpointsFor, endpointsFor, ordered]
  refine List.map_congr_left fun url mem => ?_
  rw [reads, reads, decided url mem]
  simp only [currentOf, permissions]

/-- Where the verdicts of a version and what they are over stay, they are current as they were. -/
theorem Tables.CurrentFor.congr (current : t.CurrentFor v repository)
    (verdicts : t'.verdictOf repository v'.id = t.verdictOf repository v.id)
    (endpoints : t'.endpointsOf v' repository = t.endpointsOf v repository)
    (judges : repository ∈ judges v' (t'.approvalsFor v') → repository ∈ judges v (t.approvalsFor v)) :
    t'.CurrentFor v' repository where
  stored := by
    rw [verdicts, endpoints]
    exact current.stored
  judged := by
    rw [verdicts]
    exact fun decides => current.judged (judges decides)

theorem currentFor_refreshRow (keyed : t.Keyed) (mem : v ∈ t.versions) (now : Instant)
    {w : ServerVersion} (there : w ∈ (t.refreshRow v now).versions) (same : w.id = v.id)
    (repository : Int) : (t.refreshRow v now).CurrentFor w repository := by
  rcases mem_updateAt.mp there with ⟨_, other⟩ | ⟨old, was, equal, rfl⟩
  · exact absurd same other
  · cases List.inj_on_of_nodup_map keyed.versions was mem equal
    have held : (t.retireWithdrawn v).liveOf v = t.liveOf v := liveOf_congr rfl rfl rfl
    let verdict (r : Int) := endpointVerdict
      (endpointsFor v ((t.retireWithdrawn v).orderedOf v) ((t.settle v).approvalsFor v) r)
    have stored : (t.refreshRow v now).verdictOf repository v.id =
        if repository ∈ judges v ((t.settle v).approvalsFor v) then some (verdict repository) else none := by
      have row : (t.refreshRow v now).verdicts.find?
          (fun row => row.repositoryId == repository && row.versionId == v.id) =
            if repository ∈ judges v ((t.settle v).approvalsFor v) then
              some (⟨repository, v.id, verdict repository⟩ : VersionVerdict) else none := by
        refine find?_append_map (fun row among => ?_) fun r => ?_
        · have other : row.versionId ≠ v.id := by simpa using (List.mem_filter.mp among).2
          simp [other]
        · simp
      rw [Tables.verdictOf, row]
      split <;> rfl
    constructor
    · intro found is
      have is := stored.symm.trans is
      split at is
      case isFalse => cases is
      case isTrue =>
        rw [← Option.some.inj is]
        have ordered : ∀ w' : ServerVersion, w'.id = v.id → w'.urls = v.urls →
            (t.refreshRow v now).orderedOf w' = (t.retireWithdrawn v).orderedOf v := by
          intro w' id urls
          refine orderedOf_congr ((liveOf_refreshRow keyed now (fun _ => rfl) id urls).trans held.symm) urls
        rw [Tables.endpointsOf, ordered _ (by rfl) (by rfl)]
        rfl
    · intro decides
      have here : repository ∈ judges v ((t.settle v).approvalsFor v) := decides
      exact (congrArg Option.isSome (stored.trans (if_pos here))).trans rfl

end Current

/-! ### The rows a refresh is not about -/

/-- Rows of one name and version, in different repositories. -/
def ServerVersion.shares (v w : ServerVersion) : Bool :=
  w.id != v.id && w.name == v.name && w.version == v.version

/-- The record of a row declares an endpoint, or the row has none but the declared slot. -/
def Tables.Declares (t : Tables) (w : ServerVersion) (url : Text) : Prop :=
  url ∈ w.urls ∨ url ∈ t.endpointUrls w

/-- The refresh of `v` takes no approval another row of its name and version counts, and gives it none
unless it is refreshed later in the same write. -/
structure Tables.Spares (t : Tables) (v w : ServerVersion) (pending : List Int) : Prop where
  /-- An approval of an endpoint `v` does not declare is of none that `w` declares. -/
  retired : ∀ a ∈ t.approvals, a.isFor v = true → a.remoteUrl ≠ [] → a.remoteUrl ∉ v.urls →
    a.remoteUrl ∉ w.urls
  /-- Where an approval of the declared slot is re-keyed, `w` is past its declared slot too. -/
  slot : ∀ first ∈ t.replacement v, ∀ a ∈ t.approvals, a.isFor v = true → a.remoteUrl = [] →
    [] ∉ t.endpointUrls w
  /-- And where it comes to be an approval of the first endpoint of `v`, `w` has no such endpoint. -/
  rekeyed : ∀ first ∈ t.replacement v, ∀ a ∈ t.approvals, a.isFor v = true → a.remoteUrl = [] →
    t.taken v a.repositoryId first = false → first ∈ t.endpointUrls w → w.id ∈ pending

set_option synthInstance.maxSize 512 in
instance (t : Tables) (v w : ServerVersion) (pending : List Int) : Decidable (t.Spares v w pending) :=
  decidable_of_iff
    ((∀ a ∈ t.approvals, a.isFor v = true → a.remoteUrl ≠ [] → a.remoteUrl ∉ v.urls →
        a.remoteUrl ∉ w.urls) ∧
      (∀ first ∈ t.replacement v, ∀ a ∈ t.approvals, a.isFor v = true → a.remoteUrl = [] →
        [] ∉ t.endpointUrls w) ∧
      ∀ first ∈ t.replacement v, ∀ a ∈ t.approvals, a.isFor v = true → a.remoteUrl = [] →
        t.taken v a.repositoryId first = false → first ∈ t.endpointUrls w → w.id ∈ pending)
    ⟨fun ⟨retired, slot, rekeyed⟩ => ⟨retired, slot, rekeyed⟩,
      fun ⟨retired, slot, rekeyed⟩ => ⟨retired, slot, rekeyed⟩⟩

section Others

variable {t : Tables} {v w : ServerVersion} {pending : List Int}

theorem shares_of_isFor {a : Approval} (apart : w.id ≠ v.id) (one : a.isFor v = true)
    (other : a.isFor w = true) : v.shares w = true := by
  simp only [Approval.isFor, Bool.and_eq_true, beq_iff_eq] at one other
  simp [ServerVersion.shares, apart, ← one.1.2, ← other.1.2, ← one.2, ← other.2]

/-- What is left of the approvals was there, for the same repository and the same versions. -/
theorem settle_from {a : Approval} (mem : a ∈ (t.settle v).approvals) :
    ∃ old ∈ t.approvals, old.repositoryId = a.repositoryId ∧ ∀ w, old.isFor w = a.isFor w := by
  let retired := t.retireWithdrawn v
  let cut := retired.deleteSurfaces (retired.pruned v).2
  have slots : ∀ (first : Text) (slots approvals : List Approval) (a : Approval),
      a ∈ slots.foldl (Tables.rekeySlot v first) approvals →
        ∃ old ∈ approvals, old.repositoryId = a.repositoryId ∧ ∀ w, old.isFor w = a.isFor w := by
    intro first slots
    induction slots with
    | nil => exact fun approvals a mem => ⟨a, mem, rfl, fun _ => rfl⟩
    | cons slot slots ih =>
        intro approvals a mem
        obtain ⟨old, there, repository, versions⟩ := ih _ a mem
        rw [Tables.rekeySlot] at there
        split at there
        · exact ⟨old, (List.mem_filter.mp there).1, repository, versions⟩
        · rcases mem_updateAt.mp there with ⟨same, _⟩ | ⟨before, held, _, rfl⟩
          · exact ⟨old, same, repository, versions⟩
          · exact ⟨before, held, repository, versions⟩
  have rekeyed : ∃ old ∈ cut.approvals, old.repositoryId = a.repositoryId ∧
      ∀ w, old.isFor w = a.isFor w := by
    have mem : a ∈ cut.rekeyed v (retired.endpointUrls v) := mem
    rw [Tables.rekeyed] at mem
    split at mem
    · exact ⟨a, mem, rfl, fun _ => rfl⟩
    · split at mem
      · exact ⟨a, mem, rfl, fun _ => rfl⟩
      · exact slots _ _ _ a mem
  obtain ⟨old, there, repository, versions⟩ := rekeyed
  obtain ⟨before, held, rfl⟩ := List.mem_map.mp there
  refine ⟨before, (List.mem_filter.mp held).1, ?_, fun w => ?_⟩
  · rw [← repository]
    split <;> rfl
  · rw [← versions]
    split <;> rfl

theorem decidedAt_refreshRow (keyed : t.Keyed) (apart : w.id ≠ v.id) (settled : w.id ∉ pending)
    (spares : v.shares w = true → t.Spares v w pending) (now : Instant) (repository : Int) {url : Text}
    (endpoint : url ∈ t.endpointUrls w) :
    (t.refreshRow v now).decidedAt w repository url = t.decidedAt w repository url := by
  refine settle_filter keyed (fun _ _ => rfl) (fun _ _ => rfl) ?_ ?_ ?_
  · intro a mem asked here url
    simp only [Bool.and_eq_true, beq_iff_eq] at asked
    by_contra withdrawn
    have spares := spares (shares_of_isFor apart here asked.1)
    rcases mem_endpointUrls endpoint with empty | declared
    · exact url (asked.2.2.trans empty)
    · exact spares.retired a mem here url withdrawn (asked.2.2 ▸ declared)
  · intro first replaces a mem here empty
    by_contra asked
    simp only [Bool.not_eq_false, Bool.and_eq_true, beq_iff_eq] at asked
    have spares := spares (shares_of_isFor apart here asked.1)
    exact spares.slot first replaces a mem here empty (empty ▸ asked.2.2 ▸ endpoint)
  · intro first replaces a mem here empty free
    by_contra asked
    simp only [Bool.not_eq_false, Bool.and_eq_true, beq_iff_eq] at asked
    have spares := spares (shares_of_isFor apart here asked.1)
    exact settled (spares.rekeyed first replaces a mem here empty free (asked.2.2 ▸ endpoint))

theorem Tables.CurrentFor.refreshRow {repository : Int} (current : t.CurrentFor w repository)
    (keyed : t.Keyed) (apart : w.id ≠ v.id) (settled : w.id ∉ pending)
    (spares : v.shares w = true → t.Spares v w pending) (now : Instant) :
    (t.refreshRow v now).CurrentFor w repository := by
  have live : (t.refreshRow v now).liveOf w = t.liveOf w :=
    liveOf_refreshRow keyed now (fun same => absurd same apart) rfl rfl
  refine current.congr ?_ (endpointsOf_congr (orderedOf_congr live rfl) rfl ?_) ?_
  · have rows : (t.refreshRow v now).verdicts.find?
        (fun row => row.repositoryId == repository && row.versionId == w.id) =
          t.verdicts.find? fun row => row.repositoryId == repository && row.versionId == w.id := by
      have others : ((t.settle v).verdictsFor v ((t.retireWithdrawn v).orderedOf v)).find?
          (fun row => row.repositoryId == repository && row.versionId == w.id) = none := by
        refine List.find?_eq_none.mpr fun row mem => ?_
        obtain ⟨r, _, rfl⟩ := List.mem_map.mp mem
        simp [Ne.symm apart]
      refine (List.find?_append).trans ?_
      rw [others, Option.or_none]
      refine find?_filter_of_imp fun row _ asked => ?_
      simp only [Bool.and_eq_true, beq_iff_eq] at asked
      simpa [asked.2] using apart
    exact congrArg (Option.map (·.verdict)) rows
  · exact fun url mem => decidedAt_refreshRow keyed apart settled spares now repository mem
  · intro decides
    rcases mem_judges.mp decides with approved | own
    · obtain ⟨a, mem, rfl⟩ := List.mem_map.mp approved
      obtain ⟨there, here⟩ := List.mem_filter.mp mem
      obtain ⟨old, held, repository, versions⟩ := settle_from there
      exact mem_judges.mpr (.inl (List.mem_map.mpr
        ⟨old, List.mem_filter.mpr ⟨held, (versions w).trans here⟩, repository⟩))
    · exact mem_judges.mpr (.inr own)

theorem Tables.CurrentBut.refresh {versionId : Int} (keyed : t.Keyed)
    (current : t.CurrentBut (versionId :: pending))
    (spares : ∀ v ∈ t.versions, v.id = versionId → ∀ w ∈ t.versions, v.shares w = true →
      t.Spares v w pending) (now : Instant) :
    (t.refresh versionId now).CurrentBut pending := by
  by_cases held : ∃ v ∈ t.versions, v.id = versionId
  · obtain ⟨v, mem, rfl⟩ := held
    rw [refresh_of_mem keyed mem]
    intro w there settled repository
    by_cases same : w.id = v.id
    · exact currentFor_refreshRow keyed mem now there same repository
    · rcases mem_updateAt.mp there with ⟨old, _⟩ | ⟨old, _, equal, rfl⟩
      · have before := current w old (by simp [same, settled]) repository
        exact before.refreshRow keyed same settled (spares v mem rfl w old) now
      · exact absurd equal same
  · have absent : ∀ v ∈ t.versions, v.id ≠ versionId := fun v mem same => held ⟨v, mem, same⟩
    rw [refresh_of_absent absent]
    intro w there settled
    exact current w there (by simp [absent w there, settled])

end Others

/-! ### The refreshes of a write -/

/-- One refresh inside a write: the tables before it, and the rows the write refreshes after it. -/
structure Refreshing where
  before : Tables
  versionId : Int
  now : Instant
  pending : List Int

namespace Tables

/-- The rows of `decide` refreshed in turn. -/
def refreshEach (t : Tables) : List Int → Instant → List Int → List Refreshing
  | [], _, _ => []
  | id :: ids, now, later => ⟨t, id, now, ids ++ later⟩ :: (t.refresh id now).refreshEach ids now later

def decideRefreshes (t : Tables) : List NewApproval → List Refreshing
  | [] => []
  | a :: rest =>
      match t.writeApproval a with
      | .error _ => []
      | .ok written =>
          written.refreshEach (written.rowsOf a) a.now (rest.flatMap written.rowsOf) ++
            ((written.rowsOf a).foldl (fun t id => t.refresh id a.now) written).decideRefreshes rest

/-- The refreshes of a write, each where it takes place. -/
def refreshes (t : Tables) : Write → List Refreshing
  | .upsertRecord r =>
      let (written, id) := t.writeRecord r
      [⟨(written.takeLatest r id).upsertSurface id r.declared r.now, id, r.now, []⟩]
  | .recordProbe run =>
      if t.versions.any (·.id == run.versionId) then
        match run.outcome with
        | .ok surface => [⟨t.upsertSurface run.versionId surface run.now, run.versionId, run.now, []⟩]
        | .error _ => [⟨t, run.versionId, run.now, []⟩]
      else []
  | .recordAttested versionId surface now =>
      if t.versions.any (·.id == versionId) then
        [⟨t.upsertSurface versionId surface now, versionId, now, []⟩]
      else []
  | .decide approvals => t.decideRefreshes approvals
  | _ => []

end Tables

namespace Refreshing

/-- The refresh spares every other row of the name and version it is about. -/
def Spares (one : Refreshing) : Prop :=
  ∀ v ∈ one.before.versions, v.id = one.versionId → ∀ w ∈ one.before.versions, v.shares w = true →
    one.before.Spares v w one.pending

instance (one : Refreshing) : Decidable one.Spares := by
  unfold Spares
  infer_instance

/-- No approval of an endpoint another row of the name and version declares is deleted or re-keyed. -/
def Respects (one : Refreshing) : Prop :=
  ∀ v ∈ one.before.versions, v.id = one.versionId → ∀ w ∈ one.before.versions, v.shares w = true →
    ∀ a ∈ one.before.approvals, a.isFor v = true → one.before.Declares w a.remoteUrl →
      ∃ after ∈ (one.before.refresh one.versionId one.now).approvals,
        { after with surfaceId := a.surfaceId } = a

theorem Spares.respects {one : Refreshing} (spares : one.Spares) (keyed : one.before.Keyed) :
    one.Respects := by
  intro v mem same w other shares a there here declares
  have spares := spares v mem same w other shares
  have nonempty : [] ∉ w.urls := by simp [ServerVersion.urls, urlsOf]
  have kept := settle_filter (v := v) (q := fun b => b.id == a.id && b.remoteUrl == a.remoteUrl)
    (g := fun b => { b with surfaceId := a.surfaceId }) keyed (fun _ _ => rfl) (fun _ _ => rfl)
    (by
      intro b among asked is url
      simp only [Bool.and_eq_true, beq_iff_eq] at asked
      cases List.inj_on_of_nodup_map keyed.approvals among there asked.1
      by_contra withdrawn
      have gone := spares.retired a among is url withdrawn
      rcases declares with declared | endpoint
      · exact gone declared
      · exact (mem_endpointUrls endpoint).elim url gone)
    (by
      intro first replaces b among is empty
      by_contra asked
      simp only [Bool.not_eq_false, Bool.and_eq_true, beq_iff_eq] at asked
      cases List.inj_on_of_nodup_map keyed.approvals among there asked.1
      rw [empty] at declares
      exact declares.elim nonempty (spares.slot first replaces a among is empty))
    (by
      intro first replaces b among is empty _
      by_contra asked
      simp only [Bool.not_eq_false, Bool.and_eq_true, beq_iff_eq] at asked
      cases List.inj_on_of_nodup_map keyed.approvals among there asked.1
      rw [empty] at declares
      exact declares.elim nonempty (spares.slot first replaces a among is empty))
  have read : a ∈ ((one.before.settle v).approvals.filter
      fun b => b.id == a.id && b.remoteUrl == a.remoteUrl).map
        fun b => { b with surfaceId := a.surfaceId } := by
    rw [kept]
    exact List.mem_map.mpr ⟨a, List.mem_filter.mpr ⟨there, by simp⟩, rfl⟩
  obtain ⟨after, among, equal⟩ := List.mem_map.mp read
  refine ⟨after, ?_, equal⟩
  rw [← same, refresh_of_mem keyed mem]
  exact (List.mem_filter.mp among).1

end Refreshing

/-! ### The transactions -/

section Writes

variable {t t' : Tables} {v : ServerVersion} {repository : Int} {pending : List Int}

/-- Where the live surfaces, the approvals and the verdicts of a row stay, it is current as it was. -/
theorem Tables.CurrentFor.of_same (current : t.CurrentFor v repository) (live : t'.liveOf v = t.liveOf v)
    (approvals : t'.approvalsFor v = t.approvalsFor v) (verdicts : t'.verdicts = t.verdicts) :
    t'.CurrentFor v repository := by
  have decided : ∀ url, t'.decidedAt v repository url = t.decidedAt v repository url := by
    have reads : ∀ (t : Tables) (url : Text), t.decidedAt v repository url =
        ((t.approvalsFor v).filter fun a => a.repositoryId == repository && a.remoteUrl == url).map
          fun a => (a.state, ⟨a.permissionsSha256, a.toolsSha256⟩) := by
      intro t url
      rw [Tables.approvalsFor, List.filter_filter, Tables.decidedAt]
      simp only [Bool.and_comm]
    intro url
    rw [reads, reads, approvals]
  refine current.congr ?_ (endpointsOf_congr (orderedOf_congr live rfl) rfl fun url _ => decided url) ?_
  · rw [Tables.verdictOf, verdicts, Tables.verdictOf]
  · rw [approvals]
    exact id

theorem Tables.Current.but (current : t.Current) (pending : List Int) : t.CurrentBut pending :=
  fun v mem _ => current v mem

theorem Tables.CurrentBut.current (current : t.CurrentBut []) : t.Current :=
  fun v mem => current v mem (List.not_mem_nil)

theorem Tables.CurrentBut.upsertSurface (keyed : t.Keyed) {versionId : Int}
    (current : t.CurrentBut [versionId]) (s : NewSurface) (now : Instant) :
    (t.upsertSurface versionId s now).CurrentBut [versionId] := by
  intro w mem settled repository
  rw [upsertSurface_versions] at mem
  have apart : w.id ≠ versionId := by simpa using settled
  have live : (t.upsertSurface versionId s now).liveOf w = t.liveOf w := by
    rw [liveOf_eq, liveOf_eq, newest_upsertSurface keyed s now apart]
  have rest : (t.upsertSurface versionId s now).approvals = t.approvals ∧
      (t.upsertSurface versionId s now).verdicts = t.verdicts := by
    rw [Tables.upsertSurface]
    split <;> exact ⟨rfl, rfl⟩
  refine (current w mem settled repository).of_same live ?_ rest.2
  rw [Tables.approvalsFor, rest.1, Tables.approvalsFor]

theorem Tables.Current.writeRecord (current : t.Current) (r : RecordWrite) :
    (t.writeRecord r).1.CurrentBut [(t.writeRecord r).2] := by
  rw [Tables.writeRecord]
  split
  case h_1 held found =>
    intro w mem settled repository
    rcases mem_updateAt.mp mem with ⟨old, _⟩ | ⟨old, _, same, rfl⟩
    · exact (current w old repository).of_same (liveOf_congr rfl rfl rfl) rfl rfl
    · exact absurd (List.mem_singleton.mpr same) settled
  case h_2 =>
    intro w mem settled repository
    rcases List.mem_append.mp mem with old | new
    · exact (current w old repository).of_same (liveOf_congr rfl rfl rfl) rfl rfl
    · rw [List.mem_singleton.mp new] at settled
      exact absurd (List.mem_singleton_self _) settled

theorem Tables.CurrentBut.takeLatest (current : t.CurrentBut pending) (r : RecordWrite) (id : Int) :
    (t.takeLatest r id).CurrentBut pending := by
  intro w mem settled repository
  obtain ⟨old, there, latest, changed, rfl⟩ := mem_takeLatest mem
  obtain ⟨rows, same⟩ := takeLatest_rest t r id
  rw [same]
  have held : Tables.CurrentFor { t with versions := rows } old repository :=
    (current old there settled repository).of_same (liveOf_congr rfl rfl rfl) rfl rfl
  have live : Tables.liveOf { t with versions := rows }
      { old with isLatest := latest, rowChangedAt := changed } =
        Tables.liveOf { t with versions := rows } old := liveOf_congr rfl rfl rfl
  exact held.congr rfl (endpointsOf_congr (orderedOf_congr live rfl) rfl fun _ _ => rfl)
    fun decides => decides

theorem Refreshing.Spares.keeps {one : Refreshing} (spares : one.Spares) (keyed : one.before.Keyed)
    (current : one.before.CurrentBut (one.versionId :: one.pending)) :
    (one.before.refresh one.versionId one.now).CurrentBut one.pending ∧ one.Respects :=
  ⟨current.refresh keyed spares one.now, spares.respects keyed⟩

theorem keeps_refreshEach {ids later : List Int} {now : Instant} (keyed : t.Keyed)
    (current : t.CurrentBut (ids ++ later)) (spares : ∀ one ∈ t.refreshEach ids now later, one.Spares) :
    (ids.foldl (fun t id => t.refresh id now) t).CurrentBut later ∧
      ∀ one ∈ t.refreshEach ids now later, one.Respects := by
  induction ids generalizing t with
  | nil => exact ⟨current, by simp [Tables.refreshEach]⟩
  | cons id ids ih =>
      obtain ⟨first, rest⟩ := List.forall_mem_cons.mp spares
      obtain ⟨next, respects⟩ := first.keeps keyed current
      obtain ⟨last, all⟩ := ih (keyed.refresh id now) next rest
      exact ⟨last, List.forall_mem_cons.mpr ⟨respects, all⟩⟩

theorem rowsOf_congr {t t' : Tables}
    (same : t'.versions.map (fun v => (v.id, v.name, v.version)) =
      t.versions.map fun v => (v.id, v.name, v.version)) (a : NewApproval) :
    t'.rowsOf a = t.rowsOf a := by
  have reads : ∀ t : Tables, t.rowsOf a = if a.skill then [] else
      ((t.versions.map fun v => (v.id, v.name, v.version)).filter
        fun row => row.2.1 == a.name && row.2.2 == a.version).map (·.1) := by
    intro t
    rw [Tables.rowsOf, List.filter_map, List.map_map]
    rfl
  rw [reads, reads, same]

theorem Tables.CurrentBut.writeApproval {written : Tables} {a : NewApproval} (keyed : t.Keyed)
    (current : t.CurrentBut pending) (about : ∀ id ∈ t.rowsOf a, id ∈ pending)
    (write : t.writeApproval a = .ok written) : written.CurrentBut pending := by
  obtain ⟨rows, seq, same⟩ := writeApproval_rest write
  intro w mem settled repository
  have there : w ∈ t.versions := by
    rw [same] at mem
    exact mem
  have apart : ∀ id, (a.row id).isFor w = false := by
    intro id
    by_contra is
    simp only [Bool.not_eq_false, Approval.isFor, NewApproval.row, Bool.and_eq_true, Bool.not_eq_true',
      beq_iff_eq] at is
    refine settled (about w.id ?_)
    rw [Tables.rowsOf, if_neg (by simp [is.1.1])]
    exact List.mem_map_of_mem (List.mem_filter.mpr ⟨there, by simp [is.1.2, is.2]⟩)
  have kept : written.approvalsFor w = t.approvalsFor w := by
    rw [Tables.writeApproval] at write
    split at write
    case isFalse => cases write
    case isTrue =>
      simp only at write
      split at write
      case h_1 held found =>
        cases write
        refine filter_updateAt_of_mem fun row among equal => ?_
        cases List.inj_on_of_nodup_map keyed.approvals among (List.mem_of_find?_eq_some found) equal
        have slot : held.slot = (a.row (t.approvalSeq + 1)).slot := by
          simpa using List.find?_some found
        simp only [Approval.slot, Prod.mk.injEq] at slot
        refine ⟨?_, apart _⟩
        rw [← apart (t.approvalSeq + 1), Approval.isFor, Approval.isFor, slot.2.1, slot.2.2.1,
          slot.2.2.2.1]
      case h_2 =>
        cases write
        simp [Tables.approvalsFor, apart]
  have live : written.liveOf w = t.liveOf w := by
    rw [same]
    exact liveOf_congr rfl rfl rfl
  refine (current w there settled repository).of_same live kept ?_
  rw [same]

theorem keeps_decideAll {approvals : List NewApproval} (keyed : t.Keyed)
    (current : t.CurrentBut (approvals.flatMap t.rowsOf)) (decided : t.decideAll approvals = .ok t')
    (spares : ∀ one ∈ t.decideRefreshes approvals, one.Spares) :
    t'.Current ∧ ∀ one ∈ t.decideRefreshes approvals, one.Respects := by
  induction approvals generalizing t with
  | nil =>
      cases decided
      exact ⟨current.current, by simp [Tables.decideRefreshes]⟩
  | cons a rest ih =>
      obtain ⟨written, write, decided⟩ := Lib.bind_eq_ok.mp decided
      obtain ⟨rows, seq, same⟩ := writeApproval_rest write
      have rowsOf : ∀ b, written.rowsOf b = t.rowsOf b := by
        rw [same]
        exact fun b => rowsOf_congr rfl b
      rw [List.flatMap_cons] at current
      have after := current.writeApproval keyed (fun id mem => List.mem_append_left _ mem) write
      rw [← rowsOf a, ← (funext rowsOf : written.rowsOf = t.rowsOf)] at after
      simp only [Tables.decideRefreshes, write, List.forall_mem_append] at spares ⊢
      obtain ⟨next, respects⟩ := keeps_refreshEach (keyed.writeApproval write) after spares.1
      have refreshed : ((written.rowsOf a).foldl (fun t id => t.refresh id a.now) written).rowsOf =
          written.rowsOf :=
        funext fun b => rowsOf_congr (foldl_refresh_map _ _ _ _ fun _ _ _ _ _ => rfl) b
      have keyed := foldl_refresh (fun t id now held => held.refresh id now) (keyed.writeApproval write)
        (written.rowsOf a) a.now
      obtain ⟨last, all⟩ := ih keyed (by rw [refreshed]; exact next) decided spares.2
      exact ⟨last, respects, all⟩

theorem Tables.Current.dropVersions (keyed : t.Keyed) (current : t.Current)
    (gone : ServerVersion → Bool) : (t.dropVersions gone).Current := by
  intro w mem repository
  obtain ⟨there, stays⟩ : w ∈ t.versions ∧ gone w = false := by simpa [Tables.dropVersions] using mem
  have live := liveOf_dropVersions keyed there stays
  refine (current w there repository).congr ?_ (endpointsOf_congr (orderedOf_congr live rfl) rfl ?_) ?_
  · have rows : (t.dropVersions gone).verdicts.find?
        (fun row => row.repositoryId == repository && row.versionId == w.id) =
          t.verdicts.find? fun row => row.repositoryId == repository && row.versionId == w.id := by
      refine find?_filter_of_imp fun row _ asked => ?_
      simp only [Bool.and_eq_true, beq_iff_eq] at asked
      simp only [Bool.not_eq_true', List.contains_eq_mem, decide_eq_false_iff_not, List.mem_map,
        List.mem_filter, asked.2]
      rintro ⟨other, ⟨among, dropped⟩, same⟩
      rw [List.inj_on_of_nodup_map keyed.versions among there same, stays] at dropped
      cases dropped
    rw [Tables.verdictOf, rows, Tables.verdictOf]
  · exact fun url _ => filter_unpin (fun _ _ => rfl) fun _ _ => rfl
  · have repositories : ((t.dropVersions gone).approvalsFor w).map (·.repositoryId) =
        (t.approvalsFor w).map (·.repositoryId) := filter_unpin (fun _ _ => rfl) fun _ _ => rfl
    rw [mem_judges, mem_judges, repositories]
    exact id

/-- Nothing is left of a repository that is gone, and what the others decided stays. -/
theorem Tables.Current.deleteRepository (keyed : t.Keyed) (current : t.Current)
    (deleted : t.deleteRepository repository = .ok t') : t'.Current := by
  rw [Tables.deleteRepository] at deleted
  split at deleted
  case isTrue => cases deleted
  case isFalse =>
    cases deleted
    have keyed' : (t.forgetFindings repository).Keyed :=
      keyed.of_sublist (.refl _) (.refl _) (.refl _) rfl rfl rfl
    have start : (t.forgetFindings repository).Current := fun v mem r =>
      (current v mem r).of_same (liveOf_congr rfl rfl rfl) rfl rfl
    have dropped := start.dropVersions keyed' (·.repositoryId == repository)
    intro w mem r
    have elsewhere : w.repositoryId ≠ repository := by
      have stays := (List.mem_filter.mp mem).2
      simpa using stays
    have live : ∀ t t' : Tables, t'.surfaces = t.surfaces → t'.liveOf w = t.liveOf w :=
      fun t t' same => liveOf_congr same rfl rfl
    by_cases gone : r = repository
    · constructor
      · intro verdict is
        rw [Tables.verdictOf, Option.map_eq_some_iff] at is
        obtain ⟨row, found, _⟩ := is
        have kept := (List.mem_filter.mp (List.mem_of_find?_eq_some found)).2
        have own := List.find?_some found
        simp only [Bool.and_eq_true, beq_iff_eq] at own
        simp [own.1, gone] at kept
      · intro decides
        rcases mem_judges.mp decides with approved | own
        · obtain ⟨a, among, same⟩ := List.mem_map.mp approved
          have kept := (List.mem_filter.mp (List.mem_filter.mp among).1).2
          simp [same, gone] at kept
        · exact absurd (own.symm.trans gone) elsewhere
    · refine (dropped w mem r).congr ?_ (endpointsOf_congr (orderedOf_congr (live _ _ rfl) rfl) rfl ?_) ?_
      · refine congrArg (Option.map VersionVerdict.verdict) (find?_filter_of_imp fun row _ asked => ?_)
        simp only [Bool.and_eq_true, beq_iff_eq] at asked
        simpa [asked.1] using gone
      · intro url _
        refine congrArg (List.map _) ?_
        refine (List.filter_filter).trans (List.filter_congr fun a _ => ?_)
        cases asked : a.isFor w && (a.repositoryId == r && a.remoteUrl == url) with
        | false => rfl
        | true =>
            simp only [Bool.and_eq_true, beq_iff_eq] at asked
            simpa [asked.2.1] using gone
      · intro decides
        refine mem_judges.mpr ((mem_judges.mp decides).imp (fun approved => ?_) fun own => own)
        obtain ⟨a, among, same⟩ := List.mem_map.mp approved
        obtain ⟨held, is⟩ := List.mem_filter.mp among
        exact List.mem_map.mpr ⟨a, List.mem_filter.mpr ⟨(List.mem_filter.mp held).1, is⟩, same⟩

end Writes

/-- Each refresh of the write spares the other rows of the name and version it is about. -/
def Spared (t : Tables) (w : Write) (_ : Tables) : Prop := ∀ one ∈ t.refreshes w, one.Spares

/-- After the write every stored verdict is the recomputed one, and no refresh of it took or re-keyed an
approval of an endpoint another row declares. -/
def Settled (t : Tables) (w : Write) (t' : Tables) : Prop :=
  t'.Current ∧ ∀ one ∈ t.refreshes w, one.Respects

instance (t : Tables) (w : Write) (t' : Tables) : Decidable (Spared t w t') := by
  unfold Spared
  infer_instance

theorem settled_of_spared {t t' : Tables} {w : Write} (keyed : t.Keyed) (current : t.Current)
    (done : t.write w = .ok t') (spared : Spared t w t') : Settled t w t' := by
  have only : ∀ one : Refreshing, t.refreshes w = [one] → one.before.Keyed →
      one.before.CurrentBut (one.versionId :: one.pending) → one.pending = [] →
        t' = one.before.refresh one.versionId one.now → Settled t w t' := by
    intro one is keyed current last after
    obtain ⟨next, respects⟩ := (spared one (by simp [is])).keeps keyed current
    rw [last] at next
    exact ⟨after ▸ next.current, by simpa [is] using respects⟩
  have same : t.refreshes w = [] → t'.versions = t.versions → t'.surfaces = t.surfaces →
      t'.approvals = t.approvals → t'.verdicts = t.verdicts → Settled t w t' := by
    intro none versions surfaces approvals verdicts
    refine ⟨fun v mem r => ?_, by simp [none]⟩
    refine (current v (versions ▸ mem) r).of_same (liveOf_congr surfaces rfl rfl) ?_ verdicts
    rw [Tables.approvalsFor, approvals, Tables.approvalsFor]
  cases w with
  | upsertRecord r =>
      cases done
      have written := (current.writeRecord r).takeLatest r (t.writeRecord r).2
      have keyed := (keyed.writeRecord r).takeLatest r (t.writeRecord r).2
      exact only _ rfl (keyed.upsertSurface _ _ _) (written.upsertSurface keyed _ _) rfl rfl
  | recordProbe run =>
      cases done
      by_cases held : t.versions.any (·.id == run.versionId) = true
      case neg =>
        have stays : t.recordProbe run = t := if_neg held
        rw [stays] at same ⊢
        exact same (if_neg held) rfl rfl rfl rfl
      case pos =>
        have current := current.but [run.versionId]
        cases outcome : run.outcome with
        | ok surface =>
            refine only ⟨t.upsertSurface run.versionId surface run.now, run.versionId, run.now, []⟩ ?_
              (keyed.upsertSurface _ _ _) (current.upsertSurface keyed _ _) rfl ?_
            · simp [Tables.refreshes, held, outcome]
            · simp [Tables.recordProbe, held, outcome]
        | error e =>
            refine only ⟨t, run.versionId, run.now, []⟩ ?_ keyed current rfl ?_
            · simp [Tables.refreshes, held, outcome]
            · simp [Tables.recordProbe, held, outcome]
  | recordAttested versionId surface now =>
      simp only [Tables.write, Tables.recordAttested] at done
      split at done
      case isFalse => cases done
      case isTrue held =>
        cases done
        exact only ⟨_, versionId, now, []⟩ (if_pos held) (keyed.upsertSurface _ _ _)
          ((current.but [versionId]).upsertSurface keyed _ _) rfl rfl
  | decide approvals => exact keeps_decideAll keyed (current.but _) done spared
  | addSuppression repository pattern tool =>
      simp only [Tables.write, Tables.addSuppression] at done
      split at done
      · cases done
      · cases done
        exact same rfl rfl rfl rfl rfl
  | deleteSuppression repository id =>
      simp only [Tables.write, Tables.deleteSuppression] at done
      split at done
      · cases done
        exact same rfl rfl rfl rfl rfl
      · cases done
  | seed repository suppressions =>
      cases done
      obtain ⟨rows, counts, equal⟩ := seed_rest t repository suppressions
      exact same rfl (by rw [equal]) (by rw [equal]) (by rw [equal]) (by rw [equal])
  | purge repository =>
      cases done
      have keyed' : (t.forgetFindings repository).Keyed :=
        keyed.of_sublist (.refl _) (.refl _) (.refl _) rfl rfl rfl
      have start : (t.forgetFindings repository).Current := fun v mem r =>
        (current v mem r).of_same (liveOf_congr rfl rfl rfl) rfl rfl
      exact ⟨start.dropVersions keyed' _, by simp [Tables.refreshes]⟩
  | deleteRepository repository =>
      exact ⟨current.deleteRepository keyed done, by simp [Tables.refreshes]⟩

/-- In every run whose refreshes spare the other rows of the name and version they are about, after each
write every verdict stored for a version is the one over the approvals and the live surfaces then
present, and no refresh deletes or re-keys an approval of an endpoint another row still declares. -/
theorem verdicts_current {writes : List Write} {t : Tables}
    (run : Run store Spared Tables.empty writes t) : Run store Settled Tables.empty writes t := by
  refine run.strengthen (fun t => t.Keyed ∧ t.Current) ⟨keyed_empty, ?_⟩ ?_
  · intro v mem
    cases mem
  · intro t w t' held taken spared
    have done := store_eq_some.mp taken
    have settled := settled_of_spared held.1 held.2 done spared
    exact ⟨⟨held.1.write done, settled.1⟩, settled⟩

/-! ### Two repositories with a row of one name and version -/

theorem heldIn_named : validateName "a/b".toList = .ok () := rfl

theorem heldIn_versioned : validateVersion "1".toList = .ok () := rfl

/-- The record of `a/b` with these endpoints, mirrored into one of the repositories. -/
def heldIn (repository : Int) (remoteUrls : List Text) : RecordWrite where
  repository := repository
  name := "a/b".toList
  version := "1".toList
  hosted := false
  envelopeJson := []
  status := .active
  isLatest := true
  takeLatest := true
  remoteUrls := remoteUrls
  declared := ⟨.declared, [], none, "p".toList, "d".toList, []⟩
  now := 0
  named := heldIn_named
  versioned := heldIn_versioned

/-- The answer of the second endpoint of the first row. -/
def secondEndpoint : ProbeRun where
  versionId := 1
  outcome := .ok ⟨.probe, "v".toList, some "h".toList, "p".toList, "c".toList, []⟩
  now := 1000000000

/-- The second repository approves it. -/
def secondApproved : NewApproval where
  repository := 2
  skill := false
  name := "a/b".toList
  version := "1".toList
  remoteUrl := "v".toList
  permissionsSha256 := "p".toList
  toolsSha256 := some "h".toList
  surfaceId := none
  decision := .approved
  now := 2000000000

/-- The second repository holds the record with two endpoints, the first with those given. -/
def approvedTwice (remoteUrls : List Text) : List Write :=
  [.upsertRecord (heldIn 2 ["u".toList, "v".toList]), .upsertRecord (heldIn 1 remoteUrls),
    .recordProbe secondEndpoint, .decide [secondApproved]]

/-- The row of the first repository declares one endpoint: its refresh, in the transaction that approved
the other, deletes the approval, and the second repository's verdict still counts it. -/
theorem approval_of_a_declared_endpoint_is_deleted :
    ∃ t, Run store Any Tables.empty (approvedTwice ["u".toList]) t ∧ ∃ v ∈ t.versions,
      v.repositoryId = 2 ∧ "v".toList ∈ v.urls ∧ t.approvals = [] ∧
        (t.verdictOf 2 v.id).map (·.approvedEndpoints) = some 1 ∧
        (endpointVerdict (t.endpointsOf v 2)).approvedEndpoints = 0 := by
  obtain ⟨t, run, seen⟩ := Run.of_test store Any Tables.empty (approvedTwice ["u".toList])
    (fun t => t.versions.any fun v =>
      decide (v.repositoryId = 2 ∧ "v".toList ∈ v.urls ∧ t.approvals = [] ∧
        (t.verdictOf 2 v.id).map (·.approvedEndpoints) = some 1 ∧
        (endpointVerdict (t.endpointsOf v 2)).approvedEndpoints = 0)) (by decide +kernel)
  obtain ⟨v, mem, found⟩ := List.any_eq_true.mp seen
  exact ⟨t, run, v, mem, of_decide_eq_true found⟩

/-- With both endpoints in both records, the approval stays and both verdicts are current. -/
theorem approval_of_a_shared_endpoint_is_kept :
    ∃ t, Run store Settled Tables.empty (approvedTwice ["u".toList, "v".toList]) t ∧
      t.approvals.length = 1 := by
  obtain ⟨t, run, held⟩ := Run.of_test store Spared Tables.empty
    (approvedTwice ["u".toList, "v".toList]) (fun t => t.approvals.length == 1) (by decide +kernel)
  exact ⟨t, verdicts_current run, by simpa using held⟩

end OpenCargo.Mcp
