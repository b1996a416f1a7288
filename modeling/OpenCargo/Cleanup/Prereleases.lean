/-
Module: OpenCargo.Cleanup.Prereleases
Purpose: The sweep of old pre-releases (`telemetry/cleanup.rs`) over the rows of the packages
  (`adapters/sqlite/packages.rs`): which versions the statement selects, how each of them is deleted, and what a
  whole sweep leaves.
Trusted boundary: chrono's range, outside which an instant is no instant
Main exports: prerelease, Due, versions_of_sweep, swept_iff
-/
import OpenCargo.Lib.Rows
import OpenCargo.Npm.Names
import OpenCargo.Reclaim.Store

namespace OpenCargo.Cleanup

open Lib (filter_of_unique)

/-! ### The rows -/

structure RepositoryRow where
  id : Int
  format : Format
deriving Repr, DecidableEq, Inhabited

structure PackageRow where
  id : Int
  repositoryId : Int
  name : Text
deriving Repr, DecidableEq, Inhabited

structure VersionRow where
  id : Int
  packageId : Int
  version : Text
  tarballPath : Text
  publishedAt : Int
deriving Repr, DecidableEq, Inhabited

/-- A row of another table that names a version. -/
structure Dependent where
  table : Text
  versionId : Int
deriving Repr, DecidableEq, Inhabited

/-- The tables a sweep touches, with their keys: ids are primary keys, and a version's package and a package's
repository are there. -/
structure Store where
  repositories : List RepositoryRow
  packages : List PackageRow
  versions : List VersionRow
  dependents : List Dependent
  reclaim : Reclaim.Tables
  repositoryIds : (repositories.map RepositoryRow.id).Nodup
  packageIds : (packages.map PackageRow.id).Nodup
  versionIds : (versions.map VersionRow.id).Nodup
  ofPackage : ∀ v ∈ versions, ∃ p ∈ packages, p.id = v.packageId
  ofRepository : ∀ p ∈ packages, ∃ r ∈ repositories, r.id = p.repositoryId

/-- `StalePrerelease`. -/
structure StalePrerelease where
  id : Int
  package : Text
  version : Text
  tarballPath : Text
deriving Repr, DecidableEq, Inhabited

/-- `VERSION_DEPENDENTS`. -/
def versionDependents : List Text := ["dist_tags".toList, "downloads".toList, "download_counts".toList]

/-- `retention`: days as a duration, the seconds saturated at 64 bits. -/
def retention (days : Nat) : Duration := min (days * 86400) (2 ^ 64 - 1) * 1000000000

/-! ### The statements -/

/-- `r.format IN ('npm', 'cargo') AND v.version LIKE '%-%' AND v.published_at < ?1`. -/
def stale (cut : Int) (r : RepositoryRow) (v : VersionRow) : Bool :=
  (r.format = .npm || r.format = .cargo) && v.version.contains '-' && v.publishedAt < cut

namespace Store

variable (store : Store)

/-- The versions joined with their packages and repositories. -/
def joined : List (VersionRow × PackageRow × RepositoryRow) :=
  store.versions.flatMap fun v =>
    (store.packages.filter (·.id == v.packageId)).flatMap fun p =>
      (store.repositories.filter (·.id == p.repositoryId)).map fun r => (v, p, r)

def stalePrereleases (olderThan : Duration) (now : Instant) : List StalePrerelease :=
  let due := store.joined.filter fun (v, _, r) => stale (bindTs (now - olderThan)) r v
  (due.insertionSort fun x y => x.1.id ≤ y.1.id).map fun (v, p, _) => ⟨v.id, p.name, v.version, v.tarballPath⟩

/-- The rows without those of a version. -/
def without (id : Int) (reclaim : Reclaim.Tables) : Store :=
  { store with
    versions := store.versions.filter (·.id ≠ id)
    dependents := store.dependents.filter fun d => ¬(d.table ∈ versionDependents ∧ d.versionId = id)
    reclaim := reclaim
    versionIds := (List.filter_sublist.map _).nodup store.versionIds
    ofPackage := fun v mem => store.ofPackage v (List.mem_of_mem_filter mem) }

/-- `purge_version`, in its transaction: the dependents, then the version; its artifact is enqueued. -/
def deleteVersion (id : Int) (now : Instant) : Except StoreError Store :=
  match store.versions.find? (·.id = id) with
  | none => .error .notFound
  | some v => .ok (store.without id (store.reclaim.enqueueKeys [v.tarballPath] now))

end Store

/-- The loop of a sweep: the first refusal ends it, and what was deleted before stays deleted. -/
def deleteAll (now : Instant) : List StalePrerelease → Store → Except StoreError Unit × Store
  | [], store => (.ok (), store)
  | row :: rest, store =>
      match store.deleteVersion row.id now with
      | .error e => (.error e, store)
      | .ok store => deleteAll now rest store

def sweepPrereleases (olderThanDays : Nat) (now : Instant) (store : Store) : Except StoreError Nat × Store :=
  let rows := store.stalePrereleases (retention olderThanDays) now
  let (done, store) := deleteAll now rows store
  (done.map fun () => rows.length, store)

/-! ### What a sweep deletes -/

section Loop

variable {store : Store} {now : Instant}

theorem deleteAll_spec {rows : List StalePrerelease} (there : ∀ row ∈ rows, row.id ∈ store.versions.map VersionRow.id)
    (once : (rows.map StalePrerelease.id).Nodup) :
    (deleteAll now rows store).1 = .ok () ∧
      (deleteAll now rows store).2.versions = store.versions.filter (·.id ∉ rows.map StalePrerelease.id) := by
  induction rows generalizing store with
  | nil => simp [deleteAll]
  | cons row rest ih =>
      rw [List.map_cons, List.nodup_cons] at once
      obtain ⟨v, mem, named⟩ := List.mem_map.1 (there row List.mem_cons_self)
      obtain ⟨found, is⟩ : ∃ found, store.versions.find? (·.id = row.id) = some found :=
        Option.isSome_iff_exists.1 (List.find?_isSome.2 ⟨v, mem, by simpa using named⟩)
      have left : ∀ other ∈ rest, other.id ∈
          (store.without row.id (store.reclaim.enqueueKeys [found.tarballPath] now)).versions.map VersionRow.id := by
        intro other later
        obtain ⟨w, at_, same⟩ := List.mem_map.1 (there other (List.mem_cons_of_mem _ later))
        refine List.mem_map.2 ⟨w, List.mem_filter.2 ⟨at_, ?_⟩, same⟩
        have apart : other.id ≠ row.id := fun same => once.1 (same ▸ List.mem_map_of_mem later)
        simpa [same] using apart
      obtain ⟨done, kept⟩ := ih left once.2
      simp only [deleteAll, Store.deleteVersion, is]
      refine ⟨done, kept.trans ?_⟩
      simp only [Store.without, List.filter_filter, List.map_cons, List.mem_cons, not_or]
      refine List.filter_congr fun w _ => ?_
      simp [Bool.and_comm]

end Loop

section Join

variable {store : Store} {v : VersionRow}

theorem joined_of (mem : v ∈ store.versions) : ∃ p ∈ store.packages, ∃ r ∈ store.repositories,
    p.id = v.packageId ∧ r.id = p.repositoryId ∧
      ((store.packages.filter (·.id == v.packageId)).flatMap fun p =>
        (store.repositories.filter (·.id == p.repositoryId)).map fun r => (v, p, r)) = [(v, p, r)] := by
  obtain ⟨p, there, named⟩ := store.ofPackage v mem
  obtain ⟨r, held, names⟩ := store.ofRepository p there
  refine ⟨p, there, r, held, named, names, ?_⟩
  have package : (store.packages.filter (·.id == v.packageId)) = [p] := by
    simpa [named] using filter_of_unique store.packageIds there
  have repository : (store.repositories.filter (·.id == p.repositoryId)) = [r] := by
    simpa [names] using filter_of_unique store.repositoryIds held
  rw [package, List.flatMap_cons, List.flatMap_nil, List.append_nil, repository]
  rfl

theorem joined_fst : store.joined.map Prod.fst = store.versions := by
  have piece : ∀ v ∈ store.versions, (((store.packages.filter (·.id == v.packageId)).flatMap fun p =>
      (store.repositories.filter (·.id == p.repositoryId)).map fun r => (v, p, r)).map Prod.fst) = [v] := by
    intro v mem
    obtain ⟨p, _, r, _, _, _, one⟩ := joined_of mem
    rw [one]
    rfl
  rw [Store.joined, List.map_flatMap, List.flatMap_congr piece, List.flatMap_singleton']

theorem mem_joined {p : PackageRow} {r : RepositoryRow} : (v, p, r) ∈ store.joined ↔
    v ∈ store.versions ∧ (p ∈ store.packages ∧ p.id = v.packageId) ∧ r ∈ store.repositories ∧ r.id = p.repositoryId := by
  simp only [Store.joined, List.mem_flatMap, List.mem_map, List.mem_filter, Prod.mk.injEq, beq_iff_eq]
  constructor
  · rintro ⟨w, mem, q, there, r', held, rfl, rfl, rfl⟩
    exact ⟨mem, there, held⟩
  · rintro ⟨mem, there, held⟩
    exact ⟨v, mem, p, there, r, held, rfl, rfl, rfl⟩

end Join

/-! ### What is due -/

/-- The part of a version text before its build metadata, and that metadata. -/
def core (version : Text) : Text := version.takeWhile (· ≠ '+')

def buildMetadata (version : Text) : Text := (version.dropWhile (· ≠ '+')).tail

/-- The semver pre-release part: what follows the first `-` that is not in the build metadata. -/
def prerelease (version : Text) : Option Text :=
  if '-' ∈ core version then some ((core version).dropWhile (· ≠ '-')).tail else none

example : prerelease "1.0.0-rc.1+build-7".toList = some "rc.1".toList := by decide

/-- The version's repository is of npm or cargo. -/
def InSweptFormat (store : Store) (v : VersionRow) : Prop :=
  ∃ p ∈ store.packages, p.id = v.packageId ∧
    ∃ r ∈ store.repositories, r.id = p.repositoryId ∧ (r.format = .npm ∨ r.format = .cargo)

/-- Whatever the instant was, of those that are stored so, it is before `cut`. -/
def PublishedBefore (cut : Instant) (v : VersionRow) : Prop :=
  ∀ published : Instant, bindTs published = v.publishedAt → published < cut

/-- What a sweep is there to delete. -/
def Due (store : Store) (days : Nat) (now : Instant) (v : VersionRow) : Prop :=
  InSweptFormat store v ∧ (prerelease v.version).isSome ∧ PublishedBefore (now - retention days) v

section Due

variable {store : Store} {v : VersionRow} {cut : Instant} {days : Nat} {now : Instant}

theorem dash_mem_iff (version : Text) :
    '-' ∈ version ↔ (prerelease version).isSome ∨ '-' ∈ buildMetadata version := by
  have parts : version = core version ++ version.dropWhile (· ≠ '+') := List.takeWhile_append_dropWhile.symm
  have marked : '-' ∈ version.dropWhile (· ≠ '+') ↔ '-' ∈ buildMetadata version := by
    rw [buildMetadata]
    cases rest : version.dropWhile (· ≠ '+') with
    | nil => rfl
    | cons c build =>
        have plus : ¬(c ≠ '+') := by
          have head := List.head?_dropWhile_not (fun c : Char => decide (c ≠ '+')) version
          rw [rest] at head
          simpa using head
        simp [not_not.1 plus]
  rw [prerelease, ← marked]
  conv_lhs => rw [parts, List.mem_append]
  by_cases inCore : '-' ∈ core version <;> simp [inCore]

/-- The statement compares whole seconds, which is before the cut as far as is stored. -/
theorem publishedBefore_iff : PublishedBefore cut v ↔ v.publishedAt < bindTs cut := by
  unfold PublishedBefore bindTs
  constructor
  · intro before
    have last := before (v.publishedAt * 1000000000 + 999999999) (by omega)
    change v.publishedAt * 1000000000 + 999999999 < cut at last
    omega
  · intro earlier published stored
    have sooner : published / 1000000000 < cut / 1000000000 := stored ▸ earlier
    exact Int.lt_of_not_ge fun late => absurd (Int.ediv_le_ediv (by decide) late) (Int.not_le.2 sooner)

theorem staleIds_perm : ((store.stalePrereleases (retention days) now).map StalePrerelease.id).Perm
    (((store.joined.filter fun (v, _, r) => stale (bindTs (now - retention days)) r v).map Prod.fst).map
      VersionRow.id) := by
  rw [Store.stalePrereleases, List.map_map, List.map_map]
  exact (List.perm_insertionSort _ _).map _

theorem selected_once : ((store.stalePrereleases (retention days) now).map StalePrerelease.id).Nodup := by
  rw [staleIds_perm.nodup_iff]
  refine List.Nodup.sublist (List.Sublist.map _ (List.filter_sublist.map _)) ?_
  rw [joined_fst]
  exact store.versionIds

theorem there_of_selected : ∀ row ∈ store.stalePrereleases (retention days) now,
    row.id ∈ store.versions.map VersionRow.id := by
  intro row mem
  have mem := staleIds_perm.mem_iff.1 (List.mem_map_of_mem (f := StalePrerelease.id) mem)
  rw [← joined_fst]
  exact (List.Sublist.map _ (List.filter_sublist.map _)).subset mem

theorem selected_iff (mem : v ∈ store.versions) :
    v.id ∈ (store.stalePrereleases (retention days) now).map StalePrerelease.id ↔
      InSweptFormat store v ∧ '-' ∈ v.version ∧ PublishedBefore (now - retention days) v := by
  rw [staleIds_perm.mem_iff, publishedBefore_iff]
  simp only [List.mem_map, List.mem_filter, stale, Bool.and_eq_true, Bool.or_eq_true, decide_eq_true_eq,
    List.contains_iff_mem]
  constructor
  · rintro ⟨w, ⟨⟨w', p, r⟩, ⟨joined, ⟨format, dash⟩, before⟩, rfl⟩, same⟩
    obtain ⟨at_, ⟨there, named⟩, held, names⟩ := mem_joined.1 joined
    obtain rfl : w' = v := List.inj_on_of_nodup_map store.versionIds at_ mem same
    exact ⟨⟨p, there, named, r, held, names, format⟩, dash, before⟩
  · rintro ⟨⟨p, there, named, r, held, names, format⟩, dash, before⟩
    exact ⟨v, ⟨(v, p, r), ⟨mem_joined.2 ⟨mem, ⟨there, named⟩, held, names⟩, ⟨format, dash⟩, before⟩, rfl⟩, rfl⟩

/-- A sweep succeeds, and what it leaves of the versions is what the statement did not select. -/
theorem versions_of_sweep :
    (sweepPrereleases days now store).1 = .ok (store.stalePrereleases (retention days) now).length ∧
      ∀ v ∈ store.versions, v ∉ (sweepPrereleases days now store).2.versions ↔
        InSweptFormat store v ∧ '-' ∈ v.version ∧ PublishedBefore (now - retention days) v := by
  obtain ⟨done, kept⟩ := @deleteAll_spec store now _ there_of_selected selected_once
  constructor
  · rw [sweepPrereleases]
    dsimp only
    rw [done]
    rfl
  · intro v mem
    rw [← selected_iff mem, sweepPrereleases]
    dsimp only
    rw [kept]
    simp [mem]

/-- A sweep deletes what is due and nothing else exactly where no released version of npm or cargo, published
before the cut, has a `-` in its build metadata. -/
theorem swept_iff (store : Store) (days : Nat) (now : Instant) :
    (∀ v ∈ store.versions, v ∉ (sweepPrereleases days now store).2.versions ↔ Due store days now v) ↔
      ∀ v ∈ store.versions, InSweptFormat store v → PublishedBefore (now - retention days) v →
        prerelease v.version = none → '-' ∉ buildMetadata v.version := by
  have swept := (@versions_of_sweep store days now).2
  constructor
  · intro exact_ v mem inFormat before released marked
    have deleted := (swept v mem).2 ⟨inFormat, (dash_mem_iff _).2 (.inr marked), before⟩
    have due := ((exact_ v mem).1 deleted).2.1
    rw [released] at due
    cases due
  · intro clean v mem
    rw [swept v mem, Due, dash_mem_iff]
    constructor
    · rintro ⟨inFormat, early | marked, before⟩
      · exact ⟨inFormat, early, before⟩
      · refine ⟨inFormat, Option.isSome_iff_ne_none.2 fun released => ?_, before⟩
        exact clean v mem inFormat before released marked
    · rintro ⟨inFormat, early, before⟩
      exact ⟨inFormat, .inl early, before⟩

end Due

/-- An npm repository with one released version, whose build metadata has a dash. -/
def builtStore : Store where
  repositories := [⟨1, .npm⟩]
  packages := [⟨1, 1, "left-pad".toList⟩]
  versions := [⟨1, 1, "1.0.0+build-1".toList, "left-pad/1.0.0+build-1.tgz".toList, 0⟩]
  dependents := []
  reclaim := default
  repositoryIds := by decide
  packageIds := by decide
  versionIds := by decide
  ofPackage := by decide
  ofRepository := by decide

/-- The released version is one npm admits, and the sweep deletes it. -/
theorem released_version_is_swept :
    (∀ v ∈ builtStore.versions, Npm.validateVersion v.version = .ok ()) ∧
      ¬∀ v ∈ builtStore.versions, v ∉ (sweepPrereleases 30 (3000000 * 1000000000) builtStore).2.versions ↔
        Due builtStore 30 (3000000 * 1000000000) v := by
  refine ⟨by decide, fun exact_ => ?_⟩
  have deleted : (sweepPrereleases 30 (3000000 * 1000000000) builtStore).2.versions = [] := by decide +kernel
  have due := (exact_ _ (List.mem_singleton.2 rfl)).1 (by rw [deleted]; exact List.not_mem_nil)
  exact absurd due.2.1 (by decide)

end OpenCargo.Cleanup
