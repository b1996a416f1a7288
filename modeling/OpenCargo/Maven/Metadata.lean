/-
Module: OpenCargo.Maven.Metadata
Purpose: What a hosted repository answers for a `maven-metadata.xml`: the three documents
  (`registry/maven/metadata.rs`), each rendered from the visible units or from the plugins a client
  declared, with its validators (`registry/maven/hosted.rs`).
Trusted boundary: a document is rendered from one state of the tables; the rows of `versions` and how an
  instant is written are parameters
Main exports: artifactMetadata, snapshotMetadata, groupMetadata, metadata
-/
import OpenCargo.Maven.Server
import OpenCargo.Maven.Version

namespace OpenCargo.Maven

/-! ### The documents -/

def escape (c : Char) : Text :=
  if c = '&' then "&amp;".toList
  else if c = '<' then "&lt;".toList
  else if c = '>' then "&gt;".toList
  else if [c] = "\"".toList then "&quot;".toList
  else if [c] = "'".toList then "&apos;".toList
  else [c]

/-- One line: the value between its tags. -/
def element (depth : Nat) (name : String) (value : Text) : Text :=
  (List.replicate depth "  ".toList).flatten ++ '<' :: name.toList ++ '>' :: value.flatMap escape ++
    "</".toList ++ name.toList ++ ">\n".toList

/-- A line when there is a value for it. -/
def element? (depth : Nat) (name : String) (value : Option Text) : Text :=
  (value.map (element depth name)).getD []

structure ArtifactLevel where
  group : Text
  artifact : Text
  /-- Ascending, in Maven's order. -/
  versions : List Text
  latest : Option Text
  release : Option Text
  lastUpdated : Option Text
deriving Repr, DecidableEq, Inhabited

/-- The order `versions` are sorted in. -/
def versionLe (a b : Text) : Prop := (Version.compare a b).then (Version.cmpText a b) ≠ .gt

instance : DecidableRel versionLe := fun a b =>
  inferInstanceAs (Decidable ((Version.compare a b).then (Version.cmpText a b) ≠ .gt))

/-- What a client's document says of an artifact. -/
structure Hints where
  release : Option Text
  latest : Option Text
deriving Repr, DecidableEq, Inhabited

/-- `versions` sorted and deduplicated, `latest` and `release` their maxima unless a kept hint names one
of them. -/
def ArtifactLevel.computed (group artifact : Text) (versions : List Text) (hints : Hints)
    (lastUpdated : Option Text) : ArtifactLevel :=
  let versions := (versions.insertionSort versionLe).destutter (· ≠ ·)
  let known (hint : Option Text) := hint.filter fun v => versions.any (· == v)
  { group := group
    artifact := artifact
    versions := versions
    latest := (known hints.latest).or versions.getLast?
    release := (known (hints.release.filter fun v => !isSnapshot v)).or
      (versions.reverse.find? fun v => !isSnapshot v)
    lastUpdated := lastUpdated }

def ArtifactLevel.render (level : ArtifactLevel) : Text :=
  "<?xml version=\"1.0\" encoding=\"UTF-8\"?>\n<metadata>\n".toList ++
    element 1 "groupId" level.group ++
    element 1 "artifactId" level.artifact ++
    "  <versioning>\n".toList ++
    element? 2 "latest" level.latest ++
    element? 2 "release" level.release ++
    "    <versions>\n".toList ++
    level.versions.flatMap (element 3 "version") ++
    "    </versions>\n".toList ++
    element? 2 "lastUpdated" level.lastUpdated ++
    "  </versioning>\n</metadata>\n".toList

structure SnapshotEntry where
  classifier : Option Text
  extension : Text
  value : Text
  updated : Text
deriving Repr, DecidableEq, Inhabited

def SnapshotEntry.render (entry : SnapshotEntry) : Text :=
  "      <snapshotVersion>\n".toList ++
    element? 4 "classifier" entry.classifier ++
    element 4 "extension" entry.extension ++
    element 4 "value" entry.value ++
    element 4 "updated" entry.updated ++
    "      </snapshotVersion>\n".toList

/-- `Ord` of an optional text: none comes first. -/
def textLe? : Option Text → Option Text → Prop
  | none, _ => True
  | some _, none => False
  | some a, some b => a ≤ b

instance : DecidableRel textLe? := fun a b =>
  match a, b with
  | none, _ => .isTrue trivial
  | some _, none => .isFalse id
  | some a, some b => inferInstanceAs (Decidable (a ≤ b))

/-- By extension, then by classifier. -/
def SnapshotEntry.le (a b : SnapshotEntry) : Prop :=
  a.extension < b.extension ∨ (a.extension = b.extension ∧ textLe? a.classifier b.classifier)

instance : DecidableRel SnapshotEntry.le := fun a b =>
  inferInstanceAs (Decidable (_ ∨ (_ ∧ textLe? a.classifier b.classifier)))

structure SnapshotLevel where
  group : Text
  artifact : Text
  version : Text
  /-- `yyyyMMdd.HHmmss`, and the build number that goes with it. -/
  timestamp : Option Text
  buildNumber : Option Nat
  lastUpdated : Option Text
  entries : List SnapshotEntry
deriving Repr, DecidableEq, Inhabited

def SnapshotLevel.render (level : SnapshotLevel) : Text :=
  let snapshot :=
    match level.timestamp, level.buildNumber with
    | some timestamp, some number =>
        "    <snapshot>\n".toList ++ element 3 "timestamp" timestamp ++
          element 3 "buildNumber" (Nat.toDigits 10 number) ++ "    </snapshot>\n".toList
    | _, _ => []
  "<?xml version=\"1.0\" encoding=\"UTF-8\"?>\n<metadata modelVersion=\"1.1.0\">\n".toList ++
    element 1 "groupId" level.group ++
    element 1 "artifactId" level.artifact ++
    element 1 "version" level.version ++
    "  <versioning>\n".toList ++
    snapshot ++
    element? 2 "lastUpdated" level.lastUpdated ++
    "    <snapshotVersions>\n".toList ++
    level.entries.flatMap SnapshotEntry.render ++
    "    </snapshotVersions>\n  </versioning>\n</metadata>\n".toList

structure GroupLevel where
  plugins : List Plugin
deriving Repr, DecidableEq, Inhabited

def Plugin.render (plugin : Plugin) : Text :=
  "    <plugin>\n".toList ++ element 3 "name" plugin.name ++ element 3 "prefix" plugin.lead ++
    element 3 "artifactId" plugin.artifact ++ "    </plugin>\n".toList

def GroupLevel.render (level : GroupLevel) : Text :=
  "<?xml version=\"1.0\" encoding=\"UTF-8\"?>\n<metadata>\n  <plugins>\n".toList ++
    level.plugins.flatMap Plugin.render ++
    "  </plugins>\n</metadata>\n".toList

/-! ### What the store answers -/

/-- A unit as the readers see it. -/
structure UnitView where
  version : Text
  build : Text
  visibleAt : Option Instant
  refused : Bool
  files : List StoredFile
deriving Repr, DecidableEq, Inhabited

def UnitView.visible (view : UnitView) : Bool := view.visibleAt.isSome && !view.refused

/-- How far a scope's rendering has moved. -/
structure Counter where
  value : Nat
  updatedAt : Option Instant
deriving Repr, DecidableEq, Inhabited

def UnitRow.view (row : UnitRow) (files : List StoredFile) : UnitView where
  version := row.key.version
  build := row.key.build
  visibleAt := row.visibleAt.map readTs
  refused := row.refused
  files := files

namespace Tables

/-- The rows of `artifact`: `WHERE v.repository_id = ?1 AND v.ga = ?2 ORDER BY u.id`. -/
def artifactRows (tables : Tables) (repository : Int) (ga : Text) : List UnitRow :=
  (tables.units.filter fun row => row.key.repository == repository && row.key.ga == ga).insertionSort
    fun a b => a.id ≤ b.id

/-- `MavenFileStore::artifact`. -/
def artifact (tables : Tables) (repository : Int) (ga : Text) : List UnitView :=
  (tables.artifactRows repository ga).map fun row => row.view (tables.filesOf row.id)

/-- `MavenFileStore::counter`. -/
def counter (tables : Tables) (repository : Int) (scope : Text) : Counter :=
  match tables.counters.find? fun row => row.slot == (repository, scope) with
  | some row => ⟨row.counter, some (readTs row.updatedAt)⟩
  | none => ⟨0, none⟩

end Tables

/-! ### The reads of a hosted repository -/

/-- A row of `versions`, as far as the stamp reads it. -/
structure VersionRow where
  id : Nat
  yanked : Bool
  publishedAt : Instant
deriving Repr, DecidableEq, Inhabited

/-- The packages of the repository, by name, with their versions. -/
abbrev Packages := Text → Option (List VersionRow)

/-- A rendered document with its validators. -/
structure Rendered where
  body : Text
  etag : Text
  lastModified : Option Instant
  stale : Bool
deriving Repr, DecidableEq, Inhabited

structure Validators where
  etag : Text
  lastModified : Option Instant
deriving Repr, DecidableEq, Inhabited

def Validators.render (validators : Validators) (body : Text) : Rendered where
  body := body
  etag := validators.etag
  lastModified := validators.lastModified
  stale := false

section Reads

variable (stamp : Instant → Text) (packages : Packages) (server : Server) (repository : Int)

/-- What the generic readers see of `ga`, read off the `versions` rows. -/
def versionStamp (ga : Text) : Text × Option Instant :=
  match packages ga with
  | none => ("0".toList, none)
  | some versions =>
      let newest := ((versions.map VersionRow.id).max?).getD 0
      let yanked := versions.countP VersionRow.yanked
      (Nat.toDigits 10 versions.length ++ '-' :: Nat.toDigits 10 newest ++
        '-' :: Nat.toDigits 10 yanked, (versions.map VersionRow.publishedAt).max?)

/-- The `ETag` of a counter under a version stamp. -/
def etagOf (versions : Text) (counter : Nat) : Text :=
  "\"".toList ++ versions ++ '.' :: Nat.toDigits 10 counter ++ "\"".toList

def validators (ga scope : Text) : Validators :=
  let (versions, published) := versionStamp packages ga
  let counter := server.tables.counter repository scope
  { etag := etagOf versions counter.value
    lastModified := published.max counter.updatedAt }

def visible (units : List UnitView) : List UnitView := units.filter UnitView.visible

/-- The directory a client deposits an artifact's document in. -/
def hintsDir (group artifact : Text) : Text :=
  (group.map fun c => if c = '.' then '/' else c) ++ '/' :: artifact

/-- What the client's document of a directory says, nothing where there is none. -/
def Server.hints (dir : Text) : Hints :=
  let doc := server.client repository dir
  ⟨doc.bind ClientMetadata.release, doc.bind ClientMetadata.latest⟩

def artifactLevel (group artifact : Text) (units : List UnitView) (hints : Hints) : ArtifactLevel :=
  ArtifactLevel.computed group artifact (units.map UnitView.version) hints
    ((units.filterMap UnitView.visibleAt).max?.map stamp)

def artifactMetadata (group artifact : Text) : Option Rendered :=
  let ga := group ++ ':' :: artifact
  let validators := validators packages server repository ga (scopeArtifact ga)
  let units := visible (server.tables.artifact repository ga)
  if units.isEmpty then
    none
  else
    let hints := server.hints repository (hintsDir group artifact)
    some (validators.render (artifactLevel stamp group artifact units hints).render)

/-- `max_by` over the timestamped builds: the last of the latest. -/
def newestBuild (units : List UnitView) : Option ((Text × Nat) × UnitView) :=
  let builds := units.filterMap fun unit =>
    (parseBuild unit.build).map fun (timestamp, number, _) => ((timestamp, number), unit)
  builds.foldl (fun best next =>
    match best with
    | none => some next
    | some held =>
        let order := (Version.cmpText held.1.1 next.1.1).then (compare held.1.2 next.1.2)
        if order = .gt then some held else some next) none

/-- `str::trim_end_matches`. -/
def trimEndMatches (tail : Text) : Nat → Text → Text
  | 0, text => text
  | left + 1, text =>
      match stripSuffix text tail with
      | some base => trimEndMatches tail left base
      | none => text

/-- The newest build there is, or the one without a timestamp. -/
def announced (units : List UnitView) : Option (Option (Text × Nat) × UnitView) :=
  match newestBuild units with
  | some (build, unit) => some (some build, unit)
  | none => (units.find? fun unit => unit.build.isEmpty).map fun unit => (none, unit)

def snapshotLevel (gav : Gav) (build : Option (Text × Nat)) (unit : UnitView) : SnapshotLevel :=
  let base := trimEndMatches "-SNAPSHOT".toList gav.version.length gav.version
  let value := if build.isSome then base ++ '-' :: unit.build else gav.version
  let updated := (unit.visibleAt.map stamp).getD []
  let entries := unit.files.filterMap fun f =>
    match MavenPath.parse (gav.versionDir ++ '/' :: f.filename) with
    | .ok ⟨.file file, _⟩ => some ⟨file.classifier, file.extension, value, updated⟩
    | _ => none
  { group := gav.group
    artifact := gav.artifact
    version := gav.version
    timestamp := build.map Prod.fst
    buildNumber := build.map Prod.snd
    lastUpdated := some updated
    entries := entries.insertionSort SnapshotEntry.le }

/-- The newest visible build only, every file of it. -/
def snapshotMetadata (gav : Gav) : Option Rendered :=
  let validators := validators packages server repository gav.ga (scopeSnapshot gav.ga gav.version)
  let units := (visible (server.tables.artifact repository gav.ga)).filter fun unit =>
    unit.version == gav.version
  match announced units with
  | none => none
  | some (build, unit) => some (validators.render (snapshotLevel stamp gav build unit).render)

/-- The plugins a client declared for a group, when it declared any. -/
def groupMetadata (dir : List Text) : Option Rendered :=
  let group := dotted dir
  let validators := validators packages server repository group (scopeGroup group)
  match server.client repository (['/'].intercalate dir) with
  | none => none
  | some doc =>
      if doc.plugins.isEmpty then none
      else some (validators.render (GroupLevel.mk doc.plugins).render)

/-- Whichever document the directory holds: a snapshot's, an artifact's, or a group's plugins. -/
def metadata (dir : List Text) : Option Rendered :=
  match MetadataLevel.of dir with
  | some (.snapshot gav) => snapshotMetadata stamp packages server repository gav
  | some (.artifact group artifact) =>
      match artifactMetadata stamp packages server repository group artifact with
      | some found => some found
      | none => groupMetadata packages server repository dir
  | none => groupMetadata packages server repository dir

end Reads

end OpenCargo.Maven
