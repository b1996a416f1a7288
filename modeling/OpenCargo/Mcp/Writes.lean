/-
Module: OpenCargo.Mcp.Writes
Purpose: The writes of the MCP store (`adapters/sqlite/mcp.rs`), each one transaction, and `refresh`, the
  one recomputation of what a page serves that they end with: the live surfaces of a version, its finding
  counts, its endpoints, and the verdict of every repository that judged it.
Trusted boundary: none
Main exports: Tables.refreshRepositoryCounts, Write, Tables.write, store
-/
import OpenCargo.Lib.Lines
import OpenCargo.Lib.Rows
import OpenCargo.Lib.Run
import OpenCargo.Mcp.Tables

namespace OpenCargo.Mcp

open OpenCargo.Governance (Decision Endpoint EndpointVerdict Fingerprint endpointVerdict)
open OpenCargo.Lib (lines updateAt upsert)

/-! ### What is written -/

/-- A scan result as stored. -/
structure NewFinding where
  pattern : Text
  high : Bool
  field : Text
  tool : Text
  spanStart : Int
deriving Repr, DecidableEq, Inhabited

/-- A fingerprinted answer of one endpoint, and what the scan found in it. -/
structure NewSurface where
  source : SurfaceSource
  remoteUrl : Text
  toolsSha256 : Option Text
  permissionsSha256 : Text
  combinedSha256 : Text
  findings : List NewFinding
deriving Repr, DecidableEq, Inhabited

/-- One server record as sync or publish writes it: its name and its version were held to their shape. -/
structure RecordWrite where
  repository : Int
  name : Text
  version : Text
  hosted : Bool
  envelopeJson : Text
  status : Status
  isLatest : Bool
  /-- Every other version of the name stops being latest, in the same transaction. -/
  takeLatest : Bool
  remoteUrls : List Text
  declared : NewSurface
  now : Instant
  named : validateName name = .ok ()
  versioned : validateVersion version = .ok ()

/-- A probe attempt: a surface when it answered, an error when not. -/
structure ProbeRun where
  versionId : Int
  outcome : Except Text NewSurface
  now : Instant

/-- One decision about one endpoint of a version, or about a skill. -/
structure NewApproval where
  repository : Int
  skill : Bool
  name : Text
  version : Text
  remoteUrl : Text
  permissionsSha256 : Text
  toolsSha256 : Option Text
  surfaceId : Option Int
  decision : Decision
  now : Instant
deriving Repr, DecidableEq, Inhabited

/-! ### Surfaces -/

/-- The urls a record declares, as its row keeps them. -/
def urlsOf (stored : Text) : List Text := (lines stored).filter (!·.isEmpty)

def ServerVersion.urls (v : ServerVersion) : List Text := urlsOf v.remoteUrls

/-- `UNIQUE (subject_kind, subject_id, pattern, field, tool, span_start)`. -/
def Finding.slot (f : Finding) : Subject × Text × Text × Text × Int :=
  (f.subject, f.pattern, f.field, f.tool, f.spanStart)

/-- `INSERT … ON CONFLICT DO NOTHING`. -/
def insertFinding (subject : Subject) (rows : List Finding) (f : NewFinding) : List Finding :=
  upsert Finding.slot id ⟨subject, f.pattern, f.high, f.field, f.tool, f.spanStart⟩ rows

/-- `UNIQUE (version_id, source, remote_url, combined_sha256)`. -/
def Surface.slot (s : Surface) : Int × SurfaceSource × Text × Text :=
  (s.versionId, s.source, s.remoteUrl, s.combinedSha256)

/-- The row a surface is inserted as. -/
def NewSurface.row (s : NewSurface) (id versionId : Int) (now : Instant) : Surface where
  id := id
  versionId := versionId
  source := s.source
  remoteUrl := s.remoteUrl
  toolsSha256 := s.toolsSha256
  permissionsSha256 := s.permissionsSha256
  combinedSha256 := s.combinedSha256
  capturedAt := bindTs now

namespace Tables

variable (t : Tables)

/-- A subject's findings are written once: every scan replaces them. -/
def replaceFindings (subject : Subject) (findings : List NewFinding) : Tables :=
  { t with
    findings := findings.foldl (insertFinding subject) (t.findings.filter (·.subject != subject)) }

/-- The surface is inserted, or its capture is renewed; its findings are replaced. -/
def upsertSurface (versionId : Int) (s : NewSurface) (now : Instant) : Tables :=
  let new := s.row (t.surfaceSeq + 1) versionId now
  match t.surfaces.find? (·.slot == new.slot) with
  | some held =>
      Tables.replaceFindings
        { t with
          surfaces := updateAt Surface.id held.id (fun s => { s with capturedAt := bindTs now }) t.surfaces }
        (.surface held.id) s.findings
  | none =>
      Tables.replaceFindings
        { t with surfaces := t.surfaces ++ [new], surfaceSeq := new.id } (.surface new.id) s.findings

end Tables

/-- The endpoint of a surface left the record. -/
def Surface.withdrawn (s : Surface) (urls : List Text) : Bool :=
  !s.remoteUrl.isEmpty && !urls.contains s.remoteUrl

/-- One source's answer of one endpoint. -/
def Surface.endpoint (s : Surface) : SurfaceSource × Text := (s.source, s.remoteUrl)

/-- `ORDER BY captured_at DESC, id DESC`. -/
def Surface.recency (s : Surface) : ℤ ×ₗ ℤ := toLex (-s.capturedAt, -s.id)

/-- `rank`: attested over probe over declared. -/
def SurfaceSource.rank : SurfaceSource → Nat
  | .attested => 0
  | .probe => 1
  | .declared => 2

def ordinalOf (urls : List Text) (url : Text) : Nat := (urls.findIdx? (· == url)).getD 0

/-- The one precedence rule: the source, then the record's declaration order, then the newest capture. -/
def Surface.precedence (urls : List Text) (s : Surface) : ℕ ×ₗ ℕ ×ₗ ℤ ×ₗ ℤ :=
  toLex (s.source.rank, toLex (ordinalOf urls s.remoteUrl, s.recency))

/-- The loop of `prune`: the live surfaces so far, and the ids of those to delete. -/
def pruneStep (urls : List Text) (pinned : Int → Bool) (found : List Surface × List Int)
    (s : Surface) : List Surface × List Int :=
  if s.withdrawn urls || found.1.any (·.endpoint == s.endpoint) then
    (found.1, if s.withdrawn urls || !pinned s.id then found.2 ++ [s.id] else found.2)
  else (found.1 ++ [s], found.2)

/-- The endpoints of a version: those it observed, each once, or the declared slot while there is
none. -/
def endpointUrlsOf (ordered : List Surface) : List Text :=
  let observed := ordered.filter (·.source != .declared)
  if observed.isEmpty then [[]]
  else
    observed.foldl (fun seen s => if seen.contains s.remoteUrl then seen else seen ++ [s.remoteUrl]) []

/-- What an endpoint currently answers, with the permissions of the record. -/
def currentOf (v : ServerVersion) (ordered : List Surface) (url : Text) : Fingerprint where
  permissions := v.permissionsSha256
  tools :=
    (ordered.find? fun s =>
      s.remoteUrl == url &&
        (s.source != .declared || (ordered.filter (·.source != .declared)).isEmpty)).bind
      (·.toolsSha256)

/-- A decision about this version, whichever repository took it. -/
def Approval.isFor (a : Approval) (v : ServerVersion) : Bool :=
  !a.skill && a.name == v.name && a.version == v.version

/-- The endpoints of a version as one repository judged them. -/
def endpointsFor (v : ServerVersion) (ordered : List Surface) (approvals : List Approval)
    (repository : Int) : List Endpoint :=
  (endpointUrlsOf ordered).map fun url =>
    { url := url
      current := currentOf v ordered url
      approval :=
        (approvals.find? fun a => a.repositoryId == repository && a.remoteUrl == url).map fun a =>
          (a.state, ⟨a.permissionsSha256, a.toolsSha256⟩) }

/-- The repositories a version has a verdict of: those that decided about it, and its own. -/
def judges (v : ServerVersion) (approvals : List Approval) : List Int :=
  ((approvals.map (·.repositoryId) ++ [v.repositoryId]).dedup).insertionSort (· ≤ ·)

namespace Tables

variable (t : Tables)

/-- `prune`, before it deletes: the live surfaces, and the ids of those to delete. A superseded surface
stays while an approval pins the bytes it was taken against. -/
def pruned (v : ServerVersion) : List Surface × List Int :=
  ((t.surfaces.filter (·.versionId == v.id)).insertionSort fun a b => a.recency ≤ b.recency).foldl
    (pruneStep v.urls fun id => t.approvals.any (·.surfaceId == some id)) ([], [])

/-- The surfaces of the version that are live: one per source and endpoint. -/
def liveOf (v : ServerVersion) : List Surface := (t.pruned v).1

/-- The live surfaces, the current one first. -/
def orderedOf (v : ServerVersion) : List Surface :=
  (t.liveOf v).insertionSort fun a b => a.precedence v.urls ≤ b.precedence v.urls

def endpointUrls (v : ServerVersion) : List Text := endpointUrlsOf (t.orderedOf v)

def approvalsFor (v : ServerVersion) : List Approval := t.approvals.filter (·.isFor v)

/-- The input of a repository's verdict on a version. -/
def endpointsOf (v : ServerVersion) (repository : Int) : List Endpoint :=
  endpointsFor v (t.orderedOf v) (t.approvalsFor v) repository

/-- `retire_withdrawn`: an endpoint the record stopped declaring leaves the quorum. -/
def retireWithdrawn (v : ServerVersion) : Tables :=
  { t with
    approvals := t.approvals.filter fun a =>
      !(a.isFor v && !a.remoteUrl.isEmpty && !v.urls.contains a.remoteUrl) }

/-- The deletions of `prune`; `ON DELETE SET NULL` lets go of the approvals that named them. -/
def deleteSurfaces (dead : List Int) : Tables :=
  { t with
    surfaces := t.surfaces.filter fun s => !dead.contains s.id
    findings := t.findings.filter fun f => !dead.any fun id => f.subject == .surface id
    approvals := t.approvals.map fun a =>
      if a.surfaceId.any dead.contains then { a with surfaceId := none } else a }

/-- One slot of `rekey_declared_slot`. -/
def rekeySlot (v : ServerVersion) (first : Text) (approvals : List Approval) (slot : Approval) :
    List Approval :=
  if approvals.any fun a =>
      a.repositoryId == slot.repositoryId && a.isFor v && a.remoteUrl == first then
    approvals.filter (·.id != slot.id)
  else updateAt Approval.id slot.id (fun a => { a with remoteUrl := first }) approvals

/-- `rekey_declared_slot`: the first observed url replaces the declared slot, carrying its approval with
it. -/
def rekeyed (v : ServerVersion) (endpoints : List Text) : List Approval :=
  match endpoints.head? with
  | none => t.approvals
  | some first =>
      if first.isEmpty || endpoints.any (·.isEmpty) then t.approvals
      else
        (t.approvals.filter fun a => a.isFor v && a.remoteUrl.isEmpty).foldl (rekeySlot v first)
          t.approvals

/-- A finding one of the repository's suppressions covers. -/
def suppressed (repository : Int) (f : Finding) : Bool :=
  t.suppressions.any fun s =>
    s.repositoryId == repository && s.pattern == f.pattern && (s.tool.isEmpty || s.tool == f.tool)

/-- The findings on one surface, less one repository's suppressions when given. -/
def countsOn (suppressing : Option Int) (surface : Int) : Int × Int :=
  let kept := t.findings.filter fun f =>
    f.subject == .surface surface && !suppressing.any (t.suppressed · f)
  (kept.countP (·.high), kept.countP (!·.high))

/-- High and medium findings over surfaces. -/
def countsOver (surfaces : List Int) (suppressing : Option Int) : Int × Int :=
  ((surfaces.map fun id => (t.countsOn suppressing id).1).sum,
    (surfaces.map fun id => (t.countsOn suppressing id).2).sum)

/-- Sparse: a row only for the repositories holding a suppression. -/
def writeSuppressedCounts (versionId : Int) (live : List Int) : Tables :=
  { t with
    counts := t.counts.filter (·.versionId != versionId) ++
      (t.suppressions.map (·.repositoryId)).dedup.map fun repository =>
        ⟨repository, versionId, (t.countsOver live (some repository)).1,
          (t.countsOver live (some repository)).2⟩ }

/-- What `moved` compares: the verdicts of a version in the order of their repositories. -/
def verdictsShown (rows : List VersionVerdict) (versionId : Int) :
    List (Int × Int × Int × Governance.Drift) :=
  ((rows.filter (·.versionId == versionId)).insertionSort fun a b => a.repositoryId ≤ b.repositoryId).map
    fun row => (row.repositoryId, row.verdict.surfaceEndpoints, row.verdict.approvedEndpoints,
      row.verdict.worstDrift)

/-- The verdicts `refresh` writes, over the endpoints of the record. -/
def verdictsFor (v : ServerVersion) (ordered : List Surface) : List VersionVerdict :=
  (judges v (t.approvalsFor v)).map fun repository =>
    ⟨repository, v.id, endpointVerdict (endpointsFor v ordered (t.approvalsFor v) repository)⟩

/-- `refresh` up to the verdicts: the withdrawn endpoints retired, the superseded surfaces deleted, and
the declared slot re-keyed. -/
def settle (v : ServerVersion) : Tables :=
  let retired := t.retireWithdrawn v
  let cut := retired.deleteSurfaces (retired.pruned v).2
  { cut with approvals := cut.rekeyed v (retired.endpointUrls v) }

/-- `refresh`, of a row that is there. -/
def refreshRow (v : ServerVersion) (now : Instant) : Tables :=
  let retired := t.retireWithdrawn v
  let ordered := retired.orderedOf v
  let live := (retired.liveOf v).map Surface.id
  let current := ordered.head?.map Surface.id
  let settled := t.settle v
  let counts := settled.countsOver live none
  let after := settled.verdictsFor v ordered
  let moved := decide (current ≠ v.currentSurfaceId) || decide (counts.1 ≠ v.findingsHigh) ||
    decide (counts.2 ≠ v.findingsMedium) ||
    decide (verdictsShown t.verdicts v.id ≠ verdictsShown after v.id)
  let counted := settled.writeSuppressedCounts v.id live
  { counted with
    verdicts := t.verdicts.filter (·.versionId != v.id) ++ after
    versions := updateAt ServerVersion.id v.id (fun row =>
      { row with
        currentSurfaceId := current
        findingsHigh := counts.1
        findingsMedium := counts.2
        rowChangedAt := if moved then bindTs now else row.rowChangedAt }) t.versions }

/-- `refresh`: everything a page reads without aggregating, recomputed for one version. -/
def refresh (versionId : Int) (now : Instant) : Tables :=
  match t.versions.find? (·.id == versionId) with
  | none => t
  | some v => t.refreshRow v now

/-- The surfaces of a version, the superseded ones an approval pins among them. -/
def surfacesOf (versionId : Int) : List Int :=
  (t.surfaces.filter (·.versionId == versionId)).map (·.id)

/-- The versions with a finding the repository suppresses, of those with a surface. -/
def suppressing (repository versionId : Int) : Bool :=
  t.findings.any fun f =>
    (t.surfacesOf versionId).any (fun id => f.subject == .surface id) && t.suppressed repository f

/-- `refresh_repository_counts`: one repository's counts rebuilt in two statements, `GROUP BY` version
over every surface there is. -/
def refreshRepositoryCounts (repository : Int) : Tables :=
  { t with
    counts := t.counts.filter (·.repositoryId != repository) ++
      (((t.surfaces.map (·.versionId)).dedup.filter (t.suppressing repository)).map fun versionId =>
        ⟨repository, versionId, (t.countsOver (t.surfacesOf versionId) (some repository)).1,
          (t.countsOver (t.surfacesOf versionId) (some repository)).2⟩) }

end Tables

/-! ### The transactions -/

/-- The row a record is inserted as. -/
def RecordWrite.row (r : RecordWrite) (id : Int) : ServerVersion where
  id := id
  repositoryId := r.repository
  name := r.name
  version := r.version
  hosted := r.hosted
  responseJson := r.envelopeJson
  status := r.status
  isLatest := r.isLatest
  remoteUrls := ['\n'].intercalate r.remoteUrls
  rowChangedAt := bindTs r.now
  permissionsSha256 := r.declared.permissionsSha256
  currentSurfaceId := none
  findingsHigh := 0
  findingsMedium := 0

/-- `ON CONFLICT(repository_id, name, version) DO UPDATE`. -/
def RecordWrite.update (r : RecordWrite) (held : ServerVersion) : ServerVersion :=
  { r.row held.id with
    rowChangedAt := if r.envelopeJson ≠ held.responseJson then bindTs r.now else held.rowChangedAt
    currentSurfaceId := held.currentSurfaceId
    findingsHigh := held.findingsHigh
    findingsMedium := held.findingsMedium }

/-- `UNIQUE (repository_id, subject_kind, name, version, remote_url)`. -/
def Approval.slot (a : Approval) : Int × Bool × Text × Text × Text :=
  (a.repositoryId, a.skill, a.name, a.version, a.remoteUrl)

/-- The row an approval is inserted as. -/
def NewApproval.row (a : NewApproval) (id : Int) : Approval where
  id := id
  repositoryId := a.repository
  skill := a.skill
  name := a.name
  version := a.version
  permissionsSha256 := a.permissionsSha256
  toolsSha256 := a.toolsSha256
  remoteUrl := a.remoteUrl
  surfaceId := a.surfaceId
  state := a.decision

namespace Tables

variable (t : Tables)

/-- The insert of `upsert_record`, and the id it returns. -/
def writeRecord (r : RecordWrite) : Tables × Int :=
  let new := r.row (t.versionSeq + 1)
  match t.versions.find? (·.slot == new.slot) with
  | some held => ({ t with versions := updateAt ServerVersion.id held.id r.update t.versions }, held.id)
  | none => ({ t with versions := t.versions ++ [new], versionSeq := new.id }, new.id)

/-- `take_latest`. -/
def takeLatest (r : RecordWrite) (id : Int) : Tables :=
  if r.takeLatest then
    { t with
      versions := t.versions.map fun v =>
        if v.repositoryId = r.repository ∧ v.name = r.name ∧ v.id ≠ id ∧ v.isLatest = true then
          { v with isLatest := false, rowChangedAt := bindTs r.now }
        else v }
  else t

def upsertRecord (r : RecordWrite) : Tables :=
  let (written, id) := t.writeRecord r
  ((written.takeLatest r id).upsertSurface id r.declared r.now).refresh id r.now

/-- `record_probe`; a version that is gone records nothing. -/
def recordProbe (run : ProbeRun) : Tables :=
  if t.versions.any (·.id == run.versionId) then
    match run.outcome with
    | .ok surface => (t.upsertSurface run.versionId surface run.now).refresh run.versionId run.now
    | .error _ => t.refresh run.versionId run.now
  else t

def recordAttested (versionId : Int) (surface : NewSurface) (now : Instant) : Except StoreError Tables :=
  if t.versions.any (·.id == versionId) then
    .ok ((t.upsertSurface versionId surface now).refresh versionId now)
  else .error .notFound

/-- `write_approval`; a surface that is gone fails the foreign key. -/
def writeApproval (a : NewApproval) : Except StoreError Tables :=
  if a.surfaceId.all fun id => t.surfaces.any (·.id == id) then
    let new := a.row (t.approvalSeq + 1)
    match t.approvals.find? (·.slot == new.slot) with
    | some held =>
        .ok { t with approvals := updateAt Approval.id held.id (fun _ => a.row held.id) t.approvals }
    | none => .ok { t with approvals := t.approvals ++ [new], approvalSeq := new.id }
  else .error .conflict

/-- The ids of the rows a decision is about, whichever repository holds them. -/
def rowsOf (a : NewApproval) : List Int :=
  if a.skill then []
  else (t.versions.filter fun v => v.name == a.name && v.version == a.version).map (·.id)

/-- `decide`: each approval written, and every row it is about refreshed. -/
def decideAll : Tables → List NewApproval → Except StoreError Tables
  | t, [] => .ok t
  | t, a :: rest => do
      let written ← t.writeApproval a
      decideAll ((written.rowsOf a).foldl (fun t id => t.refresh id a.now) written) rest

/-- The next rowid of a table without `AUTOINCREMENT`. -/
def nextSuppression : Int := (t.suppressions.map (·.id)).foldl max 0 + 1

def Suppression.slot (s : Suppression) : Int × Text × Text := (s.repositoryId, s.pattern, s.tool)

def addSuppression (repository : Int) (pattern tool : Text) : Except StoreError Tables :=
  let new : Suppression := ⟨t.nextSuppression, repository, pattern, tool⟩
  if t.suppressions.any fun s => Suppression.slot s == Suppression.slot new then .error .conflict
  else
    .ok (Tables.refreshRepositoryCounts { t with suppressions := t.suppressions ++ [new] } repository)

def deleteSuppression (repository id : Int) : Except StoreError Tables :=
  if t.suppressions.any fun s => s.repositoryId == repository && s.id == id then
    .ok (Tables.refreshRepositoryCounts
      { t with
        suppressions := t.suppressions.filter fun s => !(s.repositoryId == repository && s.id == id) }
      repository)
  else .error .notFound

/-- One suppression of the configuration, if it is new. -/
def seedOne (repository : Int) (found : Tables × Bool) (s : Text × Text) : Tables × Bool :=
  let new : Suppression := ⟨found.1.nextSuppression, repository, s.1, s.2⟩
  if found.1.suppressions.any fun s => Suppression.slot s == Suppression.slot new then found
  else ({ found.1 with suppressions := found.1.suppressions ++ [new] }, true)

/-- `seed`, as far as it writes suppressions. -/
def seed (repository : Int) (suppressions : List (Text × Text)) : Tables :=
  let (seeded, added) := suppressions.foldl (seedOne repository) (t, false)
  if added then seeded.refreshRepositoryCounts repository else seeded

/-- `ON DELETE CASCADE` of the rows that are gone: their surfaces, their verdicts and their counts; the
approvals let go of the surfaces. -/
def dropVersions (gone : ServerVersion → Bool) : Tables :=
  let ids := (t.versions.filter gone).map (·.id)
  let surfaces := (t.surfaces.filter fun s => ids.contains s.versionId).map (·.id)
  { t with
    versions := t.versions.filter (!gone ·)
    surfaces := t.surfaces.filter fun s => !ids.contains s.versionId
    verdicts := t.verdicts.filter fun row => !ids.contains row.versionId
    counts := t.counts.filter fun row => !ids.contains row.versionId
    approvals := t.approvals.map fun a =>
      if a.surfaceId.any surfaces.contains then { a with surfaceId := none } else a }

/-- The findings on the surfaces of a repository's versions. -/
def forgetFindings (repository : Int) : Tables :=
  let versions := (t.versions.filter (·.repositoryId == repository)).map (·.id)
  let surfaces := (t.surfaces.filter fun s => versions.contains s.versionId).map (·.id)
  { t with findings := t.findings.filter fun f => !surfaces.any fun id => f.subject == .surface id }

/-- `purge`: the synced rows of a mirror go. -/
def purge (repository : Int) : Tables :=
  (t.forgetFindings repository).dropVersions fun v => v.repositoryId == repository && !v.hosted

/-- The MCP side of `retire_row`: refused while a hosted record is there, else everything of the
repository goes with it. -/
def deleteRepository (repository : Int) : Except StoreError Tables :=
  if t.versions.any fun v => v.repositoryId == repository && v.hosted then .error .conflict
  else
    let dropped := (t.forgetFindings repository).dropVersions (·.repositoryId == repository)
    .ok { dropped with
      approvals := dropped.approvals.filter (·.repositoryId != repository)
      verdicts := dropped.verdicts.filter (·.repositoryId != repository)
      suppressions := dropped.suppressions.filter (·.repositoryId != repository)
      counts := dropped.counts.filter (·.repositoryId != repository) }

end Tables

/-- A write of the store. -/
inductive Write where
  | upsertRecord (r : RecordWrite)
  | recordProbe (run : ProbeRun)
  | recordAttested (versionId : Int) (surface : NewSurface) (now : Instant)
  | decide (approvals : List NewApproval)
  | addSuppression (repository : Int) (pattern tool : Text)
  | deleteSuppression (repository id : Int)
  | seed (repository : Int) (suppressions : List (Text × Text))
  | purge (repository : Int)
  | deleteRepository (repository : Int)

/-- What a write leaves, or why it was rolled back. -/
def Tables.write (t : Tables) : Write → Except StoreError Tables
  | .upsertRecord r => .ok (t.upsertRecord r)
  | .recordProbe run => .ok (t.recordProbe run)
  | .recordAttested versionId surface now => t.recordAttested versionId surface now
  | .decide approvals => t.decideAll approvals
  | .addSuppression repository pattern tool => t.addSuppression repository pattern tool
  | .deleteSuppression repository id => t.deleteSuppression repository id
  | .seed repository suppressions => .ok (t.seed repository suppressions)
  | .purge repository => .ok (t.purge repository)
  | .deleteRepository repository => t.deleteRepository repository

/-- One step of the store: a write that commits. -/
def store (t : Tables) (w : Write) : Option Tables := (t.write w).toOption

end OpenCargo.Mcp
