/-
Module: OpenCargo.Mcp.Tables
Purpose: The tables of the MCP store (`adapters/sqlite/migrations/023_mcp.sql`), what a server name and a
  server version may be (`registry/mcp/rules.rs`), and the joined row a read of the catalogue answers
  (`adapters/sqlite/mcp_read.rs`).
Trusted boundary: none
Main exports: FindingCount, Tables, Tables.Sound, Tables.catalogRow
-/
import OpenCargo.Access.Scope
import OpenCargo.Maven.Server
import OpenCargo.Mcp.Gates

namespace OpenCargo.Mcp

open OpenCargo.Access (isControl)
open OpenCargo.Governance (Decision Drift EndpointVerdict)
open OpenCargo.Keys (byteLength)
open OpenCargo.Maven (isWhitespace splitOnce)

/-! ### Names and versions -/

def namespaceByte (c : Char) : Bool := c.isAlphanum || c == '.' || c == '-'

def leafByte (c : Char) : Bool := c.isAlphanum || c == '.' || c == '-' || c == '_'

def invalidServer (what value : Text) : DomainError :=
  .invalidName ("invalid MCP server ".toList ++ what ++ ": '".toList ++ value ++ "'".toList)

/-- `name.starts_with` or `name.ends_with` one of `.` and `-`. -/
def edgeByte (c : Option Char) : Bool := c == some '.' || c == some '-'

/-- `McpRules::validate`: `<reverse-dns namespace>/<name>`. -/
def validateName (name : Text) : Except DomainError Unit :=
  match splitOnce name '/' with
  | none => .error (invalidServer "name".toList name)
  | some (space, leaf) =>
      if byteLength name ≤ 200 && !space.isEmpty && !leaf.isEmpty && space.all namespaceByte &&
          leaf.all leafByte && !edgeByte space.head? && !edgeByte space.getLast? &&
          !decide ("..".toList <:+: space) && leaf != ".".toList && leaf != "..".toList then
        .ok ()
      else .error (invalidServer "name".toList name)

/-- `McpRules::validate_version`: one opaque segment, never `latest`. -/
def validateVersion (version : Text) : Except DomainError Unit :=
  if !version.isEmpty && decide (byteLength version ≤ 255) && version != "latest".toList &&
      !version.contains '/' && version.all (fun c => !isControl c && !isWhitespace c) then
    .ok ()
  else .error (invalidServer "version".toList version)

theorem colon_not_mem_of_validateName {name : Text} (valid : validateName name = .ok ()) :
    ':' ∉ name := by
  rw [validateName] at valid
  cases split : splitOnce name '/' with
  | none => simp [split] at valid
  | some pair =>
      obtain ⟨space, leaf⟩ := pair
      have slash : '/' ∈ name := by
        by_contra none
        have whole : name.dropWhile (fun c => c != '/') = [] := by
          rw [List.dropWhile_eq_nil_iff]
          intro c mem
          simp only [bne_iff_ne, ne_eq]
          rintro rfl
          exact none mem
        simp [splitOnce, List.span_eq_takeWhile_dropWhile, whole] at split
      obtain ⟨first, rest, cut, whole⟩ := Maven.splitOnce_of_mem slash
      cases split.symm.trans cut
      simp only [split, Bool.and_eq_true, List.all_eq_true] at valid
      split at valid
      case isFalse => cases valid
      case isTrue held =>
        have spaces := held.1.1.1.1.1.1.2
        have leaves := held.1.1.1.1.1.2
        rw [← whole]
        intro colon
        rcases List.mem_append.mp colon with mem | mem
        · exact absurd (spaces _ mem) (by decide)
        · rcases List.mem_cons.mp mem with same | mem
          · exact absurd same (by decide)
          · exact absurd (leaves _ mem) (by decide)

/-! ### The tables -/

/-- A row of `mcp_server_versions`. -/
structure ServerVersion where
  id : Int
  repositoryId : Int
  name : Text
  version : Text
  hosted : Bool
  responseJson : Text
  status : Status
  isLatest : Bool
  /-- The record's `remotes[]` urls, one on a line. -/
  remoteUrls : Text
  rowChangedAt : Int
  permissionsSha256 : Text
  currentSurfaceId : Option Int
  findingsHigh : Int
  findingsMedium : Int
deriving Repr, DecidableEq, Inhabited

inductive SurfaceSource where
  | declared
  | probe
  | attested
deriving Repr, DecidableEq, Inhabited

/-- A row of `mcp_surfaces`: a fingerprinted answer of one endpoint. -/
structure Surface where
  id : Int
  versionId : Int
  source : SurfaceSource
  /-- The endpoint identity; empty for the declared record and for stdio. -/
  remoteUrl : Text
  toolsSha256 : Option Text
  permissionsSha256 : Text
  combinedSha256 : Text
  capturedAt : Int
deriving Repr, DecidableEq, Inhabited

/-- The `subject_kind` and `subject_id` of a finding. -/
inductive Subject where
  | surface (id : Int)
  | skill (id : Int)
deriving Repr, DecidableEq, Inhabited

/-- A row of `mcp_findings`. -/
structure Finding where
  subject : Subject
  pattern : Text
  high : Bool
  field : Text
  tool : Text
  spanStart : Int
deriving Repr, DecidableEq, Inhabited

/-- A row of `mcp_approvals`: a decision about one endpoint of a version, or about a skill. -/
structure Approval where
  id : Int
  repositoryId : Int
  skill : Bool
  name : Text
  version : Text
  permissionsSha256 : Text
  toolsSha256 : Option Text
  remoteUrl : Text
  surfaceId : Option Int
  state : Decision
deriving Repr, DecidableEq, Inhabited

/-- A row of `mcp_version_verdicts`. -/
structure VersionVerdict where
  repositoryId : Int
  versionId : Int
  verdict : EndpointVerdict
deriving Repr, DecidableEq, Inhabited

/-- A row of `mcp_suppressions`; an empty tool stands for every tool. -/
structure Suppression where
  id : Int
  repositoryId : Int
  pattern : Text
  tool : Text
deriving Repr, DecidableEq, Inhabited

/-- A row of `mcp_finding_counts`. -/
structure FindingCount where
  repositoryId : Int
  versionId : Int
  high : Int
  medium : Int
deriving Repr, DecidableEq, Inhabited

/-- The MCP tables of one store, with the sequences `AUTOINCREMENT` keeps. -/
structure Tables where
  versions : List ServerVersion
  surfaces : List Surface
  findings : List Finding
  approvals : List Approval
  verdicts : List VersionVerdict
  suppressions : List Suppression
  counts : List FindingCount
  versionSeq : Int
  surfaceSeq : Int
  approvalSeq : Int
deriving Repr, DecidableEq, Inhabited

def Tables.empty : Tables := ⟨[], [], [], [], [], [], [], 0, 0, 0⟩

/-- `UNIQUE (repository_id, name, version)`. -/
def ServerVersion.slot (v : ServerVersion) : Int × Text × Text := (v.repositoryId, v.name, v.version)

/-- What the table and the only writer of its rows promise: a slot is held once, and what is stored
was held to the shape of a name and of a version. -/
structure Tables.Sound (t : Tables) : Prop where
  slots : (t.versions.map ServerVersion.slot).Nodup
  named : ∀ v ∈ t.versions, validateName v.name = .ok ()
  versioned : ∀ v ∈ t.versions, validateVersion v.version = .ok ()

/-! ### The joined row -/

namespace Tables

variable (t : Tables) (addressed : Int)

/-- `LEFT JOIN mcp_version_verdicts`, whose key is the pair. -/
def verdictOf (repository versionId : Int) : Option EndpointVerdict :=
  (t.verdicts.find? fun row => row.repositoryId == repository && row.versionId == versionId).map
    (·.verdict)

/-- The url of the current surface, `COALESCE(s.remote_url, '')`. -/
def currentUrl (v : ServerVersion) : Text :=
  ((v.currentSurfaceId.bind fun id => t.surfaces.find? (·.id == id)).map (·.remoteUrl)).getD []

/-- `LEFT JOIN mcp_approvals` on the current endpoint. -/
def decisionOf (repository : Int) (v : ServerVersion) : Option Decision :=
  (t.approvals.find? fun a => a.repositoryId == repository && !a.skill && a.name == v.name &&
    a.version == v.version && a.remoteUrl == t.currentUrl v).map (·.state)

/-- `LEFT JOIN mcp_finding_counts`, whose key is the pair. -/
def countOf (repository versionId : Int) : Option FindingCount :=
  t.counts.find? fun row => row.repositoryId == repository && row.versionId == versionId

/-- The verdict columns of a version nobody has judged. -/
def unjudged : EndpointVerdict where
  surfaceEndpoints := 0
  approvedEndpoints := 0
  worstDrift := .none
  driftedRemote := none

/-- The addressed repository's verdict with the member's as the fallback. -/
def shownVerdict (v : ServerVersion) : EndpointVerdict :=
  ((t.verdictOf addressed v.id).orElse fun _ => t.verdictOf v.repositoryId v.id).getD unjudged

/-- The counts the addressed repository reads: its own row, or what the version carries. -/
def shownCounts (v : ServerVersion) : Int × Int :=
  match t.countOf addressed v.id with
  | some row => (row.high, row.medium)
  | none => (v.findingsHigh, v.findingsMedium)

/-- `SELECT` and `JOINS`: a version as the addressed repository reads it. -/
def catalogRow (v : ServerVersion) : CatalogRow :=
  let verdict := t.shownVerdict addressed v
  let counts := t.shownCounts addressed v
  { versionId := v.id
    member := v.repositoryId
    name := v.name
    version := v.version
    status := v.status
    findingsHigh := counts.1
    findingsMedium := counts.2
    surfaceEndpoints := verdict.surfaceEndpoints
    approvedEndpoints := verdict.approvedEndpoints
    worstDrift := verdict.worstDrift
    driftedRemote := verdict.driftedRemote
    decision := (t.decisionOf addressed v).orElse fun _ => t.decisionOf v.repositoryId v }

@[simp] theorem catalogRow_name (v : ServerVersion) : (t.catalogRow addressed v).name = v.name := rfl

@[simp] theorem catalogRow_version (v : ServerVersion) :
    (t.catalogRow addressed v).version = v.version := rfl

@[simp] theorem catalogRow_status (v : ServerVersion) :
    (t.catalogRow addressed v).status = v.status := rfl

@[simp] theorem catalogRow_verdict (v : ServerVersion) :
    (t.catalogRow addressed v).verdict = t.shownVerdict addressed v := rfl

end Tables

end OpenCargo.Mcp
