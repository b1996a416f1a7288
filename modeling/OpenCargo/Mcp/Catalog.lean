/-
Module: OpenCargo.Mcp.Catalog
Purpose: The catalogue of an MCP repository (`registry/mcp/catalog.rs`) over the reads of the store
  (`adapters/sqlite/mcp_read.rs`): the page of one member and the rows its query leaves out, the pages of
  all members merged into one with its cursor, and the read of one version.
Trusted boundary: `DateTime::parse_from_rfc3339` is a parameter of the request
Main exports: readMember, merge, listServers, resolveVersion
-/
import OpenCargo.Lib.Paging
import OpenCargo.Mcp.Tables

namespace OpenCargo.Mcp

open OpenCargo.Access (isControl)
open OpenCargo.Governance (AllowRule Effect EndpointVerdict)
open OpenCargo.Keys (byteLength)
open OpenCargo.Maven (isWhitespace splitOnce)

/-! ### Rules as a predicate on rows -/

/-- `governance::validate_pattern`: one trailing `*`, after a boundary, or none. -/
def validatePattern (pattern : Text) : Except DomainError Unit :=
  let refuse :=
    DomainError.invalidName ("invalid allow rule pattern: '".toList ++ pattern ++ "'".toList)
  if pattern.isEmpty || decide (byteLength pattern > 256) ||
      pattern.any (fun c => isWhitespace c || isControl c) then .error refuse
  else if pattern.getLast? = some '*' then
    let stem := pattern.dropLast
    if stem.contains '*' then .error refuse
    else if stem.getLast? ≠ some '/' ∧ stem.getLast? ≠ some '.' then .error refuse
    else .ok ()
  else if pattern.contains '*' then .error refuse
  else .ok ()

/-- A ruleset as a predicate: the rows it can possibly admit. -/
structure NameFilter where
  rules : List AllowRule
deriving Repr, DecidableEq, Inhabited

namespace NameFilter

variable (filter : NameFilter)

def allows : List AllowRule := filter.rules.filter (·.effect == .allow)

/-- The deny rules no longer allow rule can reopen inside: subtracting any other would remove a row the
gate admits. -/
def subtractableDenies : List AllowRule :=
  filter.rules.filter fun deny =>
    deny.effect == .deny &&
      !filter.allows.any fun allow =>
        decide (byteLength allow.pattern > byteLength deny.pattern) &&
          deny.stem.any fun stem => stem.isPrefixOf allow.pattern

end NameFilter

/-- The prefix with its last byte incremented; a stem that is accepted ends in a byte of one
character. -/
def upperBound (stem : Text) : Text :=
  match stem.getLast? with
  | some last => stem.dropLast ++ [Char.ofNat (last.toNat + 1)]
  | none => []

/-- `push_rule`: `name` in the half-open range a `*` rule covers, or equal to an exact rule. -/
def pushRule (rule : AllowRule) (name : Text) : Bool :=
  match rule.stem with
  | some stem => decide (stem ≤ name) && decide (name < upperBound stem)
  | none => name == rule.pattern

/-- `push_filter`. -/
def pushFilter (filter : NameFilter) (name : Text) : Bool :=
  (filter.allows.isEmpty || filter.allows.any (pushRule · name)) &&
    filter.subtractableDenies.all fun deny => !pushRule deny name

/-! ### A page of one member -/

/-- What orders the catalogue: the name, then the version. -/
abbrev Key := Text ×ₗ Text

def ServerVersion.key (v : ServerVersion) : Key := toLex (v.name, v.version)

def CatalogRow.key (row : CatalogRow) : Key := toLex (row.name, row.version)

/-- What one member's page reads, in `(name, version)` order. -/
structure PageQuery where
  member : Int
  addressed : Int
  after : Option Key
  limit : Int
  includeDeleted : Bool
  search : Option Text
  updatedSince : Option Instant
  latestOnly : Bool
  version : Option Text
  /-- Every ruleset in force as a removal: the addressed repository's under `Hide`, and the member's
  floor. -/
  filters : List NameFilter
  /-- Under `Hide`: only versions whose verdict is approved and unmoved. -/
  requireApproved : Bool
deriving DecidableEq, Inhabited

namespace PageQuery

variable (q : PageQuery)

/-- What the request itself asks of a row. -/
def asks (v : ServerVersion) : Bool :=
  (q.includeDeleted || v.status != .deleted) &&
    q.search.all (fun search => decide (search <:+: v.name)) &&
    q.updatedSince.all (fun since => decide (bindTs since ≤ v.rowChangedAt)) &&
    (!q.latestOnly || v.isLatest) && q.version.all (v.version == ·)

end PageQuery

/-- The verdict clause of `require_approved`. -/
def Tables.approvedIn (t : Tables) (addressed : Int) (v : ServerVersion) : Bool :=
  match t.verdictOf addressed v.id with
  | some verdict => verdict.approved
  | none => (t.verdictOf v.repositoryId v.id).any EndpointVerdict.approved

/-- What the gates leave of the rows before any is judged. -/
def Tables.prefilter (t : Tables) (q : PageQuery) (v : ServerVersion) : Bool :=
  q.filters.all (pushFilter · v.name) && (!q.requireApproved || t.approvedIn q.addressed v)

/-- The rows a member's query selects, wherever it starts, in order. -/
def Tables.selected (t : Tables) (q : PageQuery) : List CatalogRow :=
  ((t.versions.filter fun v =>
      v.repositoryId == q.member && q.asks v && t.prefilter q v).insertionSort
    fun a b => a.key ≤ b.key).map (t.catalogRow q.addressed)

/-- `page`. -/
def Tables.page (t : Tables) (q : PageQuery) : List CatalogRow :=
  ((t.selected q).filter fun row => Lib.above q.after row.key).take q.limit.toNat

/-- `version`: the row of one name, the latest when no version is given. -/
def Tables.version (t : Tables) (member addressed : Int) (name : Text) (version : Option Text) :
    Option CatalogRow :=
  let rows := t.versions.filter fun v =>
    v.repositoryId == member && v.name == name &&
      match version with
      | none => v.isLatest
      | some version => v.version == version
  ((rows.filter (·.isLatest) ++ rows.filter (!·.isLatest)).head?).map (t.catalogRow addressed)

/-! ### The gates as a query -/

namespace Gates

variable (gates : Gates)

/-- Every ruleset in force as a removal for rows of `member`. -/
def filters (member : Int) : List NameFilter :=
  (if gates.addressed.mode = .hide ∧ gates.addressed.rules ≠ [] then [⟨gates.addressed.rules⟩]
    else []) ++
    ((gates.floors member).map fun floor => floor.fragments.map fun f => NameFilter.mk f.2).getD []

def requireApproved : Bool := gates.addressed.mode == .hide

end Gates

/-! ### The request -/

def defaultLimit : Int := 30

def maxLimit : Int := 100

def batch : Nat := 100

def maxBatches : Nat := 20

def maxSearchBatches : Nat := 2

/-- The query of a listing. -/
structure Params where
  includeDeleted : Option Text
  limit : Option Text
  cursor : Option Text
  search : Option Text
  updatedSince : Option Text
  version : Option Text
deriving Repr, DecidableEq, Inhabited

/-- `str::parse::<i64>`. -/
def parseI64 (raw : Text) : Option Int :=
  let (sign, digits) :=
    match raw with
    | '-' :: rest => (-1, rest)
    | '+' :: rest => (1, rest)
    | rest => ((1 : Int), rest)
  if digits.isEmpty || !digits.all Char.isDigit then none
  else
    let n : Int := sign * (digits.foldl (fun n c => n * 10 + (c.toNat - 48)) 0 : Nat)
    if -(2 ^ 63) ≤ n ∧ n < 2 ^ 63 then some n else none

namespace Params

variable (params : Params)

def deleted : Bool :=
  match params.includeDeleted with
  | some raw => raw == "true".toList || raw == "1".toList
  | none => params.updatedSince.isSome

/-- `limit_of`; `n.clamp(1, MAX_LIMIT)`. -/
def limitOf : Except AppError Int :=
  match params.limit with
  | none => .ok defaultLimit
  | some raw =>
      match parseI64 raw with
      | some n => .ok (max 1 (min n maxLimit))
      | none => .error (.badRequest ("invalid limit: ".toList ++ raw))

/-- `cursor_of`. -/
def cursorOf : Except AppError (Option Key) :=
  match params.cursor with
  | none => .ok none
  | some raw =>
      if raw.isEmpty then .ok none
      else
        match splitOnce raw ':' with
        | some (name, version) => .ok (some (toLex (name, version)))
        | none => .error (.badRequest ("invalid cursor: ".toList ++ raw))

/-- `since_of`. -/
def sinceOf (rfc3339 : Text → Option Instant) : Except AppError (Option Instant) :=
  match params.updatedSince with
  | none => .ok none
  | some raw =>
      match rfc3339 raw with
      | some since => .ok (some since)
      | none => .error (.badRequest ("invalid updated_since: ".toList ++ raw))

/-- The query all members of a listing share. -/
def base (rfc3339 : Text → Option Instant) (addressed : Int) : Except AppError PageQuery := do
  let after ← params.cursorOf
  let limit ← params.limitOf
  let since ← params.sinceOf rfc3339
  pure
    { member := 0
      addressed := addressed
      after := after
      limit := limit
      includeDeleted := params.deleted
      search := params.search.filter (!·.isEmpty)
      updatedSince := since
      latestOnly := params.version == some "latest".toList
      version := params.version.filter (· != "latest".toList)
      filters := []
      requireApproved := false }

end Params

/-! ### The pages of the members -/

/-- The members a read walks, in group order, and the gate over them. -/
structure Scope where
  members : List Repository
  gates : Gates

/-- The rules of each repository as its admin and its configuration stored them: each pattern was
accepted. -/
structure StoredRules extends McpReads where
  accepted : ∀ {id rules}, allowRules id = .ok rules →
    ∀ rule ∈ rules, validatePattern rule.pattern = .ok ()

/-- `scope`: the walk's members for this caller, and the gates; it refuses with what either read refuses
with. -/
def scope (cx : Resolve.Cx) (mcp : StoredRules) (settings : Settings) (repo : Repository) :
    Except (ResolveError ⊕ AppError) Scope := do
  let members ← (Resolve.view cx repo (.enumeration none)).mapError .inl
  let gates ← (Gates.load mcp.toMcpReads settings cx.repos repo).mapError .inr
  pure ⟨members, gates⟩

structure MemberPage where
  order : Nat
  survivors : List (CatalogRow × Governance.Visibility)
  frontier : Option Key
  exhausted : Bool

section Pages

variable (t : Tables) (gates : Gates) (member : Int)

/-- The query of one member of a listing. -/
def memberQuery (base : PageQuery) : PageQuery :=
  { base with
    member := member
    limit := batch
    filters := gates.filters member
    requireApproved := gates.requireApproved }

/-- One row of a batch: it moves the frontier, and stays if the gate serves it. -/
def MemberPage.visit (includeDeleted : Bool) (page : MemberPage) (row : CatalogRow) : MemberPage :=
  let visibility := gates.decide member row includeDeleted
  { page with
    frontier := some row.key
    survivors :=
      if visibility.served then page.survivors ++ [(row, visibility)] else page.survivors }

/-- The loop over the batches of one member. -/
def readBatches (limit : Int) : Nat → PageQuery → MemberPage → MemberPage
  | 0, _, page => page
  | left + 1, query, page =>
      let rows := t.page query
      let page := rows.foldl (MemberPage.visit gates member query.includeDeleted) page
      if rows.length < batch then { page with exhausted := true }
      else if page.survivors.length ≥ limit then page
      else readBatches limit left { query with after := page.frontier } page

/-- Read one member forward from the cursor until `limit` rows survive the gate or the member runs out,
reporting how far it read. -/
def readMember (base : PageQuery) (order : Nat) : MemberPage :=
  let cap := if base.search.isSome then maxSearchBatches else maxBatches
  readBatches t gates member base.limit cap (memberQuery gates member base)
    { order := order, survivors := [], frontier := none, exhausted := false }

end Pages

/-! ### The merged page -/

/-- A surviving row, with the place of its member in the walk. -/
structure Entry where
  order : Nat
  row : CatalogRow
  visibility : Governance.Visibility
deriving Repr, DecidableEq, Inhabited

def Entry.key (e : Entry) : Key := e.row.key

def MemberPage.entries (page : MemberPage) : List Entry :=
  page.survivors.map fun s => ⟨page.order, s.1, s.2⟩

/-- `format!("{name}:{version}")`. -/
def cursorText (key : Key) : Text := (ofLex key).1 ++ ':' :: (ofLex key).2

/-- The least frontier of the members that stopped early. -/
def frontierOf (pages : List MemberPage) : Option Key :=
  ((pages.filter (!·.exhausted)).filterMap (·.frontier)).min?

/-- Merged in `(name, version)` order, the first member winning a duplicate. A row past the frontier of a
member that stopped early is dropped, since that member may still hold rows before it; the cursor is the
last row emitted, and is present unless nothing was left unread. -/
def merge (pages : List MemberPage) (limit : Int) :
    List (CatalogRow × Governance.Visibility) × Option Text :=
  let frontier := frontierOf pages
  let sorted := (pages.flatMap MemberPage.entries).insertionSort
    fun a b => toLex (a.key, a.order) ≤ toLex (b.key, b.order)
  let distinct := sorted.destutter fun a b => a.key ≠ b.key
  let within := distinct.filter fun e => frontier.all (decide <| e.key ≤ ·)
  let rows := if within.length > limit then within.take limit.toNat else within
  let dropped := decide (within.length < distinct.length) || decide (within.length > limit)
  let cursor :=
    match rows.getLast? with
    | some e => some (cursorText e.key)
    | none => frontier.map cursorText
  (rows.map fun e => (e.row, e.visibility),
    if pages.all (·.exhausted) && !dropped then none else cursor)

/-- `list_servers`: the rows of a page and its `nextCursor`. -/
def listServers (t : Tables) (scope : Scope) (addressed : Int) (rfc3339 : Text → Option Instant)
    (params : Params) :
    Except AppError (List (CatalogRow × Governance.Visibility) × Option Text) := do
  let base ← params.base rfc3339 addressed
  let pages := scope.members.zipIdx.map fun (member, order) =>
    readMember t scope.gates member.id base order
  pure (merge pages base.limit)

/-- The first member serving the version, and its gate. -/
def resolveVersion (t : Tables) (scope : Scope) (addressed : Int) (server version : Text)
    (includeDeleted : Bool) : Except AppError (Repository × CatalogRow × Governance.Visibility) :=
  let wanted := if version = "latest".toList then none else some version
  let served := scope.members.findSome? fun member =>
    (t.version member.id addressed server wanted).bind fun row =>
      let visibility := scope.gates.decide member.id row includeDeleted
      if visibility.served then some (member, row, visibility) else none
  match served with
  | some found => .ok found
  | none =>
      .error (.notFound ("server not found: ".toList ++ server ++ '@' :: version))

end OpenCargo.Mcp
