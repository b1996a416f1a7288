/-
Module: OpenCargo.Mcp.Listing
Purpose: What a full pass over the catalogue yields and what a read of one version finds, each against
  the gate: the pass yields the first row of each key that some member's gate serves, and the two agree,
  but for the rows the query of a page leaves out although the gate would serve them.
Trusted boundary: none
Main exports: ExactListing, catalogue_paging_exact_iff, Serves, list_agrees_with_read_iff
-/
import OpenCargo.Mcp.Pages
import OpenCargo.Mcp.Prefilter

namespace OpenCargo.Mcp

open OpenCargo.Governance (AllowRule)
open OpenCargo.Lib

/-! ### What survives -/

section Survivors

variable (t : Tables) (sc : Scope) (base : PageQuery)

/-- The member at a place of the walk has a row that the request asks for and the gate serves. -/
structure Survives (place : Nat) (member : Repository) (row : CatalogRow) : Prop where
  walked : sc.members[place]? = some member
  held : ∃ v ∈ t.versions, v.repositoryId = member.id ∧ base.asks v = true ∧
    t.catalogRow base.addressed v = row
  served : (sc.gates.decide member.id row base.includeDeleted).served = true

/-- And no member before it has one of the same name and version. -/
structure FirstSurvivor (place : Nat) (member : Repository) (row : CatalogRow) : Prop where
  survives : Survives t sc base place member row
  first : ∀ {other stored found}, Survives t sc base other stored found → found.key = row.key →
    place ≤ other

/-- Every name and version some member's row survives for, once, in increasing order, with the row of
the first member whose row survives. -/
structure ExactListing (rows : List (CatalogRow × Governance.Visibility)) : Prop where
  ascending : rows.Pairwise fun a b => a.1.key < b.1.key
  firsts : ∀ row visibility, (row, visibility) ∈ rows ↔
    ∃ place member, FirstSurvivor t sc base place member row ∧
      visibility = sc.gates.decide member.id row base.includeDeleted

variable {t sc base}

theorem mem_allEntries {e : Entry} :
    e ∈ allEntries t sc base ↔
      ∃ member, sc.members[e.order]? = some member ∧
        e.visibility = sc.gates.decide member.id e.row base.includeDeleted ∧
        e.visibility.served = true ∧
        ∃ v ∈ t.versions, v.repositoryId = member.id ∧ base.asks v = true ∧
          t.prefilter (memberQuery sc.gates member.id base) v = true ∧
          t.catalogRow base.addressed v = e.row := by
  simp only [allEntries, List.mem_flatMap, entriesAt, List.mem_map]
  constructor
  · rintro ⟨⟨member, place⟩, walked, ⟨row, visibility⟩, among, rfl⟩
    obtain ⟨held, judged, served⟩ := mem_judged.mp among
    obtain ⟨v, there, own, asked, kept, same⟩ := mem_selected.mp held
    exact ⟨member, List.mem_zipIdx_iff_getElem?.mp walked, judged, served, v, there, own, asked, kept,
      same⟩
  · rintro ⟨member, walked, judged, served, v, there, own, asked, kept, same⟩
    refine ⟨(member, e.order), List.mem_zipIdx_iff_getElem?.mpr walked, (e.row, e.visibility),
      mem_judged.mpr ⟨?_, judged, served⟩, rfl⟩
    exact mem_selected.mpr ⟨v, there, own, asked, kept, same⟩

theorem mem_allEntries_iff (accepted : sc.gates.Accepted) {e : Entry} :
    e ∈ allEntries t sc base ↔
      ∃ member, Survives t sc base e.order member e.row ∧ sc.gates.Spares member.id e.row ∧
        e.visibility = sc.gates.decide member.id e.row base.includeDeleted := by
  rw [mem_allEntries]
  constructor
  · rintro ⟨member, walked, judged, served, v, there, own, asked, kept, same⟩
    rw [judged, ← same] at served
    refine ⟨member, ⟨walked, ⟨v, there, own, asked, same⟩, same ▸ served⟩, ?_, judged⟩
    exact same ▸ (prefilter_iff_spares accepted served).mp kept
  · rintro ⟨member, ⟨walked, ⟨v, there, own, asked, same⟩, served⟩, spares, judged⟩
    refine ⟨member, walked, judged, judged ▸ served, v, there, own, asked, ?_, same⟩
    rw [← same] at served spares
    exact (prefilter_iff_spares accepted served).mpr spares

theorem Survives.unique (sound : t.Sound) {place other : Nat} {member stored : Repository}
    {row found : CatalogRow} (one : Survives t sc base place member row)
    (two : Survives t sc base other stored found) (same : member.id = stored.id)
    (key : row.key = found.key) : row = found := by
  obtain ⟨v, there, own, _, rfl⟩ := one.held
  obtain ⟨w, here, mine, _, rfl⟩ := two.held
  have names : v.name = w.name ∧ v.version = w.version := by
    simpa [CatalogRow.key] using key
  have equal : v = w := by
    refine List.inj_on_of_nodup_map sound.slots there here ?_
    simp [ServerVersion.slot, names.1, names.2, own, mine, same]
  rw [equal]

theorem exists_first {P : Nat → Repository → CatalogRow → Prop} {place : Nat} {member : Repository}
    {row : CatalogRow} (held : P place member row) :
    ∃ first stored found, P first stored found ∧ found.key = row.key ∧ first ≤ place ∧
      ∀ {other stored found}, P other stored found → found.key = row.key → first ≤ other := by
  classical
  have some : ∃ n, ∃ stored found, P n stored found ∧ found.key = row.key :=
    ⟨place, member, row, held, rfl⟩
  obtain ⟨stored, found, there, key⟩ := Nat.find_spec some
  exact ⟨Nat.find some, stored, found, there, key, Nat.find_min' some ⟨member, row, held, rfl⟩,
    fun {_ _ _} later same => Nat.find_min' some ⟨_, _, later, same⟩⟩

end Survivors

/-! ### The pass -/

theorem scope_accepted {cx : Resolve.Cx} {mcp : StoredRules} {settings : Settings} {repo : Repository}
    {sc : Scope} (opened : scope cx mcp settings repo = .ok sc) : sc.gates.Accepted := by
  rw [scope] at opened
  obtain ⟨members, _, opened⟩ := Lib.bind_eq_ok.mp opened
  obtain ⟨gates, loaded, done⟩ := Lib.bind_eq_ok.mp opened
  cases done
  cases read : Gates.load mcp.toMcpReads settings cx.repos repo with
  | error err =>
      rw [read] at loaded
      cases loaded
  | ok gates =>
      rw [read] at loaded
      cases loaded
      exact Gates.load_accepted read

theorem mem_firsts_allEntries {t : Tables} {sc : Scope} {base : PageQuery} (sound : t.Sound)
    (accepted : sc.gates.Accepted) {row : CatalogRow} {visibility : Governance.Visibility} :
    (row, visibility) ∈
        (firsts (allEntries t sc base)).map (fun e => (e.row, e.visibility)) ↔
      ∃ place member, Survives t sc base place member row ∧ sc.gates.Spares member.id row ∧
        visibility = sc.gates.decide member.id row base.includeDeleted ∧
        ∀ {other stored found}, Survives t sc base other stored found →
          sc.gates.Spares stored.id found → found.key = row.key → place ≤ other := by
  simp only [List.mem_map, mem_firsts (allEntries_distinct sound), Prod.mk.injEq,
    mem_allEntries_iff accepted]
  constructor
  · rintro ⟨⟨place, row, visibility⟩, ⟨⟨member, survives, spares, judged⟩, least⟩, rfl, rfl⟩
    refine ⟨place, member, survives, spares, judged, fun {other stored found} later spared same => ?_⟩
    exact least ⟨other, found, sc.gates.decide stored.id found base.includeDeleted⟩
      ⟨stored, later, spared, rfl⟩ same
  · rintro ⟨place, member, survives, spares, judged, least⟩
    refine ⟨⟨place, row, visibility⟩, ⟨⟨member, survives, spares, judged⟩, ?_⟩, rfl, rfl⟩
    rintro ⟨other, found, _⟩ ⟨stored, later, spared, _⟩ same
    exact least later spared same

/-- A full pass over the catalogue ends whatever the limit, and yields exactly the first survivor of each
name and version, in order, when and only when the query of a page spares each of them. -/
theorem catalogue_paging_exact_iff (cx : Resolve.Cx) (mcp : StoredRules) (settings : Settings)
    (repo : Repository) (sc : Scope) (opened : scope cx mcp settings repo = .ok sc) (t : Tables)
    (sound : t.Sound) (rfc3339 : Text → Option Instant) (params : Params) (base : PageQuery)
    (asked : Params.base { params with cursor := none } rfc3339 repo.id = .ok base) :
    ∃ rows,
      Follows (fun cursor => listServers t sc repo.id rfc3339 { params with cursor := cursor })
        none rows ∧
      (ExactListing t sc base rows ↔
        ∀ place member row, FirstSurvivor t sc base place member row →
          sc.gates.Spares member.id row) := by
  have accepted := scope_accepted opened
  refine ⟨_, listServers_follows sound asked, ?_, ?_⟩
  · intro listing place member row first
    have listed := (listing.firsts row _).mpr ⟨place, member, first, rfl⟩
    obtain ⟨other, stored, survives, spares, _⟩ := (mem_firsts_allEntries sound accepted).mp listed
    -- both members hold the one version the row is of
    have same : stored.id = member.id := by
      obtain ⟨v, _, own, _, read⟩ := survives.held
      obtain ⟨w, _, mine, _, again⟩ := first.survives.held
      have one : row.member = v.repositoryId := by rw [← read]; rfl
      have two : row.member = w.repositoryId := by rw [← again]; rfl
      rw [← own, ← mine, ← one, ← two]
    exact same ▸ spares
  · intro spared
    refine ⟨List.pairwise_map.mpr (ascending_firsts (allEntries_distinct sound)), fun row visibility => ?_⟩
    rw [mem_firsts_allEntries sound accepted]
    constructor
    · rintro ⟨place, member, survives, spares, judged, least⟩
      obtain ⟨first, stored, found, there, key, before, earliest⟩ := exists_first survives
      have held : FirstSurvivor t sc base first stored found :=
        ⟨there, fun {_ _ _} later same => earliest later (same.trans key)⟩
      have after := least there (spared _ _ _ held) key
      have here : first = place := le_antisymm before after
      subst here
      have whose : stored = member := by
        have walked := held.survives.walked
        rw [survives.walked] at walked
        cases walked
        rfl
      subst whose
      have row_eq : found = row := held.survives.unique sound survives rfl key
      subst row_eq
      exact ⟨first, stored, held, judged⟩
    · rintro ⟨place, member, first, judged⟩
      exact ⟨place, member, first.survives, spared _ _ _ first, judged,
        fun {_ _ _} later _ same => first.first later same⟩

/-! ### The read -/

/-- The query of a listing that nothing narrows but the deleted rows. -/
def plainListing (includeDeleted limit : Option Text) : Params where
  includeDeleted := includeDeleted
  limit := limit
  cursor := none
  search := none
  updatedSince := none
  version := none

section Read

variable (t : Tables) (sc : Scope) (addressed : Int) (includeDeleted : Bool) (name version : Text)

/-- A member of the walk has a row of this name and version that the gate serves. -/
structure Serves (member : Repository) (row : CatalogRow) : Prop where
  walked : member ∈ sc.members
  held : t.version member.id addressed name (some version) = some row
  served : (sc.gates.decide member.id row includeDeleted).served = true

variable {t sc addressed includeDeleted name version}

theorem resolveVersion_ok_iff (pinned : version ≠ "latest".toList) :
    (∃ found, resolveVersion t sc addressed name version includeDeleted = .ok found) ↔
      ∃ member row, Serves t sc addressed includeDeleted name version member row := by
  have first : (∃ found, resolveVersion t sc addressed name version includeDeleted = .ok found) ↔
      ((sc.members.findSome? fun member =>
        (t.version member.id addressed name (some version)).bind fun row =>
          if (sc.gates.decide member.id row includeDeleted).served then
            some (member, row, sc.gates.decide member.id row includeDeleted)
          else none) : Option (Repository × CatalogRow × Governance.Visibility)).isSome = true := by
    simp only [resolveVersion, if_neg pinned]
    split
    · rename_i found same
      simp [same]
    · rename_i none
      simp [none]
  rw [first, List.findSome?_isSome_iff]
  constructor
  · rintro ⟨member, mem, some⟩
    obtain ⟨answer, some⟩ := Option.isSome_iff_exists.mp some
    obtain ⟨row, held, served⟩ := Option.bind_eq_some_iff.mp some
    split at served
    case isTrue yes => exact ⟨member, row, mem, held, yes⟩
    case isFalse => cases served
  · rintro ⟨member, row, mem, held, served⟩
    refine ⟨member, mem, ?_⟩
    simp [held, served]

theorem version_eq_some_iff (sound : t.Sound) {member : Int} {row : CatalogRow} :
    t.version member addressed name (some version) = some row ↔
      ∃ v ∈ t.versions, v.repositoryId = member ∧ v.name = name ∧ v.version = version ∧
        t.catalogRow addressed v = row := by
  have among : ∀ v, v ∈ (t.versions.filter fun v =>
      v.repositoryId == member && v.name == name && v.version == version) ↔
      v ∈ t.versions ∧ v.repositoryId = member ∧ v.name = name ∧ v.version = version := by
    intro v
    simp only [List.mem_filter, Bool.and_eq_true, beq_iff_eq, and_assoc]
  simp only [Tables.version, Option.map_eq_some_iff]
  constructor
  · rintro ⟨v, first, same⟩
    have mem := List.mem_of_head? first
    have held : v ∈ (t.versions.filter fun v =>
        v.repositoryId == member && v.name == name && v.version == version) := by
      rcases List.mem_append.mp mem with mem | mem <;> exact List.mem_of_mem_filter mem
    obtain ⟨there, own, named, versioned⟩ := (among v).mp held
    exact ⟨v, there, own, named, versioned, same⟩
  · rintro ⟨v, there, own, named, versioned, same⟩
    refine ⟨v, ?_, same⟩
    have only : ∀ w ∈ (t.versions.filter fun v =>
        v.repositoryId == member && v.name == name && v.version == version), w = v := by
      intro w mem
      obtain ⟨here, mine, called, numbered⟩ := (among w).mp mem
      refine List.inj_on_of_nodup_map sound.slots here there ?_
      simp [ServerVersion.slot, own, named, versioned, mine, called, numbered]
    have held := (among v).mpr ⟨there, own, named, versioned⟩
    generalize (t.versions.filter fun v =>
      v.repositoryId == member && v.name == name && v.version == version) = rows at only held
    have some : v ∈ rows.filter (·.isLatest) ++ rows.filter (!·.isLatest) := by
      cases latest : v.isLatest <;> simp [held, latest]
    cases order : rows.filter (·.isLatest) ++ rows.filter (!·.isLatest) with
    | nil => simp [order] at some
    | cons w rest =>
        have mem : w ∈ rows.filter (·.isLatest) ++ rows.filter (!·.isLatest) := by simp [order]
        have same_row : w ∈ rows := by
          rcases List.mem_append.mp mem with mem | mem <;> exact List.mem_of_mem_filter mem
        rw [List.head?_cons, only w same_row]

/-- In a listing nothing narrows, what survives of a name and version is what a read of it is served. -/
theorem survives_iff_serves (sound : t.Sound) {base : PageQuery} {limit deleted : Option Text}
    {rfc3339 : Text → Option Instant}
    (asked : (plainListing deleted limit).base rfc3339 addressed = .ok base) {member : Repository}
    {row : CatalogRow} :
    ((∃ place, Survives t sc base place member row) ∧ row.name = name ∧ row.version = version) ↔
      Serves t sc addressed (plainListing deleted limit).deleted name version member row := by
  obtain ⟨_, _, asked⟩ := Lib.bind_eq_ok.mp asked
  obtain ⟨limit, _, asked⟩ := Lib.bind_eq_ok.mp asked
  obtain ⟨since, timed, done⟩ := Lib.bind_eq_ok.mp asked
  cases done
  have never : since = none := by
    cases timed
    rfl
  subst never
  constructor
  · rintro ⟨⟨place, walked, ⟨v, there, own, _, rfl⟩, served⟩, named, versioned⟩
    exact ⟨List.mem_of_getElem? walked,
      (version_eq_some_iff sound).mpr ⟨v, there, own, named, versioned, rfl⟩, served⟩
  · rintro ⟨walked, held, served⟩
    obtain ⟨v, there, own, named, versioned, rfl⟩ := (version_eq_some_iff sound).mp held
    obtain ⟨place, walked⟩ := List.mem_iff_getElem?.mp walked
    refine ⟨⟨place, walked, ⟨v, there, own, ?_, rfl⟩, served⟩, named, versioned⟩
    have ⟨shown, _⟩ := Gates.served_iff.mp served
    cases gone : v.status <;> simp_all [PageQuery.asks, plainListing]

end Read

/-- A full pass that nothing narrows lists a name and version exactly when a read of it finds a served
row, when and only when of the rows served for it the query of a page spares one; and of the rows the
gates serve, that query keeps the spared ones. -/
theorem list_agrees_with_read_iff (cx : Resolve.Cx) (mcp : StoredRules) (settings : Settings)
    (repo : Repository) (sc : Scope) (opened : scope cx mcp settings repo = .ok sc) (t : Tables)
    (sound : t.Sound) (rfc3339 : Text → Option Instant) (deleted limit : Option Text)
    (base : PageQuery) (asked : (plainListing deleted limit).base rfc3339 repo.id = .ok base) :
    (∀ member ∈ sc.members, ∀ v ∈ t.versions, v.repositoryId = member.id →
      (sc.gates.decide member.id (t.catalogRow repo.id v) base.includeDeleted).served = true →
        (t.prefilter (memberQuery sc.gates member.id base) v = true ↔
          sc.gates.Spares member.id (t.catalogRow repo.id v))) ∧
    ∃ rows,
      Follows (fun cursor => listServers t sc repo.id rfc3339
        { plainListing deleted limit with cursor := cursor }) none rows ∧
      ∀ name version, version ≠ "latest".toList →
        (((∃ entry ∈ rows, entry.1.name = name ∧ entry.1.version = version) ↔
            ∃ found, resolveVersion t sc repo.id name version
              (plainListing deleted limit).deleted = .ok found) ↔
          ∀ member row,
            Serves t sc repo.id (plainListing deleted limit).deleted name version member row →
            ∃ stored found,
              Serves t sc repo.id (plainListing deleted limit).deleted name version stored found ∧
                sc.gates.Spares stored.id found) := by
  have accepted := scope_accepted opened
  have addressed : base.addressed = repo.id := by
    obtain ⟨_, _, asked⟩ := Lib.bind_eq_ok.mp asked
    obtain ⟨_, _, asked⟩ := Lib.bind_eq_ok.mp asked
    obtain ⟨_, _, done⟩ := Lib.bind_eq_ok.mp asked
    cases done
    rfl
  refine ⟨fun member _ v _ _ served => ?_, _, listServers_follows sound asked, fun name version pinned => ?_⟩
  · rw [← addressed] at served ⊢
    exact prefilter_iff_spares accepted served
  · have listed : (∃ entry ∈ (firsts (allEntries t sc base)).map (fun e => (e.row, e.visibility)),
        entry.1.name = name ∧ entry.1.version = version) ↔
        ∃ member row,
          Serves t sc repo.id (plainListing deleted limit).deleted name version member row ∧
            sc.gates.Spares member.id row := by
      constructor
      · rintro ⟨⟨row, visibility⟩, mem, named⟩
        obtain ⟨place, member, survives, spares, _⟩ := (mem_firsts_allEntries sound accepted).mp mem
        exact ⟨member, row, (survives_iff_serves sound asked).mp ⟨⟨place, survives⟩, named⟩, spares⟩
      · rintro ⟨member, row, serves, spares⟩
        obtain ⟨⟨place, survives⟩, named, versioned⟩ := (survives_iff_serves sound asked).mpr serves
        obtain ⟨first, stored, found, ⟨there, kept⟩, key, _, earliest⟩ :=
          exists_first (P := fun place member row =>
            Survives t sc base place member row ∧ sc.gates.Spares member.id row) ⟨survives, spares⟩
        have same : found.name = row.name ∧ found.version = row.version := by
          simpa [CatalogRow.key] using key
        refine ⟨(found, sc.gates.decide stored.id found base.includeDeleted), ?_,
          same.1.trans named, same.2.trans versioned⟩
        exact (mem_firsts_allEntries sound accepted).mpr ⟨first, stored, there, kept, rfl,
          fun {_ _ _} later spared equal => earliest ⟨later, spared⟩ (equal.trans key)⟩
    rw [listed, resolveVersion_ok_iff pinned]
    constructor
    · intro agree member row serves
      exact agree.mpr ⟨member, row, serves⟩
    · intro spared
      constructor
      · rintro ⟨member, row, serves, _⟩
        exact ⟨member, row, serves⟩
      · rintro ⟨member, row, serves⟩
        exact spared member row serves

/-! ### One hosted repository -/

def servers : Repository := mcpRow 1 "servers".toList .hosted []

/-- An anonymous reader of the one repository there is. -/
def reader : Resolve.Cx where
  repos :=
    { byName := fun name => .ok (if name = servers.name then some servers else none)
      incarnation := fun _ => .ok none }
  rights := fun _ _ => .ok none
  auth := none
  anonymousRead := true
  routing := { set := Routing.RouteSet.default, stale := false }
  url := servers.name

/-- Its only version, of this name, with an endpoint that is approved or is not. -/
def oneServer (name : Text) (status : Status) (approved : Int) : Tables :=
  { Tables.empty with
    versions :=
      [{ id := 1, repositoryId := servers.id, name := name, version := "1".toList, hosted := true,
         responseJson := [], status := status, isLatest := true, remoteUrls := [], rowChangedAt := 0,
         permissionsSha256 := "p".toList, currentSurfaceId := none, findingsHigh := 0,
         findingsMedium := 0 }]
    verdicts :=
      [⟨servers.id, 1,
        { surfaceEndpoints := 1, approvedEndpoints := approved, worstDrift := .none,
          driftedRemote := none }⟩] }

/-- A rule denies the very name whose letters the other allows. -/
def shadowing : List AllowRule := [⟨"a/x.".toList, .deny⟩, ⟨"a/x.*".toList, .allow⟩]

def shadowRules : StoredRules where
  allowRules := fun _ => .ok shadowing
  accepted := by
    intro id rules read rule mem
    cases read
    revert rule
    decide

def noRules : StoredRules where
  allowRules := fun _ => .ok []
  accepted := by
    intro id rules read rule mem
    cases read
    cases mem

def allHide : Settings := fun _ => some .hide

/-- What `scope` answers for `servers`. -/
def serversScope (mode : Governance.GateMode) (rules : List AllowRule) : Scope where
  members := [servers]
  gates := { addressed := ⟨servers.name, mode, rules⟩, floors := fun _ => none }

def firstPage (includeDeleted : Bool) : PageQuery where
  member := 0
  addressed := servers.id
  after := none
  limit := 30
  includeDeleted := includeDeleted
  search := none
  updatedSince := none
  latestOnly := false
  version := none
  filters := []
  requireApproved := false

theorem oneServer_sound {name : Text} {status : Status} {approved : Int}
    (valid : validateName name = .ok ()) : (oneServer name status approved).Sound where
  slots := by simp [oneServer]
  named := by
    intro v mem
    cases List.mem_singleton.mp mem
    exact valid
  versioned := by
    intro v mem
    cases List.mem_singleton.mp mem
    rfl

/-- Where nothing hides, the pass over an unapproved server is exact. -/
theorem unapproved_server_is_listed_under_warn :
    ∃ rows,
      Follows (fun cursor => listServers (oneServer "a/b".toList .active 0) (serversScope .warn [])
        servers.id (fun _ => none) { plainListing none none with cursor := cursor }) none rows ∧
      ExactListing (oneServer "a/b".toList .active 0) (serversScope .warn []) (firstPage false) rows := by
  obtain ⟨rows, follows, exact_iff⟩ := catalogue_paging_exact_iff reader noRules (fun _ => none) servers
    (serversScope .warn []) (by rfl) (oneServer "a/b".toList .active 0) (oneServer_sound (by rfl))
    (fun _ => none) (plainListing none none) (firstPage false) (by rfl)
  refine ⟨rows, follows, exact_iff.mpr fun _ _ _ _ => ⟨?_, ?_, ?_⟩⟩
  · rintro _ ⟨⟩
  · rintro ⟨⟩
  · rintro ⟨⟩

/-- The one row of the repository. -/
def onlyRow (name : Text) (status : Status) (approved : Int) : CatalogRow where
  versionId := 1
  member := servers.id
  name := name
  version := "1".toList
  status := status
  findingsHigh := 0
  findingsMedium := 0
  surfaceEndpoints := 1
  approvedEndpoints := approved
  worstDrift := .none
  driftedRemote := none
  decision := none

/-- The longer rule allows `a/x.`, its server is approved, and the gate serves it under `Hide`; the first
page is empty and carries no cursor. -/
theorem shadowed_server_is_not_listed :
    scope reader shadowRules allHide servers = .ok (serversScope .hide shadowing) ∧
      (oneServer "a/x.".toList .active 1).Sound ∧
      Params.base (plainListing none none) (fun _ => none) servers.id = .ok (firstPage false) ∧
      Survives (oneServer "a/x.".toList .active 1) (serversScope .hide shadowing) (firstPage false) 0
        servers (onlyRow "a/x.".toList .active 1) ∧
      ¬∃ rows,
        Follows (fun cursor => listServers (oneServer "a/x.".toList .active 1)
          (serversScope .hide shadowing) servers.id (fun _ => none)
          { plainListing none none with cursor := cursor }) none rows ∧
        ExactListing (oneServer "a/x.".toList .active 1) (serversScope .hide shadowing)
          (firstPage false) rows := by
  have survives : Survives (oneServer "a/x.".toList .active 1) (serversScope .hide shadowing)
      (firstPage false) 0 servers (onlyRow "a/x.".toList .active 1) :=
    ⟨rfl, ⟨_, List.mem_singleton_self _, rfl, by decide, by rfl⟩, by decide +kernel⟩
  refine ⟨by rfl, oneServer_sound (by rfl), by rfl, survives, ?_⟩
  rintro ⟨rows, follows, exact_⟩
  have empty : Follows (fun cursor => listServers (oneServer "a/x.".toList .active 1)
      (serversScope .hide shadowing) servers.id (fun _ => none)
      { plainListing none none with cursor := cursor }) none [] :=
    .last (by rfl)
  have first : FirstSurvivor (oneServer "a/x.".toList .active 1) (serversScope .hide shadowing)
      (firstPage false) 0 servers (onlyRow "a/x.".toList .active 1) :=
    ⟨survives, fun _ _ => Nat.zero_le _⟩
  rw [follows.unique empty] at exact_
  have listed := (exact_.firsts _ _).mpr ⟨0, servers, first, rfl⟩
  cases listed

/-- A read of the unapproved server agrees with the pass where nothing hides. -/
theorem unapproved_server_is_read_and_listed :
    ∃ rows,
      Follows (fun cursor => listServers (oneServer "a/b".toList .active 0) (serversScope .warn [])
        servers.id (fun _ => none) { plainListing none none with cursor := cursor }) none rows ∧
      ((∃ entry ∈ rows, entry.1.name = "a/b".toList ∧ entry.1.version = "1".toList) ↔
        ∃ found, resolveVersion (oneServer "a/b".toList .active 0) (serversScope .warn []) servers.id
          "a/b".toList "1".toList false = .ok found) := by
  obtain ⟨_, rows, follows, agree_iff⟩ := list_agrees_with_read_iff reader noRules (fun _ => none) servers
    (serversScope .warn []) (by rfl) (oneServer "a/b".toList .active 0) (oneServer_sound (by rfl))
    (fun _ => none) none none (firstPage false) (by rfl)
  refine ⟨rows, follows, (agree_iff _ _ (by decide)).mpr fun member row serves =>
    ⟨member, row, serves, ?_, ?_, ?_⟩⟩
  · rintro _ ⟨⟩
  · rintro ⟨⟩
  · rintro ⟨⟩

/-- A deleted server nobody approved: with `include_deleted` a read under `Hide` answers it, flagged, and
the pass does not list it. -/
theorem deleted_server_is_read_and_not_listed :
    scope reader noRules allHide servers = .ok (serversScope .hide []) ∧
      (oneServer "a/b".toList .deleted 0).Sound ∧
      Params.base (plainListing (some "true".toList) none) (fun _ => none) servers.id =
        .ok (firstPage true) ∧
      resolveVersion (oneServer "a/b".toList .deleted 0) (serversScope .hide []) servers.id
        "a/b".toList "1".toList true =
          .ok (servers, onlyRow "a/b".toList .deleted 0, .serveFlagged "deleted upstream".toList) ∧
      ∀ rows,
        Follows (fun cursor => listServers (oneServer "a/b".toList .deleted 0) (serversScope .hide [])
          servers.id (fun _ => none) { plainListing (some "true".toList) none with cursor := cursor })
          none rows →
        ¬∃ entry ∈ rows, entry.1.name = "a/b".toList ∧ entry.1.version = "1".toList := by
  refine ⟨by rfl, oneServer_sound (by rfl), by rfl, by rfl, fun rows follows => ?_⟩
  have empty : Follows (fun cursor => listServers (oneServer "a/b".toList .deleted 0)
      (serversScope .hide []) servers.id (fun _ => none)
      { plainListing (some "true".toList) none with cursor := cursor }) none [] :=
    .last (by rfl)
  rw [follows.unique empty]
  rintro ⟨_, ⟨⟩, _⟩

end OpenCargo.Mcp
