/-
Module: OpenCargo.Groups.Spec
Purpose: Administering repositories: what a definition has to satisfy before it is written
  (`app/repo_spec.rs`), and the calls that create, change and remove one (`app/repositories.rs`) over
  the rows of the store (`adapters/sqlite/repositories.rs`).
Trusted boundary: how an upstream URL is parsed, which names the adapters mount
Main exports: updateRepository, deleteRepository, Act, step
-/
import OpenCargo.Lib.Fallible
import OpenCargo.Lib.Rows
import OpenCargo.Resolve.Walk

namespace OpenCargo.Groups

open OpenCargo.Lib (updateAt Fueled)
open OpenCargo.Lib.Fueled (outOfFuel)
open OpenCargo.Resolve (maxGroupDepth)

/-! ### The rows -/

/-- A row of `repositories`, with the upstream a proxy fetches from. -/
structure Row extends Repository where
  upstreamUrl : Option Text
deriving Repr, DecidableEq, Inhabited

/-- `?` on a column inside a use case. -/
def Row.appKind (row : Row) : Except AppError RepoKind := row.kind.mapError .domain

def Row.appFmt (row : Row) : Except AppError Format := row.fmt.mapError .domain

/-- The table `repositories`: names are `UNIQUE`, ids are drawn from a sequence that never returns. -/
structure Catalog where
  rows : List Row
  sequence : Int
  ids : (rows.map (·.id)).Nodup
  names : (rows.map (·.name)).Nodup
  issued : ∀ row ∈ rows, row.id ≤ sequence

namespace Catalog

def empty : Catalog := ⟨[], 0, by simp, by simp, by simp⟩

def byName (catalog : Catalog) (name : Text) : Option Row :=
  catalog.rows.find? fun row => row.name == name

/-- `all`: the rows in the order of their names. -/
def all (catalog : Catalog) : List Row :=
  catalog.rows.insertionSort fun a b => a.name ≤ b.name

end Catalog

/-- A repository as an operator described it. -/
structure RepoSpec where
  name : Text
  kind : RepoKind
  format : Format
  visibility : Visibility
  upstream : Option Text
  members : List Text
deriving Repr, DecidableEq, Inhabited

/-- The member list for a group, nothing otherwise. -/
def RepoSpec.config (spec : RepoSpec) : Option RepoConfig :=
  if spec.kind = .group then some ⟨spec.members⟩ else none

/-- What an update writes; `none` leaves a column as it stands. -/
structure RepoPatch where
  visibility : Option Visibility
  upstream : Option Text
  config : Option RepoConfig
deriving Repr, DecidableEq, Inhabited

def RepoPatch.apply (patch : RepoPatch) (row : Row) : Row :=
  { row with
    visibility := patch.visibility.getD row.visibility
    upstreamUrl := patch.upstream.or row.upstreamUrl
    config := patch.config.or row.config }

namespace Catalog

/-- The row an insert writes. -/
def rowOf (catalog : Catalog) (spec : RepoSpec) : Row where
  id := catalog.sequence + 1
  name := spec.name
  repoType := spec.kind.asStr
  format := spec.format.asStr
  visibility := spec.visibility
  config := spec.config
  upstreamUrl := spec.upstream

theorem byName_eq_none_iff {catalog : Catalog} {name : Text} :
    catalog.byName name = none ↔ name ∉ catalog.rows.map (·.name) := by
  simp [byName]

/-- The table with one more row. -/
def add (catalog : Catalog) (spec : RepoSpec) (absent : catalog.byName spec.name = none) : Catalog where
  rows := catalog.rows ++ [catalog.rowOf spec]
  sequence := catalog.sequence + 1
  ids := by
    rw [List.map_append, List.nodup_append]
    refine ⟨catalog.ids, by simp, ?_⟩
    intro id mem other new
    obtain ⟨row, inside, rfl⟩ := List.mem_map.mp mem
    have old := catalog.issued row inside
    cases List.mem_singleton.mp new
    show row.id ≠ catalog.sequence + 1
    omega
  names := by
    rw [List.map_append, List.nodup_append]
    refine ⟨catalog.names, by simp, ?_⟩
    intro name mem other new
    cases List.mem_singleton.mp new
    rintro rfl
    exact byName_eq_none_iff.mp absent mem
  issued row mem := by
    rcases List.mem_append.mp mem with old | new
    · have := catalog.issued row old
      omega
    · cases List.mem_singleton.mp new
      exact le_refl _

/-- `create`: a prefix of the name that is being reclaimed is a conflict, and so is a name that is
taken. -/
def create (catalog : Catalog) (spec : RepoSpec) (claimed : Bool) :
    Except StoreError (Row × Catalog) :=
  if claimed then
    .error .conflict
  else if absent : catalog.byName spec.name = none then
    .ok (catalog.rowOf spec, catalog.add spec absent)
  else
    .error .conflict

/-- The table with the rows of a name patched. -/
def patched (catalog : Catalog) (name : Text) (patch : RepoPatch) : Catalog where
  rows := updateAt (·.name) name patch.apply catalog.rows
  sequence := catalog.sequence
  ids := by
    have keeps : (updateAt (·.name) name patch.apply catalog.rows).map (·.id) =
        catalog.rows.map (·.id) := Lib.map_updateAt fun _ _ => rfl
    exact keeps ▸ catalog.ids
  names := by
    have keeps : (updateAt (·.name) name patch.apply catalog.rows).map (·.name) =
        catalog.rows.map (·.name) := Lib.map_updateAt fun _ _ => rfl
    exact keeps ▸ catalog.names
  issued row mem := by
    rcases Lib.mem_updateAt.mp mem with ⟨old, _⟩ | ⟨old, inside, _, rfl⟩
    · exact catalog.issued row old
    · exact catalog.issued old inside

def update (catalog : Catalog) (name : Text) (patch : RepoPatch) :
    Except StoreError (Row × Catalog) :=
  match (catalog.patched name patch).byName name with
  | some row => .ok (row, catalog.patched name patch)
  | none => .error .notFound

/-- The table without a row. -/
def without (catalog : Catalog) (id : Int) : Catalog where
  rows := catalog.rows.filter fun row => row.id != id
  sequence := catalog.sequence
  ids := catalog.ids.sublist (List.filter_sublist.map _)
  names := catalog.names.sublist (List.filter_sublist.map _)
  issued row mem := catalog.issued row (List.mem_filter.mp mem).1

/-- The groups listing a name, as the transaction of `retire` reads them. -/
def holders (catalog : Catalog) (name : Text) : List Text :=
  (catalog.rows.filter fun row =>
    row.repoType == RepoKind.group.asStr && row.members.contains name).map (·.name)

/-- `retire`: `occupied` is whether packages or other content are held. -/
def retire (catalog : Catalog) (name : Text) (occupied : Bool) : Except StoreError Catalog :=
  match catalog.byName name with
  | none => .error .notFound
  | some row =>
      if occupied || !(catalog.holders name).isEmpty then
        .error .conflict
      else
        .ok (catalog.without row.id)

end Catalog

/-! ### What a definition has to satisfy -/

/-- What the calls are given from outside: how an upstream URL is judged, and the path prefixes the
protocol adapters mount. -/
structure Env where
  validateUpstreamUrl : Text → Except AppError Unit
  reserved : List Text

def RepoSpec.refuseUpstream (spec : RepoSpec) : Except AppError Unit :=
  match spec.upstream with
  | some _ =>
      .error (.badRequest (spec.kind.asStr ++ " repositories take no upstream".toList))
  | none => .ok ()

def RepoSpec.refuseMembers (spec : RepoSpec) : Except AppError Unit :=
  if spec.members.isEmpty then
    .ok ()
  else
    .error (.badRequest (spec.kind.asStr ++ " repositories take no members".toList))

def isLowerOrDigit (c : Char) : Bool := ('a' ≤ c && c ≤ 'z') || ('0' ≤ c && c ≤ '9')

/-- One lowercase segment without `..`; a name that passes is ASCII, so its bytes are its
characters. -/
def validateName (name : Text) : Except AppError Unit :=
  let headOk := name.head?.any isLowerOrDigit
  let tailOk := name.tail.all fun c => isLowerOrDigit c || c == '.' || c == '_' || c == '-'
  if headOk && tailOk && name.length ≤ 64 && !decide (['.', '.'] <:+: name) then
    .ok ()
  else
    .error (.badRequest ("invalid repository name '".toList ++ name ++
      "': [a-z0-9][a-z0-9._-]\x7b0,63\x7d without '..'".toList))

def refuseReserved (env : Env) (name : Text) : Except AppError Unit :=
  if env.reserved.contains name then
    .error (.badRequest ("invalid repository name '".toList ++ name ++ "': reserved, /".toList ++
      name ++ "/ is a protocol endpoint".toList))
  else
    .ok ()

/-- Every format takes every kind. -/
def supportsKind (_format : Format) (_kind : RepoKind) : Bool := true

/-- The member list of a stored group; a name that is no row, or no group, has none. -/
def groupMembers (catalog : Catalog) (name : Text) : Except AppError (Option (List Text)) :=
  match catalog.byName name with
  | none => .ok none
  | some row => row.appKind.map fun kind => if kind = .group then some row.members else none

/-- Groups stacked below `name`, itself included; a name met before counts nothing. -/
def nesting (catalog : Catalog) : Nat → Text → List Text → Fueled AppError (Nat × List Text)
  | 0, _, _ => outOfFuel
  | fuel + 1, name, seen => do
      if name ∈ seen then
        pure (0, seen)
      else
        match ← Fueled.of (groupMembers catalog name) with
        | none => pure (0, name :: seen)
        | some members =>
            let (deepest, seen) ← members.foldlM (fun (deepest, seen) member => do
              let (below, seen) ← nesting catalog fuel member seen
              pure (max deepest below, seen)) (0, name :: seen)
            pure (deepest + 1, seen)

/-- The loop of `reaches` over a member list, `walk` being the call on a group in it. -/
def reachesAny (catalog : Catalog) (target : Text)
    (walk : Row → List Int → Fueled AppError (Bool × List Int)) :
    List Text → List Int → Fueled AppError (Bool × List Int)
  | [], seen => pure (false, seen)
  | name :: names, seen => do
      if name = target then
        pure (true, seen)
      else
        match catalog.byName name with
        | none => reachesAny catalog target walk names seen
        | some member =>
            let kind ← Fueled.of member.appKind
            if kind = .group then
              let (found, seen) ← walk member seen
              if found then pure (true, seen) else reachesAny catalog target walk names seen
            else
              reachesAny catalog target walk names seen

/-- Whether `target` is reachable through `group`'s members; `seen` bounds the walk. -/
def reaches (catalog : Catalog) (target : Text) :
    Nat → Row → List Int → Fueled AppError (Bool × List Int)
  | 0, _, _ => outOfFuel
  | fuel + 1, group, seen =>
      if group.id ∈ seen then
        pure (false, seen)
      else
        reachesAny catalog target (reaches catalog target fuel) group.members (group.id :: seen)

/-- A walk enters each row once, so this many calls nest at most. -/
def Catalog.fuel (catalog : Catalog) : Nat := catalog.rows.length + 1

def refuseFormat (member : Text) (format wanted : Format) : Except AppError Unit :=
  if format ≠ wanted then
    .error (.badRequest ("group member '".toList ++ member ++ "' is ".toList ++ format.asStr ++
      ", not ".toList ++ wanted.asStr))
  else
    .ok ()

/-- One turn of the loop over a group's members: the nesting below the member, when it may be one. -/
def validateMember (catalog : Catalog) (spec : RepoSpec) (member : Text) : Fueled AppError Nat := do
  let (below, _) ← nesting catalog catalog.fuel member []
  if member = spec.name then
    Fueled.of (.error (.badRequest ("group '".toList ++ member ++
      "' cannot be its own member".toList)))
  else
    match catalog.byName member with
    | none =>
        Fueled.of (.error (.badRequest ("group member not found: ".toList ++ member)))
    | some row =>
        let (found, _) ← reaches catalog spec.name catalog.fuel row []
        if found then
          Fueled.of (.error (.badRequest ("group member '".toList ++ member ++
            "' already contains '".toList ++ spec.name ++ "'".toList)))
        else
          let format ← Fueled.of row.appFmt
          Fueled.of (refuseFormat member format spec.format)
          pure below

def tooDeep (name : Text) (depth : Nat) : AppError :=
  .badRequest ("group '".toList ++ name ++ "' would be ".toList ++ (toString depth).toList ++
    " groups deep, the limit is ".toList ++ (toString maxGroupDepth).toList)

def validateMembers (catalog : Catalog) (spec : RepoSpec) : Fueled AppError Unit := do
  if spec.members.isEmpty then
    Fueled.of (.error (.badRequest "group repositories need at least one member".toList))
  else
    let deepest ← spec.members.foldlM (fun deepest member => do
      let below ← validateMember catalog spec member
      pure (max deepest below)) 0
    if deepest + 1 > maxGroupDepth then
      Fueled.of (.error (tooDeep spec.name (deepest + 1)))
    else
      pure ()

def validateProxy (env : Env) (spec : RepoSpec) : Except AppError Unit := do
  spec.refuseMembers
  match spec.upstream with
  | none => .error (.badRequest "proxy repositories need an upstream".toList)
  | some upstream => env.validateUpstreamUrl upstream

/-- `validate_spec`, as create and update call it: nothing is pending. -/
def validateSpec (env : Env) (catalog : Catalog) (spec : RepoSpec) : Fueled AppError Unit := do
  Fueled.of (validateName spec.name)
  if !supportsKind spec.format spec.kind then
    Fueled.of (.error (.badRequest (spec.format.asStr ++ " repositories cannot be ".toList ++
      spec.kind.asStr)))
  else
    match spec.kind with
    | .hosted => do
        Fueled.of spec.refuseUpstream
        Fueled.of spec.refuseMembers
    | .proxy => Fueled.of (validateProxy env spec)
    | .group => do
        Fueled.of spec.refuseUpstream
        validateMembers catalog spec

/-! ### The calls -/

/-- `CreateRepository::run`: `legacyBytes` is the first name-keyed prefix that still holds bytes. -/
def createRepository (env : Env) (catalog : Catalog) (spec : RepoSpec)
    (legacyBytes : Except AppError (Option Text)) (claimed : Bool) :
    Fueled AppError (Row × Catalog) := do
  if (catalog.byName spec.name).isSome then
    Fueled.of (.error (.conflict ("repository already exists: ".toList ++ spec.name)))
  else
    Fueled.of (refuseReserved env spec.name)
    validateSpec env catalog spec
    match ← Fueled.of legacyBytes with
    | some lead =>
        Fueled.of (.error (.conflict ("repository '".toList ++ spec.name ++
          "' was removed and its bytes under '".toList ++ lead ++
          "' are not reclaimed yet;                  run 'opencargo storage reclaim --prefix ".toList ++
          lead ++ "' first".toList)))
    | none => Fueled.of ((catalog.create spec claimed).mapError .store)

/-- What a change asks for; `none` leaves a field as it stands. -/
structure RepoUpdate where
  visibility : Option Visibility
  upstream : Option Text
  members : Option (List Text)
deriving Repr, DecidableEq, Inhabited

def loadRepo (catalog : Catalog) (name : Text) : Except AppError Row :=
  match catalog.byName name with
  | some row => .ok row
  | none => .error (.notFound ("repository not found: ".toList ++ name))

/-- The patch merged onto the stored row. -/
def mergedSpec (row : Row) (update : RepoUpdate) : Except AppError RepoSpec := do
  let kind ← row.appKind
  let format ← row.appFmt
  pure
    { name := row.name
      kind := kind
      format := format
      visibility := update.visibility.getD row.visibility
      upstream := update.upstream.or row.upstreamUrl
      members := update.members.getD row.members }

def RepoUpdate.patch (update : RepoUpdate) : RepoPatch where
  visibility := update.visibility
  upstream := update.upstream
  config := update.members.map RepoConfig.mk

/-- `UpdateRepository::run`: a new upstream purges the cache first, and `purged` is how that went. -/
def updateRepository (env : Env) (catalog : Catalog) (name : Text) (update : RepoUpdate)
    (purged : Except AppError Unit) : Fueled AppError (Row × Catalog) := do
  let row ← Fueled.of (loadRepo catalog name)
  let spec ← Fueled.of (mergedSpec row update)
  validateSpec env catalog spec
  let moved := update.upstream.isSome && update.upstream ≠ row.upstreamUrl
  Fueled.of (if moved then purged else .ok ())
  Fueled.of ((catalog.update name update.patch).mapError .store)

/-- Names of the groups listing `name` as a member. -/
def groupsContaining (catalog : Catalog) (name : Text) : Except AppError (List Text) :=
  catalog.all.foldlM (fun holders row => do
    let kind ← row.appKind
    pure (if kind = .group && row.members.contains name then holders ++ [row.name] else holders)) []

def held (name : Text) (holders : List Text) : AppError :=
  .conflict ("repository '".toList ++ name ++ "' is a member of group(s) ".toList ++
    ", ".toList.intercalate holders ++ "; remove it from them first".toList)

def refusedRetire (name : Text) : StoreError → AppError
  | .conflict =>
      .conflict ("repository '".toList ++ name ++
        "' is not empty; delete its packages first".toList)
  | err => .store err

/-- `DeleteRepository::run`, up to the reclaiming of the retired prefixes. -/
def deleteRepository (catalog : Catalog) (name : Text) (occupied : Bool) :
    Except AppError Catalog := do
  let _ ← loadRepo catalog name
  let holders ← groupsContaining catalog name
  if holders.isEmpty then
    (catalog.retire name occupied).mapError (refusedRetire name)
  else
    .error (held name holders)

/-- One call, with what it meets outside the table. -/
inductive Act where
  | create (spec : RepoSpec) (legacyBytes : Except AppError (Option Text)) (claimed : Bool)
  | update (name : Text) (update : RepoUpdate) (purged : Except AppError Unit)
  | delete (name : Text) (occupied : Bool)

def perform (env : Env) (catalog : Catalog) : Act → Fueled AppError Catalog
  | .create spec legacyBytes claimed => do
      let (_, after) ← createRepository env catalog spec legacyBytes claimed
      pure after
  | .update name update purged => do
      let (_, after) ← updateRepository env catalog name update purged
      pure after
  | .delete name occupied => Fueled.of (deleteRepository catalog name occupied)

/-- A call that fails leaves the table as it was. -/
def step (env : Env) (catalog : Catalog) (act : Act) : Option Catalog :=
  match (perform env catalog act).run with
  | some (.ok after) => some after
  | some (.error _) => some catalog
  | none => none

end OpenCargo.Groups
