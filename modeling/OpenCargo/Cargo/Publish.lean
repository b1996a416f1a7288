/-
Module: OpenCargo.Cargo.Publish
Purpose: A crate's publish (`registry/cargo/publish.rs`): the framed body, what is asked of it before it is
  stored, and the index line that is served of the stored version.
Trusted boundary: `serde_json`'s reading of a text, the digest, the gate and the stores, which are arguments
Main exports: Renderable, parse_framed, parse_strict_prefix, accepted_line_usable_iff
-/
import OpenCargo.Cargo.Line
import OpenCargo.Lib.Fallible
import OpenCargo.Lib.Framing
import OpenCargo.Npm.Names
import OpenCargo.Storage

namespace OpenCargo.Cargo

open Lib (Json slice le32 readLe32 bind_eq_ok)

/-! ### The body -/

/-- What `serde_json` reads of a text, and how it refuses a value that is no metadata. -/
structure Serde where
  read : Bytes → Except Text Json
  refusal : Json → Text

/-- `serde_json::from_slice`, into the metadata. -/
def Serde.fromSlice (serde : Serde) (json : Bytes) : Except Text CargoPublishMeta :=
  match serde.read json with
  | .error e => .error e
  | .ok j =>
      match CargoPublishMeta.ofJson j with
      | some m => .ok m
      | none => .error (serde.refusal j)

def short (what : Text) : AppError := .badRequest ("request body too short: ".toList ++ what)

/-- `parse_publish_body`; `none` where an index is out of range. -/
def parsePublishBody (serde : Serde) (body : Bytes) : Option (Except AppError (CargoPublishMeta × Bytes)) :=
  match readLe32 body 0 with
  | none => some (.error (short "missing JSON length".toList))
  | some jsonLen =>
      match readLe32 body (4 + jsonLen) with
      | none => some (.error (short "missing crate data".toList))
      | some crateLen =>
          if body.length < 4 + jsonLen + 4 + crateLen then
            some (.error (short "crate file truncated".toList))
          else
            (slice body 4 (4 + jsonLen)).bind fun json =>
              match serde.fromSlice json with
              | .error e => some (.error (.badRequest ("invalid publish metadata JSON: ".toList ++ e)))
              | .ok m =>
                  (slice body (4 + jsonLen + 4) (4 + jsonLen + 4 + crateLen)).map fun crate => .ok (m, crate)

/-- `framed_prefix`: what stands before the bytes of a crate. -/
def framedPrefix (json : Bytes) (crateLen : Nat) : Bytes := le32 json.length ++ json ++ le32 crateLen

section Framed

variable {serde : Serde} {json crate body : Bytes}

theorem parse_total : ∃ answer, parsePublishBody serde body = some answer := by
  rw [parsePublishBody]
  cases first : readLe32 body 0 with
  | none => exact ⟨_, rfl⟩
  | some jsonLen =>
      dsimp only
      cases second : readLe32 body (4 + jsonLen) with
      | none => exact ⟨_, rfl⟩
      | some crateLen =>
          dsimp only
          split
          · exact ⟨_, rfl⟩
          · rename_i long
            have long := Nat.not_lt.1 long
            rw [Lib.slice_of_le (by omega) (by omega), Option.bind_some, Lib.slice_of_le (by omega) long]
            cases serde.fromSlice ((body.take (4 + jsonLen)).drop 4) with
            | error e => exact ⟨_, rfl⟩
            | ok m => exact ⟨_, rfl⟩

theorem lengths_framed (smallJson : json.length < 2 ^ 32) (smallCrate : crate.length < 2 ^ 32) :
    readLe32 (framedPrefix json crate.length ++ crate) 0 = some json.length ∧
      readLe32 (framedPrefix json crate.length ++ crate) (4 + json.length) = some crate.length := by
  constructor
  · have first := Lib.readLe32_append smallJson [] (json ++ le32 crate.length ++ crate)
    simpa [framedPrefix] using first
  · have second := Lib.readLe32_append smallCrate (le32 json.length ++ json) crate
    simpa [framedPrefix] using second

theorem length_framed : (framedPrefix json crate.length ++ crate).length = 4 + json.length + 4 + crate.length := by
  simp [framedPrefix]
  omega

theorem parse_framed (smallJson : json.length < 2 ^ 32) (smallCrate : crate.length < 2 ^ 32) :
    parsePublishBody serde (framedPrefix json crate.length ++ crate) =
      some (match serde.fromSlice json with
        | .error e => .error (.badRequest ("invalid publish metadata JSON: ".toList ++ e))
        | .ok m => .ok (m, crate)) := by
  obtain ⟨first, second⟩ := lengths_framed smallJson smallCrate
  have metadata : slice (framedPrefix json crate.length ++ crate) 4 (4 + json.length) = some json := by
    have middle := Lib.slice_middle (le32 json.length) json (le32 crate.length ++ crate)
    simpa [framedPrefix] using middle
  have file : slice (framedPrefix json crate.length ++ crate) (4 + json.length + 4)
      (4 + json.length + 4 + crate.length) = some crate := by
    have last := Lib.slice_middle (framedPrefix json crate.length) crate []
    have front : (framedPrefix json crate.length).length = 4 + json.length + 4 := by
      simp [framedPrefix]
      omega
    rwa [front, List.append_nil] at last
  rw [parsePublishBody, first]
  dsimp only
  rw [second]
  dsimp only
  rw [length_framed, if_neg (Nat.lt_irrefl _), metadata, Option.bind_some, file]
  cases serde.fromSlice json <;> rfl

theorem parse_strict_prefix (smallJson : json.length < 2 ^ 32) (smallCrate : crate.length < 2 ^ 32)
    (part : body <+: framedPrefix json crate.length ++ crate)
    (strict : body.length < (framedPrefix json crate.length ++ crate).length) :
    ∃ what, parsePublishBody serde body = some (.error (short what)) := by
  obtain ⟨first, second⟩ := lengths_framed smallJson smallCrate
  rw [List.prefix_iff_eq_take] at part
  rw [length_framed] at strict
  rw [parsePublishBody]
  by_cases headed : 4 ≤ body.length
  · have counted : readLe32 body 0 = some json.length := by
      rw [part, Lib.readLe32_take headed]
      exact first
    rw [counted]
    dsimp only
    by_cases measured : 4 + json.length + 4 ≤ body.length
    · have sized : readLe32 body (4 + json.length) = some crate.length := by
        rw [part, Lib.readLe32_take measured]
        exact second
      rw [sized]
      dsimp only
      rw [if_pos strict]
      exact ⟨_, rfl⟩
    · rw [Lib.readLe32_eq_none (Nat.lt_of_not_le measured)]
      exact ⟨_, rfl⟩
  · rw [Lib.readLe32_eq_none (by omega)]
    exact ⟨_, rfl⟩

end Framed

/-! ### What is asked of a publish -/

inductive Refusal where
  | unauthorized (message : Text)
  | app (error : AppError)
deriving Repr, DecidableEq, Inhabited

/-- What is handed to the store. The bytes are the crate's. -/
structure Artifact where
  repository : Int
  package : Text
  description : Option Text
  version : Text
  metadata : Json
  checksumSha256 : Text
  filename : Text
  bytes : Bytes

inductive PublishError where
  | store (error : StoreError)
  | other (error : AppError)

structure Landed where
  packageId : Int
  packageName : Text
  versionId : Int

/-- What a publish asks outside the handler. -/
structure Registry where
  serde : Serde
  meterPublish : Text → Text → Except AppError Unit
  loadHosted : Text → Text → Text → Except AppError Int
  sha256 : Bytes → Text
  gate : Json → Except AppError Unit
  package : Int → Text → Except AppError (Option Int)
  version : Int → Text → Except AppError Bool
  publishVersion : Artifact → Except PublishError Landed

/-- `[a-zA-Z][a-zA-Z0-9_-]*`, of at most 64 characters. -/
def validatePackageName (name : Text) : Except DomainError Unit :=
  let plain := name.length ≤ 64 && (name.head?.any Char.isAlpha) &&
    name.tail.all fun c => c.isAlphanum || c == '_' || c == '-'
  if plain then .ok ()
  else .error (.invalidName ("invalid cargo package name: '".toList ++ name ++ "'".toList))

def alreadyExists (name version : Text) : AppError :=
  .conflict ("version ".toList ++ version ++ " already exists for ".toList ++ name)

/-- The store's bare conflict, back in cargo's words. -/
def duplicateNamed (name version : Text) : PublishError → AppError
  | .store .conflict => alreadyExists name version
  | .store e => .store e
  | .other e => e

def refuseDuplicate (registry : Registry) (repository : Int) (m : CargoPublishMeta) : Except AppError Unit := do
  match ← registry.package repository m.name with
  | none => pure ()
  | some package =>
      if ← registry.version package m.vers then throw (alreadyExists m.name m.vers)

/-- One row of the dependency graph. -/
structure NewDependency where
  name : Text
  requirement : Text
  kind : Text
deriving Repr, DecidableEq, Inhabited

/-- `record_dependencies`: what is recorded, of the dependencies that have a name. -/
def dependenciesOf (deps : Json) : List NewDependency :=
  let items := match deps with
    | .array items => items
    | _ => []
  items.filterMap fun dep =>
    let name := ((dep.get "name".toList).bind Json.asStr).getD []
    let kind := (dep.get "kind".toList).bind Json.asStr
    if name.isEmpty then none
    else some
      { name
        requirement := ((dep.get "version_req".toList).bind Json.asStr).getD "*".toList
        kind := if kind = some "dev".toList ∨ kind = some "build".toList then kind.getD [] else "normal".toList }

/-- A crate that was published: the package's name as the store has it, and the row of the version. -/
structure Published where
  packageName : Text
  row : Version
  dependencies : List NewDependency

/-- What a publish asks once the body is read. -/
def publishParsed (registry : Registry) (user repoName : Text) (m : CargoPublishMeta) (crate : Bytes) :
    Except AppError Published := do
  let repository ← registry.loadHosted repoName m.name user
  (validatePackageName m.name).mapError .domain
  (Npm.validateVersion m.vers).mapError .domain
  let sha256 := registry.sha256 crate
  let metadata := m.toJson
  registry.gate metadata
  refuseDuplicate registry repository m
  let landed ← (registry.publishVersion
    { repository, package := m.name, description := m.description, version := m.vers, metadata
      checksumSha256 := sha256, filename := m.name ++ "-".toList ++ m.vers ++ ".crate".toList
      bytes := crate }).mapError (duplicateNamed m.name m.vers)
  pure ⟨landed.packageName, ⟨m.vers, metadata, some sha256, false⟩, dependenciesOf m.deps⟩

/-- `publish_crate`; `none` where an index is out of range. -/
def publishCrate (registry : Registry) (user : Option Text) (repoName : Text) (body : Bytes) :
    Option (Except Refusal Published) :=
  match user with
  | none => some (.error (.unauthorized "authentication required".toList))
  | some user =>
      match registry.meterPublish user repoName with
      | .error e => some (.error (.app e))
      | .ok () =>
          (parsePublishBody registry.serde body).map fun
            | .error e => .error (.app e)
            | .ok (m, crate) => (publishParsed registry user repoName m crate).mapError .app

/-! ### The line a client reads -/

/-- An array of strings. -/
def IsTexts (j : Json) : Prop := ∃ items, j = .array items ∧ ∀ item ∈ items, ∃ text, item = .string text

/-- An object of lists of strings. -/
def IsFeatures (j : Json) : Prop := ∃ members, j = .object members ∧ ∀ member ∈ members, IsTexts member.2

def IsText (j : Option Json) : Prop := ∃ text, j = some (.string text)

/-- An index line that a cargo client can read. -/
structure Usable (line : Json) : Prop where
  features : ∃ j, line.get "features".toList = some j ∧ IsFeatures j
  deps : ∃ items, line.get "deps".toList = some (.array items) ∧ ∀ dep ∈ items,
    (∃ members, dep = .object members) ∧ IsText (dep.get "name".toList) ∧ IsText (dep.get "req".toList)
  name : IsText (line.get "name".toList)
  vers : IsText (line.get "vers".toList)
  cksum : IsText (line.get "cksum".toList)

/-- A dependency that was sent with a name or an alias, and with a requirement that is a string or left out. -/
def SoundDep (dep : Json) : Prop :=
  (IsText (dep.get "explicit_name_in_toml".toList) ∨ IsText (dep.get "name".toList)) ∧
    ∀ req ∈ dep.get "version_req".toList, ∃ text, req = .string text

/-- Metadata of which a readable line is rendered: its features are lists of strings by name, and its
dependencies, where they are a list, are sound. -/
structure Renderable (m : CargoPublishMeta) : Prop where
  features : IsFeatures m.features
  deps : ∀ items, m.deps = .array items → ∀ dep ∈ items, SoundDep dep

section Usable

variable {dep : Json} {m : CargoPublishMeta} {crateName : Text} {row : Version}

theorem indexDep_name : (indexDep dep).get "name".toList =
    some (((dep.get "explicit_name_in_toml".toList).filter isString).getD ((dep.get "name".toList).getD .null)) := by
  rw [indexDep_get, if_neg (by decide), if_neg (by decide)]
  cases (dep.get "explicit_name_in_toml".toList).filter isString <;> rfl

theorem indexDep_req : (indexDep dep).get "req".toList =
    some ((dep.get "version_req".toList).getD (.string "*".toList)) := by
  rw [indexDep_get, if_neg (by decide), if_pos rfl]

theorem isText_iff {j : Option Json} : IsText j ↔ ∃ text, j.filter isString = some (.string text) := by
  constructor
  · rintro ⟨text, rfl⟩
    exact ⟨text, rfl⟩
  · rintro ⟨text, kept⟩
    exact ⟨text, (Option.filter_eq_some_iff.1 kept).1⟩

theorem readable_dep_iff : (IsText ((indexDep dep).get "name".toList) ∧ IsText ((indexDep dep).get "req".toList)) ↔
    SoundDep dep := by
  rw [indexDep_name, indexDep_req, SoundDep]
  refine and_congr ?_ ?_
  · cases kept : (dep.get "explicit_name_in_toml".toList).filter isString with
    | none =>
        have plain : ¬IsText (dep.get "explicit_name_in_toml".toList) := by
          rw [isText_iff, kept]
          rintro ⟨_, same⟩
          cases same
        rw [or_iff_right plain]
        cases dep.get "name".toList <;> simp [IsText]
    | some alias_ =>
        obtain ⟨held, is⟩ := Option.filter_eq_some_iff.1 kept
        obtain ⟨text, rfl⟩ : ∃ text, alias_ = .string text := by
          cases alias_ with
          | string text => exact ⟨text, rfl⟩
          | _ => cases is
        exact iff_of_true ⟨text, rfl⟩ (.inl ⟨text, held⟩)
  · cases dep.get "version_req".toList <;> simp [IsText]

/-- The line that is rendered of stored metadata is readable exactly where the metadata is renderable. -/
theorem usable_iff (stored : row.metadata = m.toJson) :
    Usable (buildIndexLine crateName row) ↔ Renderable m := by
  have features : (buildIndexLine crateName row).get "features".toList = some m.features := by
    rw [line_features, stored]
    rfl
  have deps : (buildIndexLine crateName row).get "deps".toList = some (.array ((depsOf m.toJson).map indexDep)) := by
    rw [line_deps, stored]
  have listed : depsOf m.toJson = match m.deps with
      | .array items => items
      | _ => [] := by
    rw [depsOf, toJson_deps]
    cases m.deps <;> rfl
  constructor
  · intro usable
    refine ⟨?_, fun items sent dep mem => ?_⟩
    · obtain ⟨j, held, lists⟩ := usable.features
      rw [features] at held
      cases held
      exact lists
    · obtain ⟨rendered, held, readable⟩ := usable.deps
      rw [deps] at held
      cases held
      rw [sent] at listed
      exact readable_dep_iff.1 (readable _ (List.mem_map_of_mem (listed ▸ mem))).2
  · intro renderable
    refine ⟨⟨_, features, renderable.features⟩, ⟨_, deps, fun out mem => ?_⟩, ?_, ?_, ?_⟩
    · obtain ⟨dep, there, rfl⟩ := List.mem_map.1 mem
      refine ⟨indexDep_object dep, readable_dep_iff.2 ?_⟩
      rw [listed] at there
      cases sent : m.deps with
      | array items =>
          rw [sent] at there
          exact renderable.deps items sent dep there
      | _ =>
          rw [sent] at there
          cases there
    · exact ⟨crateName, (buildIndexLine_get crateName row).trans rfl⟩
    · exact ⟨row.version, (buildIndexLine_get crateName row).trans rfl⟩
    · exact ⟨row.checksumSha256.getD [], (buildIndexLine_get crateName row).trans rfl⟩

end Usable

section Accepted

variable {registry : Registry} {user : Option Text} {repoName : Text} {body : Bytes} {published : Published}

theorem publishParsed_row {m : CargoPublishMeta} {crate : Bytes} {user : Text}
    (done : publishParsed registry user repoName m crate = .ok published) :
    published.row.metadata = m.toJson := by
  rw [publishParsed] at done
  obtain ⟨repository, -, done⟩ := bind_eq_ok.1 done
  obtain ⟨-, -, done⟩ := bind_eq_ok.1 done
  obtain ⟨-, -, done⟩ := bind_eq_ok.1 done
  obtain ⟨-, -, done⟩ := bind_eq_ok.1 done
  obtain ⟨-, -, done⟩ := bind_eq_ok.1 done
  obtain ⟨landed, -, done⟩ := bind_eq_ok.1 done
  cases done
  rfl

theorem accepted_row (accepted : publishCrate registry user repoName body = some (.ok published)) :
    ∃ m crate, parsePublishBody registry.serde body = some (.ok (m, crate)) ∧
      published.row.metadata = m.toJson := by
  cases user with
  | none => cases accepted
  | some user =>
      unfold publishCrate at accepted
      dsimp only at accepted
      cases metered : registry.meterPublish user repoName with
      | error e =>
          rw [metered] at accepted
          cases accepted
      | ok _ =>
          rw [metered] at accepted
          obtain ⟨answer, read, done⟩ := Option.map_eq_some_iff.1 accepted
          cases answer with
          | error e => cases done
          | ok parts =>
              obtain ⟨m, crate⟩ := parts
              refine ⟨m, crate, read, @publishParsed_row registry repoName published m crate user ?_⟩
              dsimp only at done
              cases stored : publishParsed registry user repoName m crate with
              | error e =>
                  rw [stored] at done
                  cases done
              | ok stored =>
                  rw [stored] at done
                  cases done
                  rfl

/-- The index line of an accepted publish is readable exactly where its features are lists of strings by name and
each dependency it lists has a name or an alias, and a requirement that is a string or left out. -/
theorem accepted_line_usable_iff (accepted : publishCrate registry user repoName body = some (.ok published)) :
    ∃ m crate, parsePublishBody registry.serde body = some (.ok (m, crate)) ∧
      (Usable (buildIndexLine published.packageName published.row) ↔ Renderable m) := by
  obtain ⟨m, crate, read, stored⟩ := accepted_row accepted
  exact ⟨m, crate, read, usable_iff stored⟩

end Accepted

/-! ### Two publishes -/

/-- The bytes of a text of ASCII characters. -/
def ascii (text : Text) : Bytes := text.map fun c => UInt8.ofNat c.toNat

/-- A registry that lets everything through, and reads one text. -/
def openRegistry (text : Text) (j : Json) : Registry where
  serde := ⟨fun bytes => if bytes = ascii text then .ok j else .error "expected value".toList, fun _ => []⟩
  meterPublish := fun _ _ => .ok ()
  loadHosted := fun _ _ _ => .ok 1
  sha256 := fun _ => "ab".toList
  gate := fun _ => .ok ()
  package := fun _ _ => .ok none
  version := fun _ _ => .ok false
  publishVersion := fun artifact => .ok ⟨1, artifact.package, 1⟩

section Open

variable {text user repoName : Text} {j : Json} {m : CargoPublishMeta}

theorem openRegistry_read (text : Text) (j : Json) : (openRegistry text j).serde.read (ascii text) = .ok j :=
  if_pos rfl

theorem open_parse (small : text.length < 2 ^ 32) (whole : CargoPublishMeta.ofJson j = some m) :
    parsePublishBody (openRegistry text j).serde (framedPrefix (ascii text) 0) = some (.ok (m, [])) := by
  have read : (openRegistry text j).serde.fromSlice (ascii text) = .ok m := by
    simp only [Serde.fromSlice, openRegistry_read, whole]
  have framed := @parse_framed (openRegistry text j).serde (ascii text) [] (by simpa [ascii] using small) (by decide)
  rw [List.append_nil, read] at framed
  exact framed

def publishedOf (m : CargoPublishMeta) : Published :=
  ⟨m.name, ⟨m.vers, m.toJson, some "ab".toList, false⟩, dependenciesOf m.deps⟩

theorem open_publish (small : text.length < 2 ^ 32) (whole : CargoPublishMeta.ofJson j = some m)
    (named : validatePackageName m.name = .ok ()) (versioned : Npm.validateVersion m.vers = .ok ()) :
    publishCrate (openRegistry text j) (some user) repoName (framedPrefix (ascii text) 0) =
      some (.ok (publishedOf m)) := by
  have stored : publishParsed (openRegistry text j) user repoName m [] = .ok (publishedOf m) := by
    rw [publishParsed, named, versioned]
    rfl
  unfold publishCrate
  change (parsePublishBody (openRegistry text j).serde (framedPrefix (ascii text) 0)).map _ = _
  rw [open_parse small whole, Option.map_some]
  dsimp only
  rw [stored]
  rfl

end Open

/-- `\x7b"name":"a","vers":"1.0.0","features":\x7b\x7d\x7d`, of an empty crate. -/
def featuredText : Text := "\x7b\"name\":\"a\",\"vers\":\"1.0.0\",\"features\":\x7b\x7d\x7d".toList

def featuredJson : Json :=
  .object [("name".toList, .string "a".toList), ("vers".toList, .string "1.0.0".toList),
    ("features".toList, .object [])]

def featuredMeta : CargoPublishMeta where
  name := "a".toList
  vers := "1.0.0".toList
  deps := .null
  features := .object []
  authors := []
  description := none
  license := none
  readme := none
  repository := none
  links := none
  features2 := none
  extra := []

theorem featured_publish_usable :
    Usable (buildIndexLine (publishedOf featuredMeta).packageName (publishedOf featuredMeta).row) := by
  have small : featuredText.length < 2 ^ 32 := by decide
  have accepted := @open_publish featuredText "alice".toList "crates".toList featuredJson featuredMeta small rfl
    (by decide) (by decide)
  obtain ⟨m, crate, read, usable⟩ := accepted_line_usable_iff accepted
  rw [open_parse small (show CargoPublishMeta.ofJson featuredJson = some featuredMeta from rfl)] at read
  cases read
  exact usable.2 ⟨⟨[], rfl, nofun⟩, nofun⟩

/-- `\x7b"name":"a","vers":"1.0.0"\x7d`, without features. -/
def bareText : Text := "\x7b\"name\":\"a\",\"vers\":\"1.0.0\"\x7d".toList

def bareJson : Json := .object [("name".toList, .string "a".toList), ("vers".toList, .string "1.0.0".toList)]

/-- It is accepted, and the features of its index line are `null`. -/
theorem bare_publish_is_unusable : ¬∀ registry user repoName body published,
    publishCrate registry user repoName body = some (.ok published) →
      Usable (buildIndexLine published.packageName published.row) := by
  intro every
  have usable := every _ _ _ _ _ (@open_publish bareText "alice".toList "crates".toList bareJson
    { featuredMeta with features := .null } (by decide) rfl (by decide) (by decide))
  obtain ⟨j, held, members, lists, -⟩ := usable.features
  rw [buildIndexLine_get, if_neg (by decide)] at held
  cases held
  cases lists

end OpenCargo.Cargo
