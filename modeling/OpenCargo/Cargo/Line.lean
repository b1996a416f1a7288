/-
Module: OpenCargo.Cargo.Line
Purpose: The metadata a crate is published with, as it is read and stored (`registry/cargo/publish.rs`), and the
  sparse index line that is rendered of it (`registry/cargo/leaves.rs`).
Trusted boundary: JSON text is kept as the value it reads as
Main exports: buildIndexLine, setAll_get, indexDep_get, buildIndexLine_get
-/
import OpenCargo.Domain
import OpenCargo.Lib.Entries

namespace OpenCargo.Cargo

open Lib (Entries Json valueAt)

/-! ### Members -/

/-- `.filter(|v| !v.is_null())`. -/
def nonNull : Option Json → Option Json
  | some .null => none
  | value => value

def isString : Json → Bool
  | .string _ => true
  | _ => false

/-- A `serde_json::Map`. -/
abbrev Members := Entries Text Json

def noMembers : Members := ⟨[], List.nodup_nil⟩

def Members.json (members : Members) : Json := .object members.toList

/-- The members picked under some keys, set in `into`. -/
def setAll (pick : Text → Option Json) (keys : List Text) (into : Members) : Members :=
  keys.foldl (fun out key => match pick key with
    | some v => out.set key v
    | none => out) into

/-- The members of `source` under some keys, but for nulls. -/
def carry (source : Json) (keys : List Text) (into : Members) : Members :=
  setAll (fun key => nonNull (source.get key)) keys into

/-! ### The metadata -/

structure CargoPublishMeta where
  name : Text
  vers : Text
  deps : Json
  features : Json
  authors : List Text
  description : Option Text
  license : Option Text
  readme : Option Text
  repository : Option Text
  links : Option Text
  features2 : Option Json
  extra : List (Text × Json)
deriving Inhabited

namespace CargoPublishMeta

/-- The fields that are read by name; every other member is an extra one. -/
def fields : List Text :=
  ["name".toList, "vers".toList, "deps".toList, "features".toList, "authors".toList, "description".toList,
    "license".toList, "readme".toList, "repository".toList, "links".toList, "features2".toList]

/-- A `Vec<String>` that may be left out. -/
def texts : Option Json → Option (List Text)
  | none => some []
  | some (.array items) => items.mapM Json.asStr
  | some _ => none

/-- An `Option<String>`. -/
def optText : Option Json → Option (Option Text)
  | none | some .null => some none
  | some (.string text) => some (some text)
  | some _ => none

/-- The derived `Deserialize`; `none` where it refuses the value. -/
def ofJson (j : Json) : Option CargoPublishMeta := do
  let members ← j.asObject
  let name ← (j.get "name".toList).bind Json.asStr
  let vers ← (j.get "vers".toList).bind Json.asStr
  let authors ← texts (j.get "authors".toList)
  let description ← optText (j.get "description".toList)
  let license ← optText (j.get "license".toList)
  let readme ← optText (j.get "readme".toList)
  let repository ← optText (j.get "repository".toList)
  let links ← optText (j.get "links".toList)
  pure
    { name, vers, authors, description, license, readme, repository, links
      deps := (j.get "deps".toList).getD .null
      features := (j.get "features".toList).getD .null
      features2 := nonNull (j.get "features2".toList)
      extra := members.filter fun member => !fields.contains member.1 }

def textOrNull : Option Text → Json
  | some text => .string text
  | none => .null

/-- The derived `Serialize`: what is stored of a version. -/
def toJson (m : CargoPublishMeta) : Json :=
  .object ([("name".toList, .string m.name), ("vers".toList, .string m.vers), ("deps".toList, m.deps),
    ("features".toList, m.features), ("authors".toList, .array (m.authors.map Json.string)),
    ("description".toList, textOrNull m.description), ("license".toList, textOrNull m.license),
    ("readme".toList, textOrNull m.readme), ("repository".toList, textOrNull m.repository),
    ("links".toList, textOrNull m.links), ("features2".toList, m.features2.getD .null)] ++ m.extra)

end CargoPublishMeta

/-! ### The index line -/

/-- A row of `versions`, as far as an index line is rendered of it. -/
structure Version where
  version : Text
  metadata : Json
  checksumSha256 : Option Text
  yanked : Bool

/-- The members a dependency has under the same name in both shapes. -/
def carried : List Text :=
  ["features".toList, "optional".toList, "default_features".toList, "target".toList, "kind".toList,
    "registry".toList]

/-- The publish payload names the package and its alias as `name` / `explicit_name_in_toml` with a `version_req`;
the index wants `name` to be the alias, `package` the real name and `req` the requirement. -/
def indexDep (dep : Json) : Json :=
  let package := (dep.get "name".toList).getD .null
  let out := match (dep.get "explicit_name_in_toml".toList).filter isString with
    | some alias_ => (noMembers.set "name".toList alias_).set "package".toList package
    | none => noMembers.set "name".toList package
  (carry dep carried (out.set "req".toList ((dep.get "version_req".toList).getD (.string "*".toList)))).json

/-- The dependencies a version's metadata lists. -/
def depsOf (metadata : Json) : List Json :=
  match metadata.get "deps".toList with
  | some (.array items) => items
  | _ => []

/-- The members an index line has as the metadata has them. -/
def copied : List Text := ["v".toList, "features2".toList, "links".toList, "rust_version".toList]

/-- The members every index line has. -/
def lineMembers (crateName : Text) (version : Version) : Members :=
  ((((((noMembers.set "name".toList (.string crateName)).set "vers".toList (.string version.version)).set
    "deps".toList (.array ((depsOf version.metadata).map indexDep))).set
    "cksum".toList (.string (version.checksumSha256.getD []))).set
    "features".toList ((version.metadata.get "features".toList).getD (.object []))).set
    "yanked".toList (.bool version.yanked))

def buildIndexLine (crateName : Text) (version : Version) : Json :=
  (setAll version.metadata.get copied (lineMembers crateName version)).json

/-! ### What the members are -/

section Members

variable {members : Members} {key : Text}

theorem get_json : members.json.get key = members.get key := rfl

theorem get_noMembers : noMembers.get key = none := rfl

theorem setAll_get {pick : Text → Option Json} {keys : List Text} :
    (setAll pick keys members).get key =
      if key ∈ keys then (pick key).or (members.get key) else members.get key := by
  induction keys generalizing members with
  | nil => rfl
  | cons first rest ih =>
      rw [setAll, List.foldl_cons, ← setAll, ih]
      by_cases same : key = first
      · subst same
        cases picked : pick key with
        | none => simp
        | some v => simp [Entries.get_set]
      · cases pick first with
        | none => simp [same]
        | some v => simp [Entries.get_set, same]

theorem carry_get {source : Json} {keys : List Text} (apart : ∀ key ∈ keys, members.get key = none) :
    (carry source keys members).get key = if key ∈ keys then nonNull (source.get key) else members.get key := by
  rw [carry, setAll_get]
  split
  · rename_i mem
    rw [apart key mem, Option.or_none]
  · rfl

end Members

section Rendered

variable {dep : Json} {key : Text}

/-- A rendered dependency: its names and its requirement, and what is carried of it. -/
theorem indexDep_get : (indexDep dep).get key =
    if key ∈ carried then nonNull (dep.get key)
    else if key = "req".toList then some ((dep.get "version_req".toList).getD (.string "*".toList))
    else match (dep.get "explicit_name_in_toml".toList).filter isString with
      | some alias_ =>
          if key = "package".toList then some ((dep.get "name".toList).getD .null)
          else if key = "name".toList then some alias_
          else none
      | none => if key = "name".toList then some ((dep.get "name".toList).getD .null) else none := by
  rw [indexDep, get_json, carry_get]
  · cases (dep.get "explicit_name_in_toml".toList).filter isString with
    | none => simp only [Entries.get_set, get_noMembers]
    | some alias_ => simp only [Entries.get_set, get_noMembers]
  · simp only [carried, List.forall_mem_cons]
    cases (dep.get "explicit_name_in_toml".toList).filter isString <;>
    · refine ⟨rfl, rfl, rfl, rfl, rfl, rfl, List.forall_mem_nil _⟩

theorem indexDep_object (dep : Json) : ∃ members, indexDep dep = .object members := ⟨_, rfl⟩

variable (crateName : Text) (version : Version)

theorem buildIndexLine_get : (buildIndexLine crateName version).get key =
    if key ∈ copied then version.metadata.get key else (lineMembers crateName version).get key := by
  rw [buildIndexLine, get_json, setAll_get]
  split
  · rename_i mem
    have absent : ∀ key ∈ copied, (lineMembers crateName version).get key = none := by
      simp only [copied, List.forall_mem_cons]
      exact ⟨rfl, rfl, rfl, rfl, List.forall_mem_nil _⟩
    rw [absent key mem, Option.or_none]
  · rfl

theorem line_features : (buildIndexLine crateName version).get "features".toList =
    some ((version.metadata.get "features".toList).getD (.object [])) := buildIndexLine_get crateName version

theorem line_deps : (buildIndexLine crateName version).get "deps".toList =
    some (.array ((depsOf version.metadata).map indexDep)) := buildIndexLine_get crateName version

end Rendered

section Stored

variable {m : CargoPublishMeta}

theorem valueAt_append {κ α : Type} [DecidableEq κ] {key : κ} {front rest : List (κ × α)} (other : key ∉ front.map Prod.fst) :
    valueAt key (front ++ rest) = valueAt key rest := by
  have absent : front.find? (fun member => member.1 == key) = none := by
    rw [List.find?_eq_none]
    intro member mem named
    exact other (List.mem_map.2 ⟨member, mem, by simpa using named⟩)
  rw [valueAt, valueAt, List.find?_append, absent, Option.none_or]

theorem toJson_deps : m.toJson.get "deps".toList = some m.deps := rfl

theorem toJson_features : m.toJson.get "features".toList = some m.features := rfl

theorem toJson_links : m.toJson.get "links".toList = some (CargoPublishMeta.textOrNull m.links) := rfl

theorem toJson_features2 : m.toJson.get "features2".toList = some (m.features2.getD .null) := rfl

theorem toJson_extra {key : Text} (other : key ∉ CargoPublishMeta.fields) :
    m.toJson.get key = valueAt key m.extra := by
  rw [CargoPublishMeta.toJson]
  exact valueAt_append other

open CargoPublishMeta

variable {members : Members}

theorem asStr_eq_some_iff {j : Option Json} {text : Text} : j.bind Json.asStr = some text ↔ j = some (.string text) := by
  rcases j with _ | j
  · simp
  · cases j <;> simp [Json.asStr]

theorem optText_eq_some {j : Option Json} {text : Option Text} (read : optText j = some text) :
    textOrNull text = j.getD .null := by
  rcases j with _ | j
  · cases read
    rfl
  · cases j <;> cases read <;> rfl

theorem ofJson_fields (read : ofJson members.json = some m) :
    members.get "name".toList = some (.string m.name) ∧ members.get "vers".toList = some (.string m.vers) ∧
      m.deps = (members.get "deps".toList).getD .null ∧ m.features = (members.get "features".toList).getD .null ∧
      textOrNull m.links = (members.get "links".toList).getD .null ∧
      m.features2 = nonNull (members.get "features2".toList) ∧
      ∀ key ∉ fields, valueAt key m.extra = members.get key := by
  simp only [ofJson, Option.bind_eq_bind, Option.bind_eq_some_iff, Option.pure_def, Option.some.injEq] at read
  obtain ⟨listed, is, name, named, vers, versioned, authors, -, description, -, license, -, readme, -, repository, -,
    links, linked, rfl⟩ := read
  cases is
  refine ⟨asStr_eq_some_iff.1 (Option.bind_eq_some_iff.2 named), asStr_eq_some_iff.1 (Option.bind_eq_some_iff.2 versioned),
    rfl, rfl, optText_eq_some linked, rfl, fun key other => ?_⟩
  exact Lib.valueAt_filter fun a => by simpa using other

theorem ofJson_accepts {name vers : Text} (named : members.get "name".toList = some (.string name))
    (versioned : members.get "vers".toList = some (.string vers))
    (authors : ∃ names, texts (members.get "authors".toList) = some names)
    (told : ∀ key ∈ ["description".toList, "license".toList, "readme".toList, "repository".toList, "links".toList],
      ∃ text, optText (members.get key) = some text) :
    ∃ m, ofJson members.json = some m := by
  obtain ⟨names, authored⟩ := authors
  simp only [List.forall_mem_cons] at told
  obtain ⟨⟨description, described⟩, ⟨license, licensed⟩, ⟨readme, shown⟩, ⟨repository, kept⟩, ⟨links, linked⟩, -⟩ := told
  rw [← Option.isSome_iff_exists]
  simp only [ofJson, get_json, named, versioned, authored, described, licensed, shown, kept, linked, Option.bind_some,
    Json.asStr, Option.bind_eq_bind]
  rfl

end Stored

end OpenCargo.Cargo
