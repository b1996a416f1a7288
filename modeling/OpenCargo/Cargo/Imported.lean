/-
Module: OpenCargo.Cargo.Imported
Purpose: How an imported crate is published again (`adapters/import/sink/cargo.rs`): a line of the source's index,
  or else the crate's manifest, is turned into the metadata of a publish; and what the target's index then says.
Trusted boundary: `serde_json`'s printing and reading, which are arguments; a parsed `Cargo.toml` is given
Main exports: dropNulls, WellFormedLine, SameLine, import_index_round_trip
-/
import OpenCargo.Cargo.Publish

namespace OpenCargo.Cargo

open Lib (Entries Json valueAt)

/-! ### The manifest -/

/-- A `toml::Value`. A float that is not a number is spelled `none`. -/
inductive Toml where
  | string (text : Text)
  | integer (text : Text)
  | float (text : Option Text)
  | boolean (b : Bool)
  | datetime (text : Text)
  | array (items : List Toml)
  | table (members : List (Text × Toml))
deriving Inhabited

namespace Toml

def get (t : Toml) (key : Text) : Option Toml :=
  match t with
  | table members => valueAt key members
  | _ => none

def asStr : Toml → Option Text
  | string text => some text
  | _ => none

mutual

/-- `to_json`, by `serde_json::to_value`. -/
def toJson : Toml → Json
  | string text => .string text
  | integer text => .number text
  | float (some text) => .number text
  | float none => .null
  | boolean b => .bool b
  | datetime text => .object [("$__toml_private_datetime".toList, .string text)]
  | array items => .array (itemsToJson items)
  | table members => .object (membersToJson members)

def itemsToJson : List Toml → List Json
  | [] => []
  | item :: rest => item.toJson :: itemsToJson rest

def membersToJson : List (Text × Toml) → List (Text × Json)
  | [] => []
  | (key, value) :: rest => (key, value.toJson) :: membersToJson rest

end

theorem itemsToJson_strings (texts : List Text) :
    itemsToJson (texts.map string) = texts.map Json.string := by
  induction texts with
  | nil => rfl
  | cons text rest ih => rw [List.map_cons, itemsToJson, ih, toJson, List.map_cons]

end Toml

/-! ### The metadata of a publish -/

/-- The descriptive fields a publish carries that no index line has. -/
def descriptive : List Text :=
  ["description".toList, "authors".toList, "license".toList, "license_file".toList, "repository".toList,
    "homepage".toList, "documentation".toList, "keywords".toList, "categories".toList]

/-- The inverse of `indexDep`: an index line names the alias `name` and the real `package`, a publish body the real
`name` and the alias `explicit_name_in_toml`, and calls the requirement `version_req`. -/
def publishDep (index : Json) : Json :=
  let alias_ := (index.get "name".toList).getD .null
  let out := match (index.get "package".toList).filter isString with
    | some real => (noMembers.set "name".toList real).set "explicit_name_in_toml".toList alias_
    | none => noMembers.set "name".toList alias_
  (carry index carried (out.set "version_req".toList ((index.get "req".toList).getD (.string "*".toList)))).json

/-- A feature with a `dep:` or a `pkg?/feat` value. -/
def isModern : Json → Bool
  | .array values => values.any fun value => match value with
      | .string text => "dep:".toList <+: text || "?/".toList <:+: text
      | _ => false
  | _ => false

/-- The features every reader understands, and those only an index v2 reader does. -/
def splitFeatures (features : List (Text × Json)) : List (Text × Json) × List (Text × Json) :=
  features.partition fun feature => !isModern feature.2

/-- One entry of a dependency table. -/
def manifestDep (kind : Text) (target : Option Text) (entry : Text × Toml) : Option Json :=
  let (key, spec) := entry
  let parts : Option (Text × Option Text × Option Toml) := match spec with
    | .string req => some (req, none, none)
    | .table _ => some (((spec.get "version".toList).bind Toml.asStr).getD "*".toList,
        (spec.get "package".toList).bind Toml.asStr, some spec)
    | _ => none
  parts.map fun (req, real, fields) =>
    let get (key : Text) : Option Json := (fields.bind (·.get key)).map Toml.toJson
    let named := match real with
      | some real => (noMembers.set "name".toList (.string real)).set "explicit_name_in_toml".toList (.string key)
      | none => noMembers.set "name".toList (.string key)
    let told := (((named.set "version_req".toList (.string req)).set "kind".toList (.string kind)).set
      "features".toList ((get "features".toList).getD (.array []))).set
      "optional".toList ((get "optional".toList).getD (.bool false))
    let told := told.set "default_features".toList
      (((get "default-features".toList).or (get "default_features".toList)).getD (.bool true))
    let told := match (get "registry-index".toList).or (get "registry".toList) with
      | some registry => told.set "registry".toList registry
      | none => told
    Members.json (told.set "target".toList ((target.map Json.string).getD .null))

/-- The entries of a table, or nothing where it is none. -/
def entriesOf : Option Toml → List (Text × Toml)
  | some (.table entries) => entries
  | _ => []

/-- The dependency tables of a manifest, or of one of its targets. -/
def tablesOf (m : Toml) (target : Option Text) : List Json :=
  [("dependencies".toList, "normal".toList), ("dev-dependencies".toList, "dev".toList),
    ("build-dependencies".toList, "build".toList)].flatMap fun (section_, kind) =>
      (entriesOf (m.get section_)).filterMap (manifestDep kind target)

def manifestDeps (m : Toml) : List Json :=
  tablesOf m none ++ (entriesOf (m.get "target".toList)).flatMap fun (cfg, t) => tablesOf t (some cfg)

/-- `key.replace('_', "-")`. -/
def dashed (key : Text) : Text := key.map fun c => if c = '_' then '-' else c

/-- A descriptive field of a manifest, under either spelling. -/
def described (manifest : Option Toml) (key : Text) : Option Toml :=
  (manifest.bind (·.get "package".toList)).bind fun p => (p.get key).or (p.get (dashed key))

/-- A field that is there is set; of those that are not, a note is made where there is no manifest. -/
def describeField (manifest : Option Toml) (told : Members × List Text) (key : Text) : Members × List Text :=
  match described manifest key with
  | some v => (told.1.set key v.toJson, told.2)
  | none => if manifest.isNone then (told.1, told.2 ++ [key]) else told

def describe (manifest : Option Toml) (members : Members) : Members × List Text :=
  descriptive.foldl (describeField manifest) (members, [])

/-- What a publish says of the dependencies and the features an index line lists. -/
def resolved (line : Json) (members : Members) : Members :=
  carry line copied
    ((members.set "deps".toList (.array ((depsOf line).map publishDep))).set "features".toList
      ((line.get "features".toList).getD (.object [])))

/-- The same, of a manifest alone. -/
def fallback (m : Toml) (members : Members) : Members :=
  let package := m.get "package".toList
  let features := match (m.get "features".toList).map Toml.toJson with
    | some (.object features) => features
    | _ => []
  let (plain, two) := splitFeatures features
  let members := (members.set "deps".toList (.array (manifestDeps m))).set "features".toList (.object plain)
  let members := if two.isEmpty then members
    else (members.set "features2".toList (.object two)).set "v".toList (.number "2".toList)
  let members := match package.bind (·.get "links".toList) with
    | some links => members.set "links".toList links.toJson
    | none => members
  match package.bind (·.get "rust-version".toList) with
  | some msrv => members.set "rust_version".toList msrv.toJson
  | none => members

def nameOf (name version : Text) : Members :=
  (noMembers.set "name".toList (.string name)).set "vers".toList (.string version)

/-- `publish_meta`: resolution from the index line when there is one, description and the rest from the manifest,
and which descriptive fields could not be read. -/
def publishMeta (name version : Text) (line : Option Json) (manifest : Option Toml) (readme : Option Text) :
    Except Text (Members × List Text) :=
  let (members, dropped) := describe manifest (nameOf name version)
  let members := match readme with
    | some text => members.set "readme".toList (.string text)
    | none => members
  match line, manifest with
  | some line, _ => .ok (resolved line members, dropped)
  | none, some m => .ok (fallback m members, dropped)
  | none, none => .error ("the source has no index line and the .crate's Cargo.toml is unreadable: ".toList ++
      "no dependency list to publish".toList)

/-- `obj.retain(|_, v| !v.is_null())`. -/
def dropNulls (members : Members) : Members :=
  ⟨members.toList.filter fun member => nonNull (some member.2) ≠ none,
    members.unique.sublist (List.filter_sublist.map _)⟩

/-! ### A dependency and back -/

/-- Absent and null are the same. -/
def orNull (j : Option Json) : Json := j.getD .null

structure WellFormedDep (dep : Json) : Prop where
  name : IsText (dep.get "name".toList)
  req : IsText (dep.get "req".toList)
  package : orNull (dep.get "package".toList) = .null ∨ IsText (dep.get "package".toList)

/-- Two dependencies of an index say the same. -/
def SameDep (out dep : Json) : Prop :=
  ∀ key ∈ "name".toList :: "package".toList :: "req".toList :: carried,
    orNull (out.get key) = orNull (dep.get key)

section Deps

variable {dep : Json} {key : Text}

@[simp] theorem nonNull_nonNull (j : Option Json) : nonNull (nonNull j) = nonNull j := by
  rcases j with _ | _ | _ | _ | _ | _ | _ <;> rfl

@[simp] theorem orNull_nonNull (j : Option Json) : orNull (nonNull j) = orNull j := by
  rcases j with _ | _ | _ | _ | _ | _ | _ <;> rfl

theorem publishDep_get : (publishDep dep).get key =
    if key ∈ carried then nonNull (dep.get key)
    else if key = "version_req".toList then some ((dep.get "req".toList).getD (.string "*".toList))
    else match (dep.get "package".toList).filter isString with
      | some real =>
          if key = "explicit_name_in_toml".toList then some ((dep.get "name".toList).getD .null)
          else if key = "name".toList then some real
          else none
      | none => if key = "name".toList then some ((dep.get "name".toList).getD .null) else none := by
  rw [publishDep, get_json, carry_get]
  · cases (dep.get "package".toList).filter isString with
    | none => simp only [Entries.get_set, get_noMembers]
    | some real => simp only [Entries.get_set, get_noMembers]
  · simp only [carried, List.forall_mem_cons]
    cases (dep.get "package".toList).filter isString <;>
    · refine ⟨rfl, rfl, rfl, rfl, rfl, rfl, List.forall_mem_nil _⟩

theorem publishDep_carried (mem : key ∈ carried) : (publishDep dep).get key = nonNull (dep.get key) := by
  rw [publishDep_get, if_pos mem]

theorem publishDep_req : (publishDep dep).get "version_req".toList =
    some ((dep.get "req".toList).getD (.string "*".toList)) := by
  rw [publishDep_get, if_neg (by decide), if_pos rfl]

theorem publishDep_plain (plain : (dep.get "package".toList).filter isString = none) :
    (publishDep dep).get "explicit_name_in_toml".toList = none ∧
      (publishDep dep).get "name".toList = some ((dep.get "name".toList).getD .null) := by
  rw [publishDep_get, publishDep_get, plain, if_neg (by decide), if_neg (by decide), if_neg (by decide),
    if_neg (by decide)]
  exact ⟨rfl, rfl⟩

theorem publishDep_renamed {real : Json} (renamed : (dep.get "package".toList).filter isString = some real) :
    (publishDep dep).get "explicit_name_in_toml".toList = some ((dep.get "name".toList).getD .null) ∧
      (publishDep dep).get "name".toList = some real := by
  rw [publishDep_get, publishDep_get, renamed, if_neg (by decide), if_neg (by decide), if_neg (by decide),
    if_neg (by decide)]
  exact ⟨rfl, rfl⟩

theorem indexDep_plain (plain : dep.get "explicit_name_in_toml".toList = none) :
    (indexDep dep).get "name".toList = some ((dep.get "name".toList).getD .null) ∧
      (indexDep dep).get "package".toList = none := by
  constructor <;> rw [indexDep_get, plain, if_neg (by decide), if_neg (by decide)] <;> rfl

theorem indexDep_aliased {text : Text} (aliased : dep.get "explicit_name_in_toml".toList = some (.string text)) :
    (indexDep dep).get "name".toList = some (.string text) ∧
      (indexDep dep).get "package".toList = some ((dep.get "name".toList).getD .null) := by
  constructor <;> rw [indexDep_get, aliased, if_neg (by decide), if_neg (by decide)] <;> rfl

theorem same_dep (formed : WellFormedDep dep) : SameDep (indexDep (publishDep dep)) dep := by
  obtain ⟨name, named⟩ := formed.name
  obtain ⟨req, required⟩ := formed.req
  have names : orNull ((indexDep (publishDep dep)).get "name".toList) = orNull (dep.get "name".toList) ∧
      orNull ((indexDep (publishDep dep)).get "package".toList) = orNull (dep.get "package".toList) := by
    cases real : (dep.get "package".toList).filter isString with
    | none =>
        obtain ⟨alias_, own⟩ := publishDep_plain real
        obtain ⟨kept, left⟩ := indexDep_plain alias_
        refine ⟨by rw [kept, own]; rfl, ?_⟩
        obtain null | ⟨text, held⟩ := formed.package
        · rw [left, null]
          rfl
        · rw [held] at real
          cases real
    | some package =>
        obtain ⟨alias_, own⟩ := publishDep_renamed real
        rw [named, Option.getD_some] at alias_
        obtain ⟨kept, left⟩ := indexDep_aliased alias_
        refine ⟨by rw [kept, named], ?_⟩
        rw [left, own, (Option.filter_eq_some_iff.1 real).1]
        rfl
  have reqs : orNull ((indexDep (publishDep dep)).get "req".toList) = orNull (dep.get "req".toList) := by
    rw [indexDep_req, publishDep_req, required]
    rfl
  intro key mem
  obtain rfl | rfl | rfl | mem : key = _ ∨ key = _ ∨ key = _ ∨ key ∈ carried := by simpa only [List.mem_cons] using mem
  · exact names.1
  · exact names.2
  · exact reqs
  · rw [indexDep_get, if_pos mem, publishDep_carried mem, nonNull_nonNull, orNull_nonNull]

end Deps

/-! ### A line and back -/

/-- A line of the source's index, of the crate and the version it is asked for. -/
structure WellFormedLine (name version : Text) (line : Json) : Prop where
  name : line.get "name".toList = some (.string name)
  vers : line.get "vers".toList = some (.string version)
  deps : ∃ items, line.get "deps".toList = some (.array items) ∧ ∀ dep ∈ items, WellFormedDep dep
  features : ∃ j, line.get "features".toList = some j ∧ IsFeatures j
  links : orNull (line.get "links".toList) = .null ∨ IsText (line.get "links".toList)

/-- Two lines of an index say the same, up to absent against null. -/
structure SameLine (out line : Json) : Prop where
  name : out.get "name".toList = line.get "name".toList
  vers : out.get "vers".toList = line.get "vers".toList
  deps : ∃ outs items, out.get "deps".toList = some (.array outs) ∧ line.get "deps".toList = some (.array items) ∧
    List.Forall₂ SameDep outs items
  features : out.get "features".toList = line.get "features".toList
  copied : ∀ key ∈ copied, orNull (out.get key) = orNull (line.get key)

/-- The fields of a manifest that a publish reads have the types that cargo gives them. -/
structure TypedManifest (manifest : Option Toml) : Prop where
  texts : ∀ key ∈ ["description".toList, "license".toList, "repository".toList],
    ∀ v ∈ described manifest key, ∃ text, v = .string text
  authors : ∀ v ∈ described manifest "authors".toList, ∃ names : List Text, v = .array (names.map Toml.string)

section Fields

variable {members : Members} {key name version : Text} {line : Json} {manifest : Option Toml}
  {readme : Option Text} {dropped : List Text} {m : CargoPublishMeta}

theorem describe_fst : (describe manifest members).1 =
    setAll (fun key => (described manifest key).map Toml.toJson) descriptive members := by
  have fold (keys : List Text) (told : Members × List Text) : (keys.foldl (describeField manifest) told).1 =
      setAll (fun key => (described manifest key).map Toml.toJson) keys told.1 := by
    induction keys generalizing told with
    | nil => rfl
    | cons first rest ih =>
        rw [List.foldl_cons, ih, setAll, setAll, List.foldl_cons, describeField]
        cases described manifest first with
        | some v => rfl
        | none =>
            dsimp only [Option.map_none]
            split <;> rfl
  exact fold descriptive (members, [])

theorem dropNulls_get : (dropNulls members).get key = nonNull (members.get key) := by
  apply Option.ext
  intro a
  rw [Entries.get_eq_some_iff, dropNulls, List.mem_filter, ← Entries.get_eq_some_iff]
  cases held : members.get key with
  | none => simp [nonNull]
  | some b => cases b <;> cases a <;> simp [nonNull]

theorem publishMeta_eq (asked : publishMeta name version (some line) manifest readme = .ok (members, dropped)) :
    ∃ told : Members, members = resolved line told ∧ told.get "readme".toList = readme.map Json.string ∧
      ∀ key, key ≠ "readme".toList → told.get key =
        if key ∈ descriptive then ((described manifest key).map Toml.toJson).or ((nameOf name version).get key)
        else (nameOf name version).get key := by
  have first (key : Text) : (describe manifest (nameOf name version)).1.get key =
      if key ∈ descriptive then ((described manifest key).map Toml.toJson).or ((nameOf name version).get key)
      else (nameOf name version).get key := by
    rw [describe_fst, setAll_get]
  rw [publishMeta] at asked
  generalize describe manifest (nameOf name version) = told at asked first
  cases readme with
  | none =>
      obtain ⟨rfl, -⟩ := Prod.mk.inj (Except.ok.inj asked)
      exact ⟨_, rfl, (first _).trans (if_neg (by decide)), fun key _ => first key⟩
  | some text =>
      obtain ⟨rfl, -⟩ := Prod.mk.inj (Except.ok.inj asked)
      refine ⟨_, rfl, ?_, fun key other => by rw [Entries.get_set, if_neg other, first key]⟩
      rw [Entries.get_set, if_pos rfl]
      rfl

theorem resolved_get (absent : ∀ key ∈ copied, members.get key = none) : (resolved line members).get key =
    if key ∈ copied then nonNull (line.get key)
    else if key = "features".toList then some ((line.get "features".toList).getD (.object []))
    else if key = "deps".toList then some (.array ((depsOf line).map publishDep))
    else members.get key := by
  rw [resolved, carry_get]
  · simp only [Entries.get_set]
  · intro key mem
    rw [Entries.get_set, Entries.get_set, absent key mem, if_neg, if_neg] <;>
    · rintro rfl
      exact absurd mem (by decide)

theorem sent_get (asked : publishMeta name version (some line) manifest readme = .ok (members, dropped))
    (other : key ≠ "readme".toList) : (dropNulls members).get key =
      if key ∈ copied then nonNull (line.get key)
      else if key = "features".toList then nonNull (some ((line.get "features".toList).getD (.object [])))
      else if key = "deps".toList then some (.array ((depsOf line).map publishDep))
      else nonNull (if key ∈ descriptive then
          ((described manifest key).map Toml.toJson).or ((nameOf name version).get key)
        else (nameOf name version).get key) := by
  obtain ⟨told, rfl, -, tells⟩ := publishMeta_eq asked
  have absent : ∀ key ∈ copied, told.get key = none := by
    simp only [copied, List.forall_mem_cons]
    refine ⟨?_, ?_, ?_, ?_, List.forall_mem_nil _⟩ <;> exact tells _ (by decide)
  rw [dropNulls_get, resolved_get absent]
  split
  · exact nonNull_nonNull _
  · split
    · rfl
    · split
      · rfl
      · rw [tells key other]

theorem sent_readme (asked : publishMeta name version (some line) manifest readme = .ok (members, dropped)) :
    (dropNulls members).get "readme".toList = readme.map Json.string := by
  obtain ⟨told, rfl, shown, tells⟩ := publishMeta_eq asked
  have absent : ∀ key ∈ copied, told.get key = none := by
    simp only [copied, List.forall_mem_cons]
    refine ⟨?_, ?_, ?_, ?_, List.forall_mem_nil _⟩ <;> exact tells _ (by decide)
  rw [dropNulls_get, resolved_get absent, if_neg (by decide), if_neg (by decide), if_neg (by decide), shown]
  cases readme <;> rfl

theorem isFeatures_ne_null {j : Json} (lists : IsFeatures j) : nonNull (some j) = some j := by
  obtain ⟨items, rfl, -⟩ := lists
  rfl

theorem texts_strings (names : List Text) :
    CargoPublishMeta.texts (some (.array (names.map Json.string))) = some names := by
  rw [CargoPublishMeta.texts]
  induction names with
  | nil => rfl
  | cons name rest ih =>
      rw [List.map_cons, List.mapM_cons, ih]
      rfl

theorem sent_deps (asked : publishMeta name version (some line) manifest readme = .ok (members, dropped)) :
    (dropNulls members).get "deps".toList = some (.array ((depsOf line).map publishDep)) := by
  rw [sent_get asked (by decide), if_neg (by decide), if_neg (by decide), if_pos rfl]

theorem sent_features (asked : publishMeta name version (some line) manifest readme = .ok (members, dropped))
    (formed : WellFormedLine name version line) :
    (dropNulls members).get "features".toList = line.get "features".toList := by
  obtain ⟨j, held, lists⟩ := formed.features
  rw [sent_get asked (by decide), if_neg (by decide), if_pos rfl, held, Option.getD_some, isFeatures_ne_null lists]

theorem sent_copied (asked : publishMeta name version (some line) manifest readme = .ok (members, dropped))
    (mem : key ∈ copied) : (dropNulls members).get key = nonNull (line.get key) := by
  have other : key ≠ "readme".toList := by
    rintro rfl
    exact absurd mem (by decide)
  rw [sent_get asked other, if_pos mem]

theorem sent_name (asked : publishMeta name version (some line) manifest readme = .ok (members, dropped)) :
    (dropNulls members).get "name".toList = some (.string name) ∧
      (dropNulls members).get "vers".toList = some (.string version) := by
  constructor <;>
  · rw [sent_get asked (by decide), if_neg (by decide), if_neg (by decide), if_neg (by decide), if_neg (by decide)]
    rfl

/-- Where cargo's types hold of the line and the manifest, what is sent is accepted as metadata. -/
theorem sent_accepted (asked : publishMeta name version (some line) manifest readme = .ok (members, dropped))
    (formed : WellFormedLine name version line) (typed : TypedManifest manifest) :
    ∃ m, CargoPublishMeta.ofJson (dropNulls members).json = some m := by
  obtain ⟨named, versioned⟩ := sent_name asked
  have told (key : Text) (described_ : key ∈ descriptive) (apart : key ∉ copied ∧ key ≠ "features".toList ∧
      key ≠ "deps".toList ∧ key ≠ "readme".toList) (none_ : (nameOf name version).get key = none) :
      (dropNulls members).get key = nonNull ((described manifest key).map Toml.toJson) := by
    rw [sent_get asked apart.2.2.2, if_neg apart.1, if_neg apart.2.1, if_neg apart.2.2.1, if_pos described_, none_,
      Option.or_none]
  have text (key : Text) (mem : key ∈ ["description".toList, "license".toList, "repository".toList])
      (sent : (dropNulls members).get key = nonNull ((described manifest key).map Toml.toJson)) :
      ∃ text, CargoPublishMeta.optText ((dropNulls members).get key) = some text := by
    rw [sent]
    cases shown : described manifest key with
    | none => exact ⟨none, rfl⟩
    | some v =>
        obtain ⟨text, rfl⟩ := typed.texts key mem v shown
        exact ⟨some text, rfl⟩
  refine ofJson_accepts named versioned ?_ ?_
  · rw [told _ (by decide) (by decide) rfl]
    cases shown : described manifest "authors".toList with
    | none => exact ⟨[], rfl⟩
    | some v =>
        obtain ⟨names, rfl⟩ := typed.authors v shown
        refine ⟨names, ?_⟩
        rw [Option.map_some, Toml.toJson, Toml.itemsToJson_strings]
        exact texts_strings names
  · simp only [List.forall_mem_cons]
    refine ⟨text _ (by decide) (told _ (by decide) (by decide) rfl), text _ (by decide) (told _ (by decide) (by decide) rfl),
      ?_, text _ (by decide) (told _ (by decide) (by decide) rfl), ?_,
      List.forall_mem_nil _⟩
    · rw [sent_readme asked]
      cases readme with
      | none => exact ⟨none, rfl⟩
      | some text => exact ⟨some text, rfl⟩
    · rw [sent_copied asked (by decide)]
      obtain null | ⟨text, held⟩ := formed.links
      · refine ⟨none, ?_⟩
        cases linked : line.get "links".toList with
        | none => rfl
        | some j =>
            rw [linked, orNull, Option.getD_some] at null
            rw [null]
            rfl
      · rw [held]
        exact ⟨some text, rfl⟩

theorem same_line (asked : publishMeta name version (some line) manifest readme = .ok (members, dropped))
    (formed : WellFormedLine name version line) (read : CargoPublishMeta.ofJson (dropNulls members).json = some m)
    {row : Version} (versioned : row.version = m.vers) (stored : row.metadata = m.toJson) :
    SameLine (buildIndexLine m.name row) line := by
  obtain ⟨named, vers, deps, features, links, features2, extra⟩ := ofJson_fields read
  rw [(sent_name asked).1] at named
  rw [(sent_name asked).2] at vers
  rw [sent_deps asked] at deps
  rw [sent_features asked formed] at features
  have named : name = m.name := by simpa using named
  have vers : version = m.vers := by simpa using vers
  refine ⟨?_, ?_, ?_, ?_, ?_⟩
  · rw [formed.name, named]
    exact buildIndexLine_get m.name row
  · rw [formed.vers, vers, ← versioned]
    exact buildIndexLine_get m.name row
  · obtain ⟨items, held, each⟩ := formed.deps
    refine ⟨_, items, line_deps m.name row, held, ?_⟩
    have listed : depsOf row.metadata = items.map publishDep := by
      rw [depsOf, stored, toJson_deps, deps, Option.getD_some, depsOf, held]
    rw [listed, List.map_map, List.forall₂_map_left_iff, List.forall₂_same]
    exact fun dep mem => same_dep (each dep mem)
  · obtain ⟨j, held, -⟩ := formed.features
    rw [line_features, stored, toJson_features, features, held]
    rfl
  · have other : ∀ key ∈ ["v".toList, "rust_version".toList],
        orNull (m.toJson.get key) = orNull (line.get key) := by
      simp only [List.forall_mem_cons]
      refine ⟨?_, ?_, List.forall_mem_nil _⟩ <;>
        rw [toJson_extra (by decide), extra _ (by decide), sent_copied asked (by decide), orNull_nonNull]
    simp only [List.forall_mem_cons] at other
    intro key mem
    rw [buildIndexLine_get, if_pos mem, stored]
    simp only [copied, List.mem_cons, List.not_mem_nil, or_false] at mem
    obtain rfl | rfl | rfl | rfl := mem
    · exact other.1
    · rw [toJson_features2, features2, sent_copied asked (by decide), nonNull_nonNull]
      exact orNull_nonNull _
    · rw [toJson_links, links, sent_copied asked (by decide)]
      exact orNull_nonNull _
    · exact other.2.1

end Fields

section RoundTrip

variable {serde : Serde} {print : Json → Bytes} {name version : Text} {line : Json} {manifest : Option Toml}
  {readme : Option Text} {members : Members} {dropped : List Text} {crate : Bytes}

/-- A line with a renamed dependency. -/
def aliasedLine : Json :=
  .object [("name".toList, .string "a".toList), ("vers".toList, .string "1.0.0".toList),
    ("deps".toList, .array [.object [("name".toList, .string "tk".toList), ("package".toList, .string "tokio".toList),
      ("req".toList, .string "^1".toList), ("kind".toList, .string "dev".toList)]]),
    ("features".toList, .object []), ("v".toList, .number "2".toList)]

theorem aliasedLine_formed : WellFormedLine "a".toList "1.0.0".toList aliasedLine where
  name := rfl
  vers := rfl
  deps := by
    refine ⟨_, rfl, fun dep mem => ?_⟩
    obtain rfl := List.mem_singleton.1 mem
    exact ⟨⟨_, rfl⟩, ⟨_, rfl⟩, .inr ⟨_, rfl⟩⟩
  features := ⟨_, rfl, [], rfl, List.forall_mem_nil _⟩
  links := .inl rfl

/-- What is sent of it, as `serde_json` prints it. -/
def aliasedText : Text :=
  ("\x7b\"deps\":[\x7b\"explicit_name_in_toml\":\"tk\",\"kind\":\"dev\",\"name\":\"tokio\",".toList ++
    "\"version_req\":\"^1\"\x7d],\"features\":\x7b\x7d,\"name\":\"a\",\"v\":2,\"vers\":\"1.0.0\"\x7d".toList)

end RoundTrip

end OpenCargo.Cargo
