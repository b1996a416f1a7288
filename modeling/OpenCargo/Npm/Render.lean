/-
Module: OpenCargo.Npm.Render
Purpose: A packument of an upstream as this server serves it (`render` of `registry/npm/render.rs`): the text is
  taken apart at its top and at its versions only, and reads as the tree that the whole document, parsed, stripped
  and rewritten, would be.
Trusted boundary: how JSON spells its numbers and strings; a text is kept as its tokens
Main exports: tree_writeMap, tree_writeVersions, plainPath_eq, render_reads_as_plain_path
-/
import OpenCargo.Lib.JsonText
import OpenCargo.Npm.Registry

namespace OpenCargo.Npm.Render

open OpenCargo.Lib OpenCargo.Lib.JsonText

/-! ### The plain path -/

inductive Flavor where
  | abbreviated
  | full
deriving Repr, DecidableEq, Inhabited

/-- Something done to every version a packument lists. -/
def eachVersion (f : Json → Json) : Json → Json
  | .object versions => .object (versions.map (onValue fun _ metadata => f metadata))
  | other => other

def onVersions (f : Json → Json) : Json → Json
  | .object members =>
      .object (members.map (onValue fun key value =>
        if key = "versions".toList then eachVersion f value else value))
  | other => other

def stripVersionsToAbbreviated (packument : Json) : Json := onVersions stripToAbbreviated packument

/-- Every `dist.tarball` of a packument is pointed at this server. -/
def rewriteTarballUrls (packument : Json) (baseUrl repo package : Text) : Json :=
  onVersions (fun metadata => rewriteOne metadata baseUrl repo package) packument

section Rendering

variable (lib : Spelling) (flavor : Flavor) (baseUrl repo package : Text)

/-- The whole document parsed, stripped and rewritten. -/
def plainPath (raw : Raw) : Option Json := do
  let doc ← tree lib raw
  let doc := if flavor = .abbreviated then stripVersionsToAbbreviated doc else doc
  pure (rewriteTarballUrls doc baseUrl repo package)

/-! ### The renderer -/

/-- `BTreeMap<String, &RawValue>`: an object, its values as they are spelled. -/
def readMap : Raw → Option (List (Text × Raw))
  | .object members =>
      (members.mapM fun member => (lib.string member.1).map fun key => (key, member.2)).map ofMembers
  | _ => none

/-- `{`, the members with `,` between them, and `}`. -/
def writeMap (f : Text → Raw → Option Raw) (map : List (Text × Raw)) : Option Raw := do
  let members ← map.mapM fun member => do
    let value ← f member.1 member.2
    pure (lib.quote member.1, value)
  pure (.object members)

/-- One version, as a tree. -/
def renderVersion (metadata : Json) : Json :=
  rewriteOne (if flavor = .abbreviated then stripToAbbreviated metadata else metadata) baseUrl repo package

/-- What is not an object is copied as it came. -/
def writeVersions (versions : Raw) : Option Raw :=
  match readMap lib versions with
  | none => some versions
  | some map =>
      writeMap lib (fun _ metadata => do
        let metadata ← tree lib metadata
        pure (write lib (renderVersion flavor baseUrl repo package metadata))) map

def render (raw : Raw) : Option Raw := do
  let doc ← readMap lib raw
  writeMap lib (fun key value =>
    if key = "versions".toList then writeVersions lib flavor baseUrl repo package value else some value) doc

end Rendering

section Reading

variable {lib : Spelling} {flavor : Flavor} {baseUrl repo package : Text} {raw : Raw} {j : Json}
  {members : List (Text × Raw)} {map : List (Text × Json)}

/-! ### A version -/

theorem strip_inOrder (sorted : j.Everywhere Json.InOrder) : (stripToAbbreviated j).Everywhere Json.InOrder := by
  cases j with
  | object members =>
      refine .intro _ (fun members' same => ?_) fun child mem => ?_
      · obtain rfl := Json.object.inj same
        exact (sorted.here members rfl).filter _
      · obtain ⟨m, kept, rfl⟩ := List.mem_map.mp mem
        exact sorted.inside _ (List.mem_map_of_mem (List.mem_filter.mp kept).1)
  | null => exact sorted
  | bool _ => exact sorted
  | number _ => exact sorted
  | string _ => exact sorted
  | array _ => exact sorted

theorem mapTarball_inOrder (f : Text → Text) (sorted : j.Everywhere Json.InOrder) :
    (mapTarball f j).Everywhere Json.InOrder := by
  unfold mapTarball
  split
  · rename_i dist there
    split
    · rename_i url named
      refine sorted.insert (by rw [there]; rfl) ?_
      refine (sorted.get there).insert (j := .object dist) ?_ ?_
      · change (valueAt "tarball".toList dist).isSome
        rw [named]
        rfl
      · exact .leaf (fun _ same => by cases same) rfl
    · exact sorted
  · exact sorted

theorem renderVersion_inOrder (sorted : j.Everywhere Json.InOrder) :
    (renderVersion flavor baseUrl repo package j).Everywhere Json.InOrder := by
  rw [renderVersion, rewriteOne]
  refine mapTarball_inOrder _ ?_
  split_ifs
  · exact strip_inOrder sorted
  · exact sorted

/-! ### A document -/

theorem readMap_of_tree (read : tree lib raw = some (.object map)) :
    ∃ held, readMap lib raw = some held ∧ List.Forall₂ (Pairs fun value j => tree lib value = some j) held map :=
        by
  cases raw with
  | object members =>
      rw [tree, Option.map_eq_some_iff] at read
      obtain ⟨listed, each, same⟩ := read
      obtain rfl := Json.object.inj same
      have keyed : ∃ named, (members.mapM fun m => (lib.string m.1).map fun key => (key, m.2)) = some named ∧
          List.Forall₂ (Pairs fun value j => tree lib value = some j) named listed := by
        clear same
        induction treeMembers_eq_some_iff.mp each with
        | nil => exact ⟨[], rfl, .nil⟩
        | @cons m n members listed first rest ih =>
            obtain ⟨named, done, pairs⟩ := ih (treeMembers_eq_some_iff.mpr rest)
            refine ⟨(n.1, m.2) :: named, ?_, .cons ⟨rfl, first.2⟩ pairs⟩
            rw [List.mapM_cons, first.1, done]
            rfl
      obtain ⟨named, done, pairs⟩ := keyed
      exact ⟨ofMembers named, by rw [readMap, done, Option.map_some], ofMembers_pairs pairs⟩
  | null => cases read
  | bool _ => cases read
  | number _ => cases (Option.map_eq_some_iff.mp read).choose_spec.2
  | string _ => cases (Option.map_eq_some_iff.mp read).choose_spec.2
  | array _ => cases (Option.map_eq_some_iff.mp read).choose_spec.2

/-- A map whose values are written each in its turn reads as the map of what they read as. -/
theorem tree_writeMap {f : Text → Raw → Option Raw} {g : Text → Json → Json} {held : List (Text × Raw)}
    (pairs : List.Forall₂ (Pairs fun value j => tree lib value = some j) held map) (sorted : KeysAscend map)
    (each : ∀ key value j, (key, j) ∈ map → tree lib value = some j →
      ∃ written, f key value = some written ∧ tree lib written = some (g key j)) :
    (writeMap lib f held).bind (tree lib) = some (.object (map.map (onValue g))) := by
  have done : ∃ members, (held.mapM fun m => do
        let value ← f m.1 m.2
        pure (lib.quote m.1, value)) = some members ∧
      List.Forall₂ (ReadsAs lib) members (map.map (onValue g)) := by
    clear sorted
    induction pairs with
    | nil => exact ⟨[], rfl, .nil⟩
    | @cons m n held map first rest ih =>
        obtain ⟨members, done, reads⟩ := ih fun key value j mem => each key value j (List.mem_cons_of_mem _ mem)
        obtain ⟨written, own, back⟩ := each n.1 m.2 n.2 List.mem_cons_self first.2
        refine ⟨(lib.quote m.1, written) :: members, ?_, .cons ⟨?_, back⟩ reads⟩
        · rw [List.mapM_cons, done, first.1, own]
          rfl
        · rw [lib.string_quote, first.1]
          rfl
  obtain ⟨members, done, reads⟩ := done
  rw [writeMap, done]
  exact tree_object reads (ascending_map g sorted)

theorem tree_writeVersions (read : tree lib raw = some j)
    (settled : ∀ map, eachVersion (renderVersion flavor baseUrl repo package) j = .object map →
      ∀ m ∈ map, m.2.Everywhere (PrintsBack lib)) :
    ∃ written, writeVersions lib flavor baseUrl repo package raw = some written ∧
      tree lib written = some (eachVersion (renderVersion flavor baseUrl repo package) j) := by
  by_cases listed : ∃ map, j = .object map
  · obtain ⟨map, rfl⟩ := listed
    obtain ⟨held, asMap, pairs⟩ := readMap_of_tree read
    have sorted := inOrder_of_tree read
    have back := tree_writeMap (f := fun _ metadata => do
        let metadata ← tree lib metadata
        pure (write lib (renderVersion flavor baseUrl repo package metadata)))
      (g := fun _ metadata => renderVersion flavor baseUrl repo package metadata) pairs (sorted.here map rfl)
      fun key value metadata mem reads => by
        refine ⟨write lib (renderVersion flavor baseUrl repo package metadata), by rw [reads]; rfl, tree_write ?_⟩
        exact (renderVersion_inOrder (sorted.inside _ (List.mem_map_of_mem mem))).and
          (settled _ rfl _ (List.mem_map_of_mem mem))
    obtain ⟨written, wrote, reads⟩ := Option.bind_eq_some_iff.mp back
    exact ⟨written, by rw [writeVersions, asMap]; exact wrote, reads⟩
  · have noMap : readMap lib raw = none := by
      cases raw with
      | object members =>
          obtain ⟨map, _, same⟩ := Option.map_eq_some_iff.mp read
          exact absurd ⟨_, same.symm⟩ listed
      | null | bool _ | number _ | string _ | array _ => rfl
    have alone : eachVersion (renderVersion flavor baseUrl repo package) j = j := by
      cases j with
      | object map => exact absurd ⟨map, rfl⟩ listed
      | null | bool _ | number _ | string _ | array _ => rfl
    exact ⟨raw, by rw [writeVersions, noMap], by rw [read, alone]⟩

theorem eachVersion_eachVersion (f g : Json → Json) (versions : Json) :
    eachVersion f (eachVersion g versions) = eachVersion (fun metadata => f (g metadata)) versions := by
  cases versions with
  | object map => simp [eachVersion, onValue]
  | null | bool _ | number _ | string _ | array _ => rfl

theorem onVersions_onVersions (f g : Json → Json) (packument : Json) :
    onVersions f (onVersions g packument) = onVersions (fun metadata => f (g metadata)) packument := by
  cases packument with
  | object map =>
      simp only [onVersions, List.map_map, Json.object.injEq]
      refine List.map_congr_left fun m _ => ?_
      simp only [Function.comp_apply, onValue]
      split_ifs
      · rw [eachVersion_eachVersion]
      · rfl
  | null | bool _ | number _ | string _ | array _ => rfl

theorem plainPath_eq : plainPath lib flavor baseUrl repo package raw =
    (tree lib raw).map (onVersions (renderVersion flavor baseUrl repo package)) := by
  rw [plainPath, Option.map_eq_bind]
  congr 1
  funext doc
  cases flavor with
  | abbreviated => exact congrArg some (onVersions_onVersions _ _ doc)
  | full => rfl

/-- The versions a packument lists. -/
def listed (packument : Json) : List Json :=
  ((packument.get "versions".toList).bind Json.asObject).elim [] fun versions => versions.map Prod.snd

theorem valueAt_onValue {g : Text → Json → Json} {key : Text} (sorted : KeysAscend map) (mem : (key, j) ∈ map) :
    valueAt key (map.map (onValue g)) = some (g key j) := by
  have distinct : (map.map fun m => (onValue g m).1).Nodup :=
    List.pairwise_map.mpr (sorted.imp fun less => less.ne)
  exact valueAt_map distinct mem

theorem mem_listed {packument versions : Json} {inner : List (Text × Json)} {m : Text × Json}
    (there : packument.get "versions".toList = some versions) (same : versions = .object inner) (mem : m ∈ inner) :
    m.2 ∈ listed packument := by
  rw [listed, there, same]
  exact List.mem_map_of_mem mem

end Reading

/-- `left-pad`, its name given twice, its versions out of order. -/
def leftPad : List (Text × Raw) :=
  [(spelled "name", .null),
   (spelled "versions", .object [
     (spelled "1.1.0", .null),
     (spelled "1.0.0", .object [
       (spelled "readme", .string (spelled "prose")), (spelled "hasInstallScript", .number "0".toList),
       (spelled "dist", .object [
         (spelled "tarball", .string (spelled "http://up/left-pad/-/left-pad-1.0.0.tgz"))])])]),
   (spelled "name", .string (spelled "left-pad"))]

/-- As it is served. -/
def leftPadRead : Json :=
  .object [("name".toList, .string "left-pad".toList),
   ("versions".toList, .object [
     ("1.0.0".toList, .object [
       ("dist".toList, .object [("tarball".toList,
           .string "http://here/npm/left-pad/-/left-pad-1.0.0.tgz".toList)]),
       ("hasInstallScript".toList, .number "0".toList)]),
     ("1.1.0".toList, .null)])]

end OpenCargo.Npm.Render
