/-
Module: OpenCargo.Groups.Depth
Purpose: How deep groups stack up along a run of creates, updates and deletes. Each call gives at most
  one name another member list; a definition is measured below its members only, so the groups above
  it, and what the measure leaves out, have to have room.
Trusted boundary: none
Main exports: Effect, perform_effect, RoomFor, groups_stay_within_their_depth_iff
-/
import OpenCargo.Groups.Walks
import OpenCargo.Lib.Run

namespace OpenCargo.Groups

open OpenCargo.Lib (Fueled Run Any Lists Stack Shallow HasRoom)
open OpenCargo.Lib.Fueled (Answers answers_pure answers_of answers_bind answers_foldlM)
open OpenCargo.Resolve (maxGroupDepth)

variable {env : Env} {catalog after : Catalog} {spec : RepoSpec} {name : Text}

/-! ### What the calls do to the member lists -/

@[simp] theorem RepoKind.parse_asStr (kind : RepoKind) : RepoKind.parse kind.asStr = .ok kind := by
  cases kind <;> rfl

theorem Catalog.kids_congr {other : Catalog} {name' : Text}
    (same : other.byName name' = catalog.byName name) : other.kids name' = catalog.kids name := by
  simp only [Catalog.kids, groupMembers, same]

theorem Catalog.kids_of_byName {row : Row} (isRow : catalog.byName name = some row) :
    catalog.kids name = if row.appKind = .ok .group then some row.members else none := by
  simp only [Catalog.kids, groupMembers, isRow]
  cases row.appKind with
  | error e => simp [Except.map, Except.toOption]
  | ok kind => cases kind <;> simp [Except.map, Except.toOption]

theorem Catalog.kids_of_absent (absent : catalog.byName name = none) : catalog.kids name = none := by
  simp [Catalog.kids, groupMembers, absent, Except.toOption]

theorem Catalog.kids_add (absent : catalog.byName spec.name = none) :
    (catalog.add spec absent).kids = Function.update catalog.kids spec.name
      (if spec.kind = .group then some spec.members else none) := by
  funext name
  by_cases same : name = spec.name
  · subst same
    have found : (catalog.add spec absent).byName spec.name = some (catalog.rowOf spec) :=
      byName_eq_some_iff.mpr ⟨List.mem_append_right _ List.mem_cons_self, rfl⟩
    rw [kids_of_byName found, Function.update_self]
    cases kind : spec.kind <;>
      simp [Row.appKind, Repository.kind, rowOf, kind, Except.mapError, RepoSpec.config,
        Repository.members]
  · rw [Function.update_of_ne same]
    refine kids_congr ?_
    have apart : ((catalog.rowOf spec).name == name) = false := by
      simpa using fun named => same named.symm
    simp [byName, add, List.find?_append, apart]

theorem Catalog.kids_patched {update : RepoUpdate} :
    (catalog.patched name update.patch).kids = Function.update catalog.kids name
      ((catalog.kids name).map fun members => update.members.getD members) := by
  have read : ∀ n, (catalog.patched name update.patch).byName n =
      (catalog.byName n).map fun row => if row.name = name then update.patch.apply row else row :=
    fun n => Lib.find?_updateAt fun _ _ => rfl
  funext n
  by_cases same : n = name
  · subst same
    rw [Function.update_self]
    cases found : catalog.byName n with
    | none => rw [kids_of_absent (by rw [read, found]; rfl), kids_of_absent found]; rfl
    | some row =>
        have named := (byName_eq_some_iff.mp found).2
        have now : (catalog.patched n update.patch).byName n = some (update.patch.apply row) := by
          rw [read, found, Option.map_some, if_pos named]
        rw [kids_of_byName now, kids_of_byName found]
        have kept : (update.patch.apply row).appKind = row.appKind := rfl
        rw [kept]
        split
        · cases given : update.members <;>
            simp [RepoPatch.apply, RepoUpdate.patch, given, Repository.members]
        · rfl
  · rw [Function.update_of_ne same]
    refine kids_congr ?_
    rw [read]
    cases found : catalog.byName n with
    | none => rfl
    | some row =>
        have named := (byName_eq_some_iff.mp found).2
        rw [Option.map_some, if_neg (named ▸ same)]

theorem Catalog.kids_without {row : Row} (isRow : catalog.byName name = some row) :
    (catalog.without row.id).kids = Function.update catalog.kids name none := by
  obtain ⟨mem, rfl⟩ := byName_eq_some_iff.mp isRow
  have inside : ∀ r, r ∈ (catalog.without row.id).rows ↔ r ∈ catalog.rows ∧ r.id ≠ row.id := by
    simp [without]
  funext n
  by_cases same : n = row.name
  · subst same
    rw [Function.update_self]
    refine kids_of_absent (Option.eq_none_iff_forall_ne_some.mpr fun r found => ?_)
    obtain ⟨left, named⟩ := byName_eq_some_iff.mp found
    obtain ⟨old, apart⟩ := (inside r).mp left
    cases List.inj_on_of_nodup_map catalog.names old mem named
    exact apart rfl
  · rw [Function.update_of_ne same]
    refine kids_congr (Option.ext fun r => ?_)
    rw [byName_eq_some_iff, byName_eq_some_iff, inside]
    constructor
    · rintro ⟨⟨old, _⟩, named⟩
      exact ⟨old, named⟩
    · rintro ⟨old, named⟩
      refine ⟨⟨old, fun sameId => ?_⟩, named⟩
      cases List.inj_on_of_nodup_map catalog.ids old mem sameId
      exact same named.symm

/-! ### What an accepted definition is known to be -/

theorem validateMember_spec {member : Text} {below : Nat}
    (accepted : Answers (validateMember catalog spec member) below) :
    member ≠ spec.name ∧ ¬Relation.TransGen (Lists catalog.kids) member spec.name := by
  rw [validateMember] at accepted
  obtain ⟨⟨_, _⟩, -, rest⟩ := answers_bind.mp accepted
  dsimp only at rest
  split at rest
  · cases answers_of.mp rest
  · rename_i other
    split at rest
    · cases answers_of.mp rest
    · rename_i row isRow
      obtain ⟨⟨found, seen⟩, walked, rest⟩ := answers_bind.mp rest
      cases found with
      | true => cases answers_of.mp rest
      | false => exact ⟨other, not_reached_of_answers isRow walked⟩

theorem validateSpec_group (group : spec.kind = .group)
    (accepted : Answers (validateSpec env catalog spec) ()) :
    spec.upstream = none ∧ ∀ member ∈ spec.members,
      member ≠ spec.name ∧ ¬Relation.TransGen (Lists catalog.kids) member spec.name := by
  rw [validateSpec, group] at accepted
  obtain ⟨_, -, rest⟩ := answers_bind.mp accepted
  obtain ⟨_, noUpstream, rest⟩ := answers_bind.mp (show Answers (_ >>= _) () from rest)
  constructor
  · have refused := answers_of.mp noUpstream
    rw [RepoSpec.refuseUpstream] at refused
    split at refused
    · cases refused
    · assumption
  · rw [validateMembers] at rest
    split at rest
    · cases answers_of.mp rest
    · obtain ⟨deepest, loop, -⟩ := answers_bind.mp rest
      intro member mem
      obtain ⟨_, _, turn⟩ := Lib.Fueled.turns_of_answers_foldlM loop member mem
      obtain ⟨below, accepted, -⟩ := answers_bind.mp turn
      exact validateMember_spec accepted

/-! ### What a call writes -/

/-- The calls that write a group definition: which name, with which members. -/
inductive Act.Defines (env : Env) (catalog : Catalog) : Act → Text → List Text → Prop where
  | create {spec : RepoSpec} (absent : catalog.byName spec.name = none)
      (free : refuseReserved env spec.name = .ok ())
      (valid : Answers (validateSpec env catalog spec) ()) (group : spec.kind = .group) :
      Defines env catalog (.create spec (.ok none) false) spec.name spec.members
  | update {name : Text} {update : RepoUpdate} {purged : Except AppError Unit} {row : Row}
      {spec : RepoSpec} {members : List Text} (loaded : loadRepo catalog name = .ok row)
      (merged : mergedSpec row update = .ok spec)
      (valid : Answers (validateSpec env catalog spec) ()) (group : spec.kind = .group)
      (given : update.members = some members) :
      Defines env catalog (.update name update purged) name members

theorem loadRepo_eq_ok_iff {row : Row} :
    loadRepo catalog name = .ok row ↔ catalog.byName name = some row := by
  rw [loadRepo]
  cases catalog.byName name <;> simp

theorem mergedSpec_eq_ok {row : Row} {update : RepoUpdate} (merged : mergedSpec row update = .ok spec) :
    row.appKind = .ok spec.kind ∧ spec.name = row.name ∧
      spec.upstream = update.upstream.or row.upstreamUrl ∧
      spec.members = update.members.getD row.members := by
  obtain ⟨kind, read, rest⟩ := Lib.bind_eq_ok.mp merged
  obtain ⟨format, -, rest⟩ := Lib.bind_eq_ok.mp rest
  cases rest
  exact ⟨read, rfl, rfl, rfl⟩

theorem createRepository_spec {legacyBytes : Except AppError (Option Text)} {claimed : Bool} {row : Row} :
    Answers (createRepository env catalog spec legacyBytes claimed) (row, after) ↔
      refuseReserved env spec.name = .ok () ∧ Answers (validateSpec env catalog spec) () ∧
        legacyBytes = .ok none ∧ claimed = false ∧ row = catalog.rowOf spec ∧
        ∃ absent : catalog.byName spec.name = none, after = catalog.add spec absent := by
  rw [createRepository]
  by_cases found : catalog.byName spec.name = none
  · simp only [found, Option.isSome_none, Bool.false_eq_true, if_false, answers_bind, answers_of]
    constructor
    · rintro ⟨_, free, _, valid, lead, listed, rest⟩
      refine ⟨free, valid, ?_⟩
      cases lead with
      | some lead => simp at rest
      | none =>
          cases claimed with
          | true => simp [Catalog.create, Except.mapError] at rest
          | false =>
              simp only [Catalog.create, Bool.false_eq_true, if_false, dif_pos found, answers_of,
                Except.mapError] at rest
              cases rest
              exact ⟨listed, rfl, rfl, trivial, rfl⟩
    · rintro ⟨free, valid, rfl, rfl, rfl, _, rfl⟩
      refine ⟨(), free, (), valid, none, rfl, ?_⟩
      simp [Catalog.create, found, Except.mapError]
  · have taken : (catalog.byName spec.name).isSome = true := Option.isSome_iff_ne_none.mpr found
    rw [if_pos taken]
    constructor
    · intro done
      cases answers_of.mp done
    · rintro ⟨-, -, -, -, -, absent, -⟩
      exact absurd absent found

theorem updateRepository_spec {update : RepoUpdate} {purged : Except AppError Unit} {updated : Row}
    (done : Answers (updateRepository env catalog name update purged) (updated, after)) :
    ∃ row spec, loadRepo catalog name = .ok row ∧ mergedSpec row update = .ok spec ∧
      Answers (validateSpec env catalog spec) () ∧ after = catalog.patched name update.patch := by
  rw [updateRepository] at done
  obtain ⟨row, loaded, rest⟩ := answers_bind.mp done
  obtain ⟨spec, merged, rest⟩ := answers_bind.mp rest
  obtain ⟨_, valid, rest⟩ := answers_bind.mp rest
  refine ⟨row, spec, answers_of.mp loaded, answers_of.mp merged, valid, ?_⟩
  obtain ⟨_, -, rest⟩ := answers_bind.mp rest
  have written := answers_of.mp rest
  rw [Catalog.update] at written
  split at written
  · cases written
    rfl
  · cases written

/-- What a call leaves of the member lists. -/
inductive Effect (env : Env) (catalog : Catalog) (act : Act) (after : Catalog) : Prop where
  | same (kept : after.kids = catalog.kids)
  | dropped (name : Text) (left : after.kids = Function.update catalog.kids name none)
  | defined (name : Text) (members : List Text) (defines : act.Defines env catalog name members)
      (written : after.kids = Function.update catalog.kids name (some members))

theorem perform_effect {act : Act} (done : Answers (perform env catalog act) after) :
    Effect env catalog act after := by
  cases act with
  | create spec legacyBytes claimed =>
      obtain ⟨⟨row, _⟩, created, rest⟩ := answers_bind.mp done
      cases answers_pure.mp rest
      obtain ⟨free, valid, rfl, rfl, -, absent, rfl⟩ := createRepository_spec.mp created
      have written := Catalog.kids_add absent
      by_cases group : spec.kind = .group
      · rw [if_pos group] at written
        exact .defined _ _ (.create absent free valid group) written
      · rw [if_neg group] at written
        exact .dropped _ written
  | update name update purged =>
      obtain ⟨⟨row, _⟩, updated, rest⟩ := answers_bind.mp done
      cases answers_pure.mp rest
      obtain ⟨row, spec, loaded, merged, valid, rfl⟩ := updateRepository_spec updated
      have written : (catalog.patched name update.patch).kids = _ := Catalog.kids_patched
      have read := Catalog.kids_of_byName (loadRepo_eq_ok_iff.mp loaded)
      obtain ⟨kind, -⟩ := mergedSpec_eq_ok merged
      by_cases group : spec.kind = .group
      · cases given : update.members with
        | none =>
            refine .same ?_
            rw [written, given]
            simp
        | some members =>
            rw [read, kind, group, if_pos rfl, Option.map_some, given, Option.getD_some] at written
            exact .defined _ _ (.update loaded merged valid group given) written
      · have notGroup : ¬row.appKind = .ok .group := by
          rw [kind]
          exact fun same => group (Except.ok.inj same)
        rw [read, if_neg notGroup, Option.map_none] at written
        exact .dropped _ written
  | delete name occupied =>
      have deleted := answers_of.mp done
      obtain ⟨row, loaded, rest⟩ := Lib.bind_eq_ok.mp deleted
      obtain ⟨holders, -, rest⟩ := Lib.bind_eq_ok.mp rest
      split at rest
      · have isRow := loadRepo_eq_ok_iff.mp loaded
        simp only [Catalog.retire, isRow] at rest
        split at rest
        · cases rest
        · cases rest
          exact .dropped _ (Catalog.kids_without isRow)
      · cases rest

theorem step_of_defines {act : Act} {members : List Text}
    (defines : act.Defines env catalog name members) :
    ∃ after, step env catalog act = some after ∧
      after.kids = Function.update catalog.kids name (some members) := by
  have took : ∀ {after}, Answers (perform env catalog act) after →
      step env catalog act = some after := by
    intro after done
    rw [step, done]
  cases defines with
  | @create spec absent free valid group =>
      have created : Answers (createRepository env catalog spec (.ok none) false)
          (catalog.rowOf spec, catalog.add spec absent) :=
        createRepository_spec.mpr ⟨free, valid, rfl, rfl, rfl, absent, rfl⟩
      refine ⟨_, took (answers_bind.mpr ⟨_, created, answers_pure.mpr rfl⟩), ?_⟩
      rw [Catalog.kids_add absent, if_pos group]
  | @update _ update purged row spec _ loaded merged valid group given =>
      have isRow := loadRepo_eq_ok_iff.mp loaded
      obtain ⟨kind, -, upstream, -⟩ := mergedSpec_eq_ok merged
      -- a group has no upstream, so nothing is purged
      have noUpstream : update.upstream = none := by
        rw [(validateSpec_group group valid).1] at upstream
        exact (Option.or_eq_none_iff.mp upstream.symm).1
      have found : (catalog.patched name update.patch).byName name = some (update.patch.apply row) := by
        obtain ⟨mem, named⟩ := Catalog.byName_eq_some_iff.mp isRow
        exact Catalog.byName_eq_some_iff.mpr
          ⟨Lib.mem_updateAt.mpr (.inr ⟨row, mem, named, rfl⟩), named⟩
      have updated : Answers (updateRepository env catalog name update purged)
          (update.patch.apply row, catalog.patched name update.patch) := by
        rw [updateRepository]
        refine answers_bind.mpr ⟨row, answers_of.mpr loaded, ?_⟩
        refine answers_bind.mpr ⟨spec, answers_of.mpr merged, ?_⟩
        refine answers_bind.mpr ⟨(), valid, ?_⟩
        refine answers_bind.mpr ⟨(), ?_, ?_⟩
        · simp [noUpstream]
        · simp [Catalog.update, found, Except.mapError]
      refine ⟨_, took (answers_bind.mpr ⟨_, updated, answers_pure.mpr rfl⟩), ?_⟩
      rw [Catalog.kids_patched, Catalog.kids_of_byName isRow, kind, group, if_pos rfl,
        Option.map_some, given, Option.getD_some]

/-! ### The depth along a run -/

/-- A definition a call writes has room between the groups above it and those below its members. -/
def RoomFor (env : Env) (catalog : Catalog) (act : Act) : Prop :=
  ∀ name members, act.Defines env catalog name members →
    HasRoom maxGroupDepth catalog.kids name members

theorem Act.Defines.fresh {act : Act} {members : List Text}
    (defines : act.Defines env catalog name members) :
    ∀ member ∈ members,
      member ≠ name ∧ ¬Relation.TransGen (Lists catalog.kids) member name := by
  cases defines with
  | create absent free valid group => exact (validateSpec_group group valid).2
  | @update _ update purged row spec _ loaded merged valid group given =>
      obtain ⟨-, named, -, listed⟩ := mergedSpec_eq_ok merged
      have isName := (Catalog.byName_eq_some_iff.mp (loadRepo_eq_ok_iff.mp loaded)).2
      rw [given, Option.getD_some] at listed
      have known := (validateSpec_group group valid).2
      rw [listed, named, isName] at known
      exact known

theorem step_shallow_iff {act : Act} (shallow : Shallow maxGroupDepth catalog.kids)
    (taken : step env catalog act = some after) :
    Shallow maxGroupDepth after.kids ↔ RoomFor env catalog act := by
  constructor
  · intro kept name members defines
    obtain ⟨after', same, written⟩ := step_of_defines defines
    cases taken.symm.trans same
    rw [written, Lib.shallow_update_iff shallow defines.fresh] at kept
    exact kept
  · intro room
    rw [step] at taken
    split at taken
    · rename_i done
      cases taken
      cases perform_effect done with
      | same kept => exact kept ▸ shallow
      | dropped name left => exact left ▸ shallow.erase
      | defined name members defines written =>
          rw [written, Lib.shallow_update_iff shallow defines.fresh]
          exact room name members defines
    · cases taken
      exact shallow
    · cases taken

theorem empty_shallow : Shallow maxGroupDepth Catalog.empty.kids := by
  intro stack held
  cases stack with
  | nil => exact Nat.zero_le _
  | cons a stack => cases held.nodes a List.mem_cons_self

/-- From the empty store, every state a run reaches has stacks of at most `MAX_GROUP_DEPTH` groups
exactly when every definition that was written on the way had room. -/
theorem groups_stay_within_their_depth_iff (env : Env) (acts : List Act) (catalog : Catalog) :
    Run (step env) (fun _ _ after => Shallow maxGroupDepth after.kids) .empty acts catalog ↔
      Run (step env) (fun before act _ => RoomFor env before act) .empty acts catalog := by
  constructor
  · intro run
    refine run.strengthen (fun c => Shallow maxGroupDepth c.kids) empty_shallow ?_
    intro before act after shallow taken kept
    exact ⟨kept, (step_shallow_iff shallow taken).mp kept⟩
  · intro run
    refine run.strengthen (fun c => Shallow maxGroupDepth c.kids) empty_shallow ?_
    intro before act after shallow taken room
    have kept := (step_shallow_iff shallow taken).mpr room
    exact ⟨kept, kept⟩

/-! ### An inner group -/

/-- A server that judges no upstream and mounts no prefix. -/
def plainEnv : Env := ⟨fun _ => .ok (), []⟩

def createAct (name : String) (members : List String) : Act :=
  .create
    { name := name.toList
      kind := if members.isEmpty then .hosted else .group
      format := .npm
      visibility := .private_
      upstream := none
      members := members.map String.toList } (.ok none) false

def regroupAct (name : String) (members : List String) : Act :=
  .update name.toList ⟨none, none, some (members.map String.toList)⟩ (.ok ())

/-- Five groups on top of each other, and one beside them that the innermost is then given. -/
def innerEdit : List Act :=
  [createAct "h" [], createAct "a" ["h"], createAct "b" ["a"], createAct "c" ["b"],
    createAct "d" ["c"], createAct "e" ["d"], createAct "y" ["h"], regroupAct "a" ["y"]]

/-- The edit of `a` is measured from `a` down: two groups. -/
theorem editing_an_inner_group_stacks_six :
    ∃ catalog, Run (step plainEnv) Any .empty innerEdit catalog ∧
      ¬Shallow maxGroupDepth catalog.kids := by
  let six : List Text := ["e", "d", "c", "b", "a", "y"].map String.toList
  obtain ⟨catalog, run, stacked⟩ := Run.of_test (step plainEnv) Any .empty innerEdit
    (fun catalog => decide (Stack catalog.kids six)) (by decide +kernel)
  refine ⟨catalog, run, fun shallow => ?_⟩
  have bound := shallow six (of_decide_eq_true stacked)
  exact absurd bound (by decide)

end OpenCargo.Groups
