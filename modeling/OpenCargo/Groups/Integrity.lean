/-
Module: OpenCargo.Groups.Integrity
Purpose: What the stored groups owe each other: none comes back to itself, and every member is stored, in
  the format of its group. A removal looks again in its transaction; a definition is written as it was
  validated, whatever was written in between. Calls one after the other keep what is owed, and calls
  side by side keep it exactly as long as every definition still fits where it is written.
Trusted boundary: as Groups.Calls
Main exports: GraphEffect.integral_iff, step_integral, groups_keep_their_integrity_iff
-/
import OpenCargo.Groups.Calls
import OpenCargo.Groups.Depth

namespace OpenCargo.Groups

open OpenCargo.Lib (Run Any Lists Acyclic acyclic_update_iff lists_update_of_ne)
open OpenCargo.Lib.Fueled (Answers answers_pure answers_of answers_bind)

variable {env : Env} {catalog after : Catalog} {spec : RepoSpec} {name : Text}

/-- The format column of the row of a name. -/
def Catalog.formats (catalog : Catalog) (name : Text) : Option Text :=
  (catalog.byName name).map fun row => row.format

/-- The member graph as the operators are promised it. -/
structure Catalog.Integral (catalog : Catalog) : Prop where
  acyclic : Acyclic catalog.kids
  stored : ∀ group member, Lists catalog.kids group member →
    ∃ format, catalog.formats member = some format ∧ catalog.formats group = some format

theorem empty_integral : Catalog.empty.Integral where
  acyclic name round := by
    obtain ⟨_, ⟨_, listed, -⟩, -⟩ := Relation.TransGen.head'_iff.mp round
    cases listed
  stored group member lists := by
    obtain ⟨_, listed, -⟩ := lists
    cases listed

/-! ### What a store call may do to the graph -/

/-- A group as a store call defines it. -/
structure Definition where
  name : Text
  format : Text
  members : List Text
deriving Repr, DecidableEq, Inhabited

/-- What `validate_spec` asks of the members, of the table that is written to. -/
def Definition.Fits (definition : Definition) (catalog : Catalog) : Prop :=
  ∀ member ∈ definition.members, member ≠ definition.name ∧
    ¬Relation.TransGen (Lists catalog.kids) member definition.name ∧
    catalog.formats member = some definition.format

/-- What is written of the graph, with the definition, when one is. -/
inductive GraphEffect (before after : Catalog) : Option Definition → Prop where
  | kept (kids : after.kids = before.kids) (formats : after.formats = before.formats) :
      GraphEffect before after none
  | added (name format : Text) (absent : before.formats name = none)
      (kids : after.kids = Function.update before.kids name none)
      (formats : after.formats = Function.update before.formats name (some format)) :
      GraphEffect before after none
  | removed (name : Text) (unlisted : ∀ group, ¬Lists before.kids group name)
      (kids : after.kids = Function.update before.kids name none)
      (formats : after.formats = Function.update before.formats name none) :
      GraphEffect before after none
  | defined (definition : Definition)
      (known : before.formats definition.name = none ∨
        before.formats definition.name = some definition.format)
      (kids : after.kids = Function.update before.kids definition.name (some definition.members))
      (formats : after.formats =
        Function.update before.formats definition.name (some definition.format)) :
      GraphEffect before after (some definition)

theorem Catalog.Integral.unlisted (integral : catalog.Integral) (absent : catalog.formats name = none)
    (group : Text) : ¬Lists catalog.kids group name := by
  intro lists
  obtain ⟨format, own, -⟩ := integral.stored group name lists
  rw [absent] at own
  cases own

/-- A row that comes or goes without a list, where nothing lists it, changes nothing of what is owed. -/
theorem Catalog.Integral.withRow (integral : catalog.Integral) {format : Option Text}
    (unlisted : ∀ group, ¬Lists catalog.kids group name)
    (kids : after.kids = Function.update catalog.kids name none)
    (formats : after.formats = Function.update catalog.formats name format) : after.Integral where
  acyclic := kids ▸ integral.acyclic.erase
  stored group member lists := by
    rw [kids] at lists
    have other : group ≠ name := by
      rintro rfl
      obtain ⟨_, listed, -⟩ := lists
      rw [Function.update_self] at listed
      cases listed
    have old := (lists_update_of_ne other).mp lists
    have apart : member ≠ name := by
      rintro rfl
      exact unlisted group old
    rw [formats, Function.update_of_ne apart, Function.update_of_ne other]
    exact integral.stored group member old

theorem GraphEffect.integral_iff {definition : Option Definition}
    (effect : GraphEffect catalog after definition) (integral : catalog.Integral) :
    after.Integral ↔ ∀ d, definition = some d → d.Fits catalog := by
  cases effect with
  | kept kids formats =>
      constructor
      · rintro _ _ ⟨⟩
      · intro _
        refine ⟨kids ▸ integral.acyclic, ?_⟩
        rw [kids, formats]
        exact integral.stored
  | added name format absent kids formats =>
      constructor
      · rintro _ _ ⟨⟩
      · exact fun _ => integral.withRow (integral.unlisted absent) kids formats
  | removed name unlisted kids formats =>
      constructor
      · rintro _ _ ⟨⟩
      · exact fun _ => integral.withRow unlisted kids formats
  | defined d known kids formats =>
      have fresh : Acyclic after.kids ↔ ∀ member ∈ d.members, member ≠ d.name ∧
          ¬Relation.TransGen (Lists catalog.kids) member d.name := by
        rw [kids]
        exact acyclic_update_iff integral.acyclic
      constructor
      · rintro now _ ⟨⟩ member mem
        obtain ⟨other, apart⟩ := fresh.mp now.acyclic member mem
        have lists : Lists after.kids d.name member :=
          ⟨d.members, by rw [kids, Function.update_self], mem⟩
        obtain ⟨format, own, group⟩ := now.stored _ _ lists
        rw [formats, Function.update_self, Option.some.injEq] at group
        rw [formats, Function.update_of_ne other] at own
        exact ⟨other, apart, group ▸ own⟩
      · intro fits
        have fits := fits d rfl
        refine ⟨fresh.mpr fun member mem => ⟨(fits member mem).1, (fits member mem).2.1⟩, ?_⟩
        intro group member lists
        rw [kids] at lists
        by_cases here : group = d.name
        · subst here
          obtain ⟨_, listed, mem⟩ := lists
          rw [Function.update_self, Option.some.injEq] at listed
          obtain ⟨other, -, own⟩ := fits member (listed ▸ mem)
          refine ⟨d.format, ?_, by rw [formats, Function.update_self]⟩
          rw [formats, Function.update_of_ne other, own]
        · obtain ⟨format, own, held⟩ := integral.stored _ _ ((lists_update_of_ne here).mp lists)
          refine ⟨format, ?_, by rw [formats, Function.update_of_ne here, held]⟩
          by_cases itself : member = d.name
          · subst itself
            rcases known with absent | known
            · rw [absent] at own
              cases own
            · rw [formats, Function.update_self, ← known, own]
          · rw [formats, Function.update_of_ne itself, own]

/-! ### The store calls -/

theorem Catalog.kids_patch {patch : RepoPatch} :
    (catalog.patched name patch).kids = Function.update catalog.kids name
      ((catalog.kids name).map fun members =>
        (patch.config.map RepoConfig.members).getD members) := by
  let update : RepoUpdate := ⟨patch.visibility, patch.upstream, patch.config.map RepoConfig.members⟩
  have given : update.patch = patch := by
    obtain ⟨visibility, upstream, config⟩ := patch
    cases config <;> rfl
  have written : (catalog.patched name update.patch).kids = Function.update catalog.kids name
      ((catalog.kids name).map fun members => update.members.getD members) :=
    Catalog.kids_patched
  rwa [given] at written

theorem Catalog.formats_add (absent : catalog.byName spec.name = none) :
    (catalog.add spec absent).formats =
      Function.update catalog.formats spec.name (some spec.format.asStr) := by
  funext name
  by_cases same : name = spec.name
  · subst same
    have found : (catalog.add spec absent).byName spec.name = some (catalog.rowOf spec) :=
      byName_eq_some_iff.mpr ⟨List.mem_append_right _ List.mem_cons_self, rfl⟩
    rw [formats, found, Function.update_self]
    rfl
  · rw [Function.update_of_ne same]
    have apart : ((catalog.rowOf spec).name == name) = false := by
      simpa using fun named => same named.symm
    simp [formats, byName, add, List.find?_append, apart]

theorem Catalog.formats_patched {patch : RepoPatch} :
    (catalog.patched name patch).formats = catalog.formats := by
  funext n
  have read : (catalog.patched name patch).byName n =
      (catalog.byName n).map fun row => if row.name = name then patch.apply row else row :=
    Lib.find?_updateAt fun _ _ => rfl
  rw [formats, read, Option.map_map, formats]
  refine congrArg (fun f => Option.map f (catalog.byName n)) (funext fun row => ?_)
  show (if row.name = name then patch.apply row else row).format = row.format
  split <;> rfl

theorem Catalog.byName_without {row : Row} (isRow : catalog.byName name = some row) (n : Text) :
    (catalog.without row.id).byName n = if n = name then none else catalog.byName n := by
  obtain ⟨mem, rfl⟩ := byName_eq_some_iff.mp isRow
  have inside : ∀ r, r ∈ (catalog.without row.id).rows ↔ r ∈ catalog.rows ∧ r.id ≠ row.id := by
    simp [without]
  refine Option.ext fun r => ?_
  rw [byName_eq_some_iff, inside]
  split
  · rename_i same
    subst same
    constructor
    · rintro ⟨⟨old, apart⟩, named⟩
      cases List.inj_on_of_nodup_map catalog.names old mem named
      exact absurd rfl apart
    · rintro ⟨⟩
  · rename_i other
    rw [byName_eq_some_iff]
    constructor
    · rintro ⟨⟨old, _⟩, named⟩
      exact ⟨old, named⟩
    · rintro ⟨old, named⟩
      refine ⟨⟨old, fun sameId => other ?_⟩, named⟩
      cases List.inj_on_of_nodup_map catalog.ids old mem sameId
      exact named.symm

theorem Catalog.formats_without {row : Row} (isRow : catalog.byName name = some row) :
    (catalog.without row.id).formats = Function.update catalog.formats name none := by
  funext n
  rw [formats, byName_without isRow]
  by_cases same : n = name
  · subst same
    rw [if_pos rfl, Function.update_self]
    rfl
  · rw [if_neg same, Function.update_of_ne same]
    rfl

theorem RepoKind.asStr_of_parse {text : Text} {kind : RepoKind}
    (read : RepoKind.parse text = .ok kind) : kind.asStr = text := by
  rw [RepoKind.parse] at read
  split at read
  · rename_i found
    cases read
    simpa using List.find?_some found
  · cases read

theorem Format.asStr_of_parse {text : Text} {format : Format}
    (read : Format.parse text = .ok format) : format.asStr = text := by
  rw [Format.parse] at read
  split at read
  · rename_i found
    cases read
    simpa using List.find?_some found
  · cases read

theorem mapError_eq_ok_iff {ε ε' α : Type} {x : Except ε α} {f : ε → ε'} {a : α} :
    x.mapError f = .ok a ↔ x = .ok a := by
  cases x <;> simp [Except.mapError]

theorem Row.repoType_of_appKind {row : Row} {kind : RepoKind} (read : row.appKind = .ok kind) :
    row.repoType = kind.asStr :=
  (RepoKind.asStr_of_parse (mapError_eq_ok_iff.mp (mapError_eq_ok_iff.mp read))).symm

theorem Row.format_of_appFmt {row : Row} {format : Format} (read : row.appFmt = .ok format) :
    row.format = format.asStr :=
  (Format.asStr_of_parse (mapError_eq_ok_iff.mp (mapError_eq_ok_iff.mp read))).symm

theorem Catalog.unlisted_of_holders (free : catalog.holders name = []) (group : Text) :
    ¬Lists catalog.kids group name := by
  rintro ⟨_, listed, mem⟩
  obtain ⟨row, isRow, read, rfl⟩ := kids_eq_some_iff.mp listed
  have inside := (byName_eq_some_iff.mp isRow).1
  have kind := Row.repoType_of_appKind read
  simp only [holders, List.map_eq_nil_iff, List.filter_eq_nil_iff, Bool.and_eq_true, beq_iff_eq,
    List.contains_iff_mem] at free
  exact free row inside ⟨kind, mem⟩

namespace Calls

def Luck.carried : Luck → Bool
  | .failed _ => false
  | _ => true

/-- The group a store call defines, where it is carried out. -/
def Op.definition (catalog : Catalog) (outside : Outside) : Op → Option Definition
  | .create spec =>
      if outside.luck.carried && !outside.claimed && (catalog.byName spec.name).isNone &&
          spec.kind = .group then
        some ⟨spec.name, spec.format.asStr, spec.members⟩
      else
        none
  | .update name patch =>
      if outside.luck.carried then
        match catalog.byName name, patch.config with
        | some row, some config =>
            if row.appKind = .ok .group then some ⟨name, row.format, config.members⟩ else none
        | _, _ => none
      else
        none
  | _ => none

theorem effect_create {outside : Outside} (carried : outside.luck.carried = true) {row : Row}
    (created : catalog.create spec outside.claimed = .ok (row, after)) :
    GraphEffect catalog after (Op.definition catalog outside (.create spec)) := by
  rw [Catalog.create] at created
  split at created
  · cases created
  · rename_i free
    split at created
    · rename_i absent
      cases created
      have noFormat : catalog.formats spec.name = none := by rw [Catalog.formats, absent]; rfl
      have kids := Catalog.kids_add absent
      have formats := Catalog.formats_add absent
      by_cases group : spec.kind = .group
      · rw [if_pos group] at kids
        have defines : Op.definition catalog outside (.create spec) =
            some ⟨spec.name, spec.format.asStr, spec.members⟩ := by
          simp [Op.definition, carried, free, absent, group]
        exact defines ▸ .defined _ (.inl noFormat) kids formats
      · rw [if_neg group] at kids
        have defines : Op.definition catalog outside (.create spec) = none := by
          simp [Op.definition, group]
        exact defines ▸ .added _ _ noFormat kids formats
    · cases created

theorem effect_update {outside : Outside} (carried : outside.luck.carried = true) {patch : RepoPatch}
    {row : Row} (updated : catalog.update name patch = .ok (row, after)) :
    GraphEffect catalog after (Op.definition catalog outside (.update name patch)) := by
  have formats : (catalog.patched name patch).formats = catalog.formats := Catalog.formats_patched
  have kids : (catalog.patched name patch).kids = Function.update catalog.kids name
      ((catalog.kids name).map fun members =>
        (patch.config.map RepoConfig.members).getD members) := Catalog.kids_patch
  rw [Catalog.update] at updated
  split at updated
  · cases updated
    cases isRow : catalog.byName name with
    | none =>
        have defines : Op.definition catalog outside (.update name patch) = none := by
          simp [Op.definition, isRow]
        rw [Catalog.kids_of_absent isRow, Option.map_none] at kids
        have same := kids.trans (Function.update_eq_self_iff.mpr (Catalog.kids_of_absent isRow).symm)
        exact defines ▸ .kept same formats
    | some row =>
        have read := Catalog.kids_of_byName isRow
        by_cases group : row.appKind = .ok .group
        · rw [if_pos group] at read
          cases given : patch.config with
          | none =>
              have defines : Op.definition catalog outside (.update name patch) = none := by
                simp [Op.definition, isRow, given]
              rw [given, read] at kids
              have same := kids.trans (Function.update_eq_self_iff.mpr read.symm)
              exact defines ▸ .kept same formats
          | some config =>
              have defines : Op.definition catalog outside (.update name patch) =
                  some ⟨name, row.format, config.members⟩ := by
                simp [Op.definition, carried, isRow, given, group]
              rw [given, read] at kids
              have known : catalog.formats name = some row.format := by
                rw [Catalog.formats, isRow]
                rfl
              refine defines ▸ .defined _ (.inr known) kids ?_
              rw [formats]
              exact (Function.update_eq_self_iff.mpr known.symm).symm
        · rw [if_neg group] at read
          have defines : Op.definition catalog outside (.update name patch) = none := by
            cases given : patch.config <;> simp [Op.definition, isRow, group, given]
          rw [read, Option.map_none] at kids
          have same := kids.trans (Function.update_eq_self_iff.mpr read.symm)
          exact defines ▸ .kept same formats
  · cases updated

theorem effect_retire {outside : Outside} {occupied : Bool}
    (retired : catalog.retire name occupied = .ok after) :
    GraphEffect catalog after (Op.definition catalog outside (.retire name)) := by
  rw [Catalog.retire] at retired
  split at retired
  · cases retired
  · rename_i row isRow
    split at retired
    · cases retired
    · rename_i free
      cases retired
      have unheld : catalog.holders name = [] := by
        simp only [Bool.or_eq_true, Bool.not_eq_true', not_or] at free
        simpa using free.2
      exact .removed name (Catalog.unlisted_of_holders unheld) (Catalog.kids_without isRow)
        (Catalog.formats_without isRow)

theorem Luck.reads_kept {α : Type} {luck : Luck} {value : α} {answer : Except StoreError α}
    (performed : luck.reads catalog value = (answer, after)) : after = catalog := by
  cases luck <;> cases performed <;> rfl

theorem Luck.writes_cases {α : Type} {luck : Luck} {transaction : Except StoreError (α × Catalog)}
    {answer : Except StoreError α}
    (performed : luck.writes catalog transaction = (answer, after)) :
    luck.carried = false ∧ after = catalog ∨
      (∃ error, transaction = .error error) ∧ after = catalog ∨
      luck.carried = true ∧ ∃ a, transaction = .ok (a, after) := by
  cases luck with
  | failed error =>
      cases performed
      exact .inl ⟨rfl, rfl⟩
  | done =>
      cases transaction with
      | error error =>
          cases performed
          exact .inr (.inl ⟨⟨error, rfl⟩, rfl⟩)
      | ok committed =>
          cases performed
          exact .inr (.inr ⟨rfl, _, rfl⟩)
  | lost error =>
      cases transaction with
      | error error =>
          cases performed
          exact .inr (.inl ⟨⟨error, rfl⟩, rfl⟩)
      | ok committed =>
          cases performed
          exact .inr (.inr ⟨rfl, _, rfl⟩)

theorem definition_of_failed {op : Op} {outside : Outside} (failed : outside.luck.carried = false) :
    op.definition catalog outside = none := by
  cases op <;> simp [Op.definition, failed]

theorem definition_create_of_refused {outside : Outside} {error : StoreError}
    (refused : catalog.create spec outside.claimed = .error error) :
    Op.definition catalog outside (.create spec) = none := by
  rw [Catalog.create] at refused
  split at refused
  · rename_i claimed
    simp [Op.definition, claimed]
  · split at refused
    · cases refused
    · rename_i taken
      simp [Op.definition, taken]

theorem definition_update_of_refused {outside : Outside} {patch : RepoPatch} {error : StoreError}
    (refused : catalog.update name patch = .error error) :
    Op.definition catalog outside (.update name patch) = none := by
  have read : (catalog.patched name patch).byName name =
      (catalog.byName name).map fun row => if row.name = name then patch.apply row else row :=
    Lib.find?_updateAt fun _ _ => rfl
  rw [Catalog.update, read] at refused
  cases isRow : catalog.byName name with
  | none => simp [Op.definition, isRow]
  | some row => simp [isRow] at refused

theorem perform_effect {op : Op} {outside : Outside} {answer : op.Answer}
    (performed : perform catalog op outside = some (answer, after)) :
    GraphEffect catalog after (op.definition catalog outside) := by
  cases op with
  | byName name =>
      cases Luck.reads_kept (Option.some.inj performed)
      exact .kept rfl rfl
  | all =>
      cases Luck.reads_kept (Option.some.inj performed)
      exact .kept rfl rfl
  | create spec =>
      rcases Luck.writes_cases (Option.some.inj performed) with
        ⟨failed, rfl⟩ | ⟨⟨error, refused⟩, rfl⟩ | ⟨carried, row, created⟩
      · exact definition_of_failed failed ▸ .kept rfl rfl
      · exact definition_create_of_refused refused ▸ .kept rfl rfl
      · exact effect_create carried created
  | update name patch =>
      rcases Luck.writes_cases (Option.some.inj performed) with
        ⟨failed, rfl⟩ | ⟨⟨error, refused⟩, rfl⟩ | ⟨carried, row, updated⟩
      · exact definition_of_failed failed ▸ .kept rfl rfl
      · exact definition_update_of_refused refused ▸ .kept rfl rfl
      · exact effect_update carried updated
  | retire name =>
      rcases Luck.writes_cases (Option.some.inj performed) with
        ⟨failed, rfl⟩ | ⟨-, rfl⟩ | ⟨-, _, retired⟩
      · exact .kept rfl rfl
      · exact .kept rfl rfl
      · cases left : catalog.retire name outside.occupied with
        | error error =>
            rw [left] at retired
            cases retired
        | ok table =>
            rw [left] at retired
            cases retired
            exact effect_retire left
  | legacyBytes name =>
      cases performed
      exact .kept rfl rfl
  | purge row =>
      cases performed
      exact .kept rfl rfl
  | walking => cases performed

/-! ### Calls one after the other -/

theorem mergedSpec_format {row : Row} {update : RepoUpdate}
    (merged : mergedSpec row update = .ok spec) : row.appFmt = .ok spec.format := by
  obtain ⟨kind, -, rest⟩ := Lib.bind_eq_ok.mp merged
  obtain ⟨format, read, rest⟩ := Lib.bind_eq_ok.mp rest
  cases rest
  exact read

theorem validateMember_formats {member : Text} {below : Nat}
    (accepted : Answers (Groups.validateMember catalog spec member) below) :
    catalog.formats member = some spec.format.asStr := by
  rw [Groups.validateMember] at accepted
  obtain ⟨⟨_, _⟩, -, rest⟩ := answers_bind.mp accepted
  dsimp only at rest
  split at rest
  · cases answers_of.mp rest
  · split at rest
    · cases answers_of.mp rest
    · rename_i row isRow
      obtain ⟨⟨found, seen⟩, -, rest⟩ := answers_bind.mp rest
      cases found with
      | true => cases answers_of.mp rest
      | false =>
          obtain ⟨format, read, rest⟩ := answers_bind.mp rest
          obtain ⟨_, agreed, -⟩ := answers_bind.mp rest
          have same := answers_of.mp agreed
          rw [refuseFormat] at same
          split at same
          · cases same
          · rename_i equal
            rw [Catalog.formats, isRow, Option.map_some, Row.format_of_appFmt (answers_of.mp read),
              not_not.mp equal]

theorem fits_of_validateSpec (group : spec.kind = .group)
    (accepted : Answers (Groups.validateSpec env catalog spec) ()) :
    Definition.Fits ⟨spec.name, spec.format.asStr, spec.members⟩ catalog := by
  have apart := (validateSpec_group group accepted).2
  rw [Groups.validateSpec, group] at accepted
  obtain ⟨_, -, rest⟩ := answers_bind.mp accepted
  obtain ⟨_, -, rest⟩ := answers_bind.mp (show Answers (_ >>= _) () from rest)
  rw [Groups.validateMembers] at rest
  split at rest
  · cases answers_of.mp rest
  · obtain ⟨deepest, loop, -⟩ := answers_bind.mp rest
    intro member mem
    obtain ⟨_, _, turn⟩ := Lib.Fueled.turns_of_answers_foldlM loop member mem
    obtain ⟨below, accepted, -⟩ := answers_bind.mp turn
    exact ⟨(apart member mem).1, (apart member mem).2, validateMember_formats accepted⟩

/-- Nothing fails, nothing is in the way. -/
def clear : Outside := ⟨.done, false, false, .ok none, .ok ()⟩

theorem step_integral {act : Groups.Act} (integral : catalog.Integral)
    (taken : Groups.step env catalog act = some after) : after.Integral := by
  rw [Groups.step] at taken
  split at taken
  · rename_i table done
    cases taken
    cases act with
    | create spec legacyBytes claimed =>
        obtain ⟨⟨row, _⟩, created, rest⟩ := answers_bind.mp done
        cases answers_pure.mp rest
        obtain ⟨-, valid, -, -, rfl, absent, rfl⟩ := createRepository_spec.mp created
        have inserted : catalog.create spec clear.claimed =
            .ok (catalog.rowOf spec, catalog.add spec absent) := by
          simp [Catalog.create, clear, absent]
        refine ((effect_create rfl inserted).integral_iff integral).mpr fun d defines => ?_
        simp only [Op.definition] at defines
        split at defines
        · rename_i meets
          cases defines
          exact fits_of_validateSpec (by simpa using (Bool.and_eq_true_iff.mp meets).2) valid
        · cases defines
    | update name update purged =>
        obtain ⟨⟨row, _⟩, updated, rest⟩ := answers_bind.mp done
        cases answers_pure.mp rest
        obtain ⟨stored, spec, loaded, merged, valid, rfl⟩ := updateRepository_spec updated
        have isRow := loadRepo_eq_ok_iff.mp loaded
        obtain ⟨mem, named⟩ := Catalog.byName_eq_some_iff.mp isRow
        have found : (catalog.patched name update.patch).byName name =
            some (update.patch.apply stored) :=
          Catalog.byName_eq_some_iff.mpr
            ⟨Lib.mem_updateAt.mpr (.inr ⟨stored, mem, named, rfl⟩), named⟩
        have written : catalog.update name update.patch =
            .ok (update.patch.apply stored, catalog.patched name update.patch) := by
          simp [Catalog.update, found]
        have carried : clear.luck.carried = true := rfl
        refine ((effect_update carried written).integral_iff integral).mpr fun d defines => ?_
        simp only [Op.definition, carried, if_true, isRow] at defines
        cases given : update.members with
        | none => simp [RepoUpdate.patch, given] at defines
        | some members =>
            simp only [RepoUpdate.patch, given, Option.map_some] at defines
            split at defines
            · rename_i group
              cases defines
              obtain ⟨kind, sameName, -, listed⟩ := mergedSpec_eq_ok merged
              have isGroup := Except.ok.inj (kind.symm.trans group)
              have fits := fits_of_validateSpec isGroup valid
              rw [sameName, named, listed, given, Option.getD_some,
                ← Row.format_of_appFmt (mergedSpec_format merged)] at fits
              exact fits
            · cases defines
    | delete name occupied =>
        have deleted := answers_of.mp done
        obtain ⟨row, loaded, rest⟩ := Lib.bind_eq_ok.mp deleted
        obtain ⟨holders, -, rest⟩ := Lib.bind_eq_ok.mp rest
        split at rest
        · have retired := mapError_eq_ok_iff.mp rest
          have effect : GraphEffect catalog after (Op.definition catalog clear (.retire name)) :=
            effect_retire retired
          refine (effect.integral_iff integral).mpr ?_
          rintro _ ⟨⟩
        · cases rest
  · cases taken
    exact integral
  · cases taken

/-! ### Calls side by side -/

/-- Where the step writes a group definition, it fits the table as it is then. -/
def StillFits (calls : InFlight) : Act → Prop
  | .start _ => True
  | .answer i outside =>
      match calls.calls[i]? with
      | some (_, .call op _) => ∀ d, op.definition calls.state outside = some d → d.Fits calls.state
      | _ => True

theorem step_integral_iff {calls next : InFlight} {act : Act} (integral : calls.state.Integral)
    (taken : step env calls act = some next) : next.state.Integral ↔ StillFits calls act := by
  cases act with
  | start incoming =>
      cases taken
      exact ⟨fun _ => trivial, fun _ => integral⟩
  | answer i outside =>
      simp only [step, Lib.Pool.step] at taken
      simp only [StillFits]
      split at taken
      · rename_i incoming op rest found
        obtain ⟨⟨answer, table⟩, performed, rfl⟩ := Option.map_eq_some_iff.mp taken
        rw [found]
        exact (perform_effect performed).integral_iff integral
      · cases taken

/-- From the empty store, however creates, updates and deletes interleave, the member graph is as it
should be in every state reached exactly when every group definition fitted where it was written. -/
theorem groups_keep_their_integrity_iff (env : Env) (acts : List Act) (calls : InFlight) :
    Run (step env) (fun _ _ next => next.state.Integral) ⟨.empty, []⟩ acts calls ↔
      Run (step env) (fun before act _ => StillFits before act) ⟨.empty, []⟩ acts calls := by
  constructor
  · intro run
    refine run.strengthen (fun c => c.state.Integral) empty_integral ?_
    intro before act next integral taken kept
    exact ⟨kept, (step_integral_iff integral taken).mp kept⟩
  · intro run
    refine run.strengthen (fun c => c.state.Integral) empty_integral ?_
    intro before act next integral taken fits
    have kept := (step_integral_iff integral taken).mpr fits
    exact ⟨kept, kept⟩

/-! ### Two updates at once -/

def creating (name : String) (members : List String) : Act :=
  .start
    { request := .create
        { name := name.toList
          kind := if members.isEmpty then .hosted else .group
          format := .npm
          visibility := .private_
          upstream := none
          members := members.map String.toList }
      fuel := 3 }

def regrouping (name : String) (members : List String) : Act :=
  .start ⟨.update name.toList ⟨none, none, some (members.map String.toList)⟩, 3⟩

def answers (call times : Nat) : List Act := List.replicate times (.answer call clear)

/-- Two groups over one repository; each is made a member of the other, and both calls have validated
before either writes. -/
def crossing : List Act :=
  creating "h" [] :: answers 0 3 ++ creating "a" ["h"] :: answers 1 5 ++
    creating "b" ["h"] :: answers 2 5 ++ regrouping "a" ["b"] :: regrouping "b" ["a"] ::
    answers 3 5 ++ answers 4 6 ++ answers 3 1

theorem updates_that_cross_close_a_cycle :
    ∃ calls, Run (step plainEnv) Any ⟨.empty, []⟩ crossing calls ∧ ¬calls.state.Integral := by
  obtain ⟨calls, run, cyclic⟩ := Run.of_test (step plainEnv) Any ⟨.empty, []⟩ crossing
    (fun calls => decide (Lists calls.state.kids "a".toList "b".toList ∧
      Lists calls.state.kids "b".toList "a".toList)) (by decide +kernel)
  obtain ⟨there, back⟩ := of_decide_eq_true cyclic
  exact ⟨calls, run, fun integral => integral.acyclic _ (.head there (.single back))⟩

end Calls

end OpenCargo.Groups
