/-
Module: OpenCargo.Npm.Attachments
Purpose: Which attachment a publish stores for each version. Under one of its two names a version's
  attachment is its own, whatever the order of the maps; where it has none under them, the first name that
  contains the version's text is taken.
Trusted boundary: as Npm.Publish
Main exports: Exact, Passes, planVersion_answers_iff, own_attachments_iff
-/
import OpenCargo.Lib.Fallible
import OpenCargo.Npm.Publish

namespace OpenCargo.Npm

open OpenCargo.Lib (Entries Json mapM_answers_iff mem_mapM mapM_perm mapM_congr)

/-! ### The attachment of a version -/

/-- The attachment's name is one of the two npm gives the version's. -/
def Named (package version key : Text) : Prop :=
  key = buildTarballFilename package version ∨ key = scopedFilename package version

/-- There is an attachment under one of the version's names. -/
def Exact (attachments : Entries Text Attachment) (package version : Text) : Prop :=
  ∃ key ∈ attachments.keys, Named package version key

section Attachment

variable {attachments attachments' : Entries Text Attachment} {package version version' key : Text}

theorem Named.inj (named : Named package version key) (named' : Named package version' key)
    (flat : '/' ∉ version) (flat' : '/' ∉ version') : version = version' := by
  rcases named with rfl | rfl
  · rcases named' with same | same
    · exact fileOf_inj same
    · exact fileOf_shortName_inj flat flat' same
  · rcases named' with same | same
    · exact (fileOf_shortName_inj flat' flat same.symm).symm
    · exact fileOf_inj same

theorem infix_of_named (named : Named package version key) : version <:+: key := by
  rcases named with rfl | rfl
  · exact ⟨_, _, rfl⟩
  · exact ⟨_, _, rfl⟩

theorem mem_keys_of_find (found : findAttachmentKey attachments package version = some key) :
    key ∈ attachments.keys := by
  rw [findAttachmentKey] at found
  split at found
  · rename_i held
    cases found
    exact Entries.hasKey_iff.mp held
  · split at found
    · rename_i held
      cases found
      exact Entries.hasKey_iff.mp held
    · exact List.mem_of_find?_eq_some found

theorem find_eq_none_iff : findAttachmentKey attachments package version = none ↔
    ∀ key ∈ attachments.keys, ¬version <:+: key := by
  rw [findAttachmentKey]
  split
  · rename_i held
    simp only [reduceCtorEq, false_iff, not_forall, not_not]
    exact ⟨_, Entries.hasKey_iff.mp held, infix_of_named (.inl rfl)⟩
  · split
    · rename_i held
      simp only [reduceCtorEq, false_iff, not_forall, not_not]
      exact ⟨_, Entries.hasKey_iff.mp held, infix_of_named (.inr rfl)⟩
    · simp [List.find?_eq_none]

theorem find_named (exact_ : Exact attachments package version) :
    ∃ key, findAttachmentKey attachments package version = some key ∧ Named package version key := by
  rw [findAttachmentKey]
  split
  · exact ⟨_, rfl, .inl rfl⟩
  · rename_i short
    split
    · exact ⟨_, rfl, .inr rfl⟩
    · rename_i long
      obtain ⟨key, mem, rfl | rfl⟩ := exact_
      · exact absurd (Entries.hasKey_iff.mpr mem) short
      · exact absurd (Entries.hasKey_iff.mpr mem) long

theorem attachmentOf_eq_some_iff {attachment : Attachment} :
    attachmentOf package attachments version = some (key, attachment) ↔
      findAttachmentKey attachments package version = some key ∧ attachments.get key = some attachment := by
  simp only [attachmentOf, Option.bind_eq_bind, Option.bind_eq_some_iff, Option.pure_def,
    Option.some.injEq, Prod.mk.injEq]
  constructor
  · rintro ⟨_, found, _, held, rfl, rfl⟩
    exact ⟨found, held⟩
  · rintro ⟨found, held⟩
    exact ⟨key, found, attachment, held, rfl, rfl⟩

theorem attachmentOf_eq_none_iff : attachmentOf package attachments version = none ↔
    findAttachmentKey attachments package version = none := by
  cases found : findAttachmentKey attachments package version with
  | none => simp [attachmentOf, found]
  | some key =>
      obtain ⟨attachment, held⟩ : ∃ a, attachments.get key = some a :=
        Option.isSome_iff_exists.mp (Entries.hasKey_iff.mpr (mem_keys_of_find found))
      simp [attachmentOf, found, held]

/-! ### Another order -/

variable (same : attachments.Reordered attachments')

include same

theorem Exact.congr (exact_ : Exact attachments package version) : Exact attachments' package version := by
  obtain ⟨key, mem, named⟩ := exact_
  exact ⟨key, same.mem_keys.mp mem, named⟩

theorem attachmentOf_none_congr (no : attachmentOf package attachments version = none) :
    attachmentOf package attachments' version = none := by
  rw [attachmentOf_eq_none_iff, find_eq_none_iff] at no ⊢
  exact fun key mem => no key (same.mem_keys.mpr mem)

theorem attachmentOf_congr (exact_ : Exact attachments package version) :
    attachmentOf package attachments version = attachmentOf package attachments' version := by
  have held (key : Text) : attachments.hasKey key = attachments'.hasKey key := by
    rw [Entries.hasKey, Entries.hasKey, Entries.get_congr same]
  have found : findAttachmentKey attachments package version = findAttachmentKey attachments' package version := by
    rw [findAttachmentKey, findAttachmentKey, held, held]
    split
    · rfl
    · rename_i short
      split
      · rfl
      · rename_i long
        obtain ⟨key, mem, rfl | rfl⟩ := exact_.congr same
        · exact absurd (Entries.hasKey_iff.mpr mem) short
        · exact absurd (Entries.hasKey_iff.mpr mem) long
  simp only [attachmentOf, found, Entries.get_congr same]

end Attachment

/-! ### A plan -/

section Plan

variable {PreScan : Type}

/-- A new version and the name of its attachment. -/
def Step.pair : Step PreScan → Option (Text × Text)
  | .update _ _ => none
  | .new key version => some (version.version, key)

def pairs (steps : List (Step PreScan)) : List (Text × Text) := steps.filterMap Step.pair

/-- Every new version has an attachment of its own name, and no two have one between them. -/
structure Own (package : Text) (steps : List (Step PreScan)) : Prop where
  named : ∀ pair ∈ pairs steps, Named package pair.1 pair.2
  apart : ∀ pair ∈ pairs steps, ∀ other ∈ pairs steps, pair.2 = other.2 → pair.1 = other.1

/-- Two plans refuse alike, or pair alike. -/
def SamePairs : Except AppError (List (Step PreScan)) → Except AppError (List (Step PreScan)) → Prop
  | .ok steps, .ok steps' => (pairs steps).Perm (pairs steps')
  | .error _, .error _ => True
  | _, _ => False

/-- The same body, its maps walked in another order. -/
structure PublishBody.Reordered (body body' : PublishBody) : Prop where
  name : body.name = body'.name
  versions : body.versions.Reordered body'.versions
  attachments : body.attachments.Reordered body'.attachments

theorem PublishBody.Reordered.symm {body body' : PublishBody} (same : body.Reordered body') :
    body'.Reordered body := ⟨same.name.symm, same.versions.symm, same.attachments.symm⟩

variable (tools : Tools PreScan) (baseUrl repo package : Text) (existing : Option (List Version))
  (body : PublishBody)

/-- In whatever order the maps are walked the body is refused, or every version has its own attachment; and
the order makes no difference. -/
def OwnAttachments : Prop :=
  ∀ body', body.Reordered body' →
    (∀ steps, planVersions tools baseUrl repo package existing body' = .ok steps → Own package steps) ∧
      SamePairs (planVersions tools baseUrl repo package existing body)
        (planVersions tools baseUrl repo package existing body')

/-- What a version is refused for otherwise: its text, an attachment for a version that is stored, and one
that is missing, or does not decode, has not the sum its metadata names or is not let through the gate, for
one that is not. -/
structure Passes (attachments : Entries Text Attachment) (entry : Text × Json) : Prop where
  valid : validateVersion entry.1 = .ok ()
  stored : ∀ held, storedVersion existing entry.1 = some held → attachmentOf package attachments entry.1 = none
  new : storedVersion existing entry.1 = none → ∃ key attachment prepared,
    attachmentOf package attachments entry.1 = some (key, attachment) ∧
      prepareVersion tools baseUrl repo package entry.1 entry.2 attachment = .ok prepared

variable {tools baseUrl repo package existing body} {attachments attachments' : Entries Text Attachment}
  {entry : Text × Json} {step : Step PreScan} {steps : List (Step PreScan)}

/-- A turn goes through exactly where the entry passes, and then as its attachment says. -/
theorem planVersion_eq_ok_iff :
    planVersion tools baseUrl repo package existing attachments entry = .ok step ↔
      validateVersion entry.1 = .ok () ∧
        ((∃ held, storedVersion existing entry.1 = some held ∧
            attachmentOf package attachments entry.1 = none ∧ step = .update held entry.2) ∨
          storedVersion existing entry.1 = none ∧ ∃ key attachment prepared,
            attachmentOf package attachments entry.1 = some (key, attachment) ∧
              prepareVersion tools baseUrl repo package entry.1 entry.2 attachment = .ok prepared ∧
                step = .new key prepared) := by
  rw [planVersion]
  cases valid : validateVersion entry.1 with
  | error e => simp
  | ok u =>
      cases stored : storedVersion existing entry.1 with
      | some held =>
          cases taken : attachmentOf package attachments entry.1 with
          | some _ => simp
          | none => simp [eq_comm]
      | none =>
          cases taken : attachmentOf package attachments entry.1 with
          | none => simp
          | some found =>
              obtain ⟨key, attachment⟩ := found
              cases done : prepareVersion tools baseUrl repo package entry.1 entry.2 attachment with
              | error e => simp [done, Except.map]
              | ok prepared => simp [done, Except.map, eq_comm]

theorem planVersion_answers_iff :
    (∃ step, planVersion tools baseUrl repo package existing attachments entry = .ok step) ↔
      Passes tools baseUrl repo package existing attachments entry := by
  simp only [planVersion_eq_ok_iff]
  constructor
  · rintro ⟨step, valid, ⟨held, stored, none, rfl⟩ | ⟨stored, key, attachment, prepared, taken, done, rfl⟩⟩
    · refine ⟨valid, fun _ _ => none, fun missing => ?_⟩
      rw [stored] at missing
      cases missing
    · refine ⟨valid, fun held is => ?_, fun _ => ⟨key, attachment, prepared, taken, done⟩⟩
      rw [stored] at is
      cases is
  · intro passes
    cases stored : storedVersion existing entry.1 with
    | some held => exact ⟨_, passes.valid, .inl ⟨held, rfl, passes.stored held stored, rfl⟩⟩
    | none =>
        obtain ⟨key, attachment, prepared, taken, done⟩ := passes.new stored
        exact ⟨_, passes.valid, .inr ⟨rfl, key, attachment, prepared, taken, done, rfl⟩⟩

theorem planVersions_answers_iff :
    (∃ steps, planVersions tools baseUrl repo package existing body = .ok steps) ↔
      ∀ entry ∈ body.versions.toList, Passes tools baseUrl repo package existing body.attachments entry := by
  simp only [planVersions, mapM_answers_iff, planVersion_answers_iff]

/-- What a plan pairs comes from its entries, each with the attachment that was found. -/
theorem mem_pairs (done : planVersions tools baseUrl repo package existing body = .ok steps) {pair : Text × Text} :
    pair ∈ pairs steps → ∃ entry ∈ body.versions.toList, entry.1 = pair.1 ∧
      validateVersion entry.1 = .ok () ∧ storedVersion existing entry.1 = none ∧
        findAttachmentKey body.attachments package entry.1 = some pair.2 := by
  rw [pairs, List.mem_filterMap]
  rintro ⟨step, mem, paired⟩
  obtain ⟨entry, listed, planned⟩ := (mem_mapM done).mp mem
  obtain ⟨valid, ⟨held, _, _, rfl⟩ | ⟨new, key, attachment, prepared, taken, made, rfl⟩⟩ :=
    planVersion_eq_ok_iff.mp planned
  · cases paired
  · obtain ⟨_, _, _, rfl⟩ := prepareVersion_eq_ok tools baseUrl repo package made
    cases paired
    exact ⟨entry, listed, rfl, valid, new, (attachmentOf_eq_some_iff.mp taken).1⟩

/-- An entry of a new version is paired with the attachment that was found for it. -/
theorem pair_mem (done : planVersions tools baseUrl repo package existing body = .ok steps)
    (listed : entry ∈ body.versions.toList) (new : storedVersion existing entry.1 = none) :
    ∃ key, findAttachmentKey body.attachments package entry.1 = some key ∧ (entry.1, key) ∈ pairs steps := by
  have passes := planVersions_answers_iff.mp ⟨steps, done⟩ entry listed
  obtain ⟨key, attachment, prepared, taken, made⟩ := passes.new new
  have planned : planVersion tools baseUrl repo package existing body.attachments entry = .ok (.new key prepared) :=
    planVersion_eq_ok_iff.mpr ⟨passes.valid, .inr ⟨new, key, attachment, prepared, taken, made, rfl⟩⟩
  refine ⟨key, (attachmentOf_eq_some_iff.mp taken).1, List.mem_filterMap.mpr ⟨_, (mem_mapM done).mpr
    ⟨entry, listed, planned⟩, ?_⟩⟩
  obtain ⟨_, _, _, rfl⟩ := prepareVersion_eq_ok tools baseUrl repo package made
  rfl

/-- Where every new version has an attachment under one of its names, each gets its own. -/
theorem own_of_exact (done : planVersions tools baseUrl repo package existing body = .ok steps)
    (exact_ : ∀ entry ∈ body.versions.toList, storedVersion existing entry.1 = none →
      Exact body.attachments package entry.1) : Own package steps := by
  have named : ∀ pair ∈ pairs steps, Named package pair.1 pair.2 ∧ '/' ∉ pair.1 := by
    intro pair mem
    obtain ⟨entry, listed, same, valid, new, found⟩ := mem_pairs done mem
    obtain ⟨key, named, own⟩ := find_named (exact_ entry listed new)
    obtain rfl : key = pair.2 := Option.some.inj (named.symm.trans found)
    rw [← same]
    exact ⟨own, slash_notMem_version valid⟩
  refine ⟨fun pair mem => (named pair mem).1, fun pair mem other mem' same => ?_⟩
  obtain ⟨own, flat⟩ := named pair mem
  obtain ⟨own', flat'⟩ := named other mem'
  rw [same] at own
  exact own.inj own' flat flat'

theorem plan_reordered {body' : PublishBody} (same : body.Reordered body')
    (done : planVersions tools baseUrl repo package existing body = .ok steps)
    (exact_ : ∀ entry ∈ body.versions.toList, storedVersion existing entry.1 = none →
      Exact body.attachments package entry.1) :
    ∃ steps', planVersions tools baseUrl repo package existing body' = .ok steps' ∧
      (pairs steps').Perm (pairs steps) := by
  have passes := planVersions_answers_iff.mp ⟨steps, done⟩
  have taken : ∀ entry ∈ body.versions.toList, attachmentOf package body.attachments entry.1 =
      attachmentOf package body'.attachments entry.1 := by
    intro entry listed
    cases stored : storedVersion existing entry.1 with
    | none => exact attachmentOf_congr same.attachments (exact_ entry listed stored)
    | some held =>
        have no := (passes entry listed).stored held stored
        rw [no, attachmentOf_none_congr same.attachments no]
  have turns : ∀ entry ∈ body.versions.toList,
      planVersion tools baseUrl repo package existing body.attachments entry =
        planVersion tools baseUrl repo package existing body'.attachments entry := by
    intro entry listed
    rw [planVersion, planVersion, taken entry listed]
  obtain ⟨steps', done', other⟩ := mapM_perm same.versions ((mapM_congr turns).symm.trans done)
  exact ⟨steps', done', other.filterMap _⟩

variable (tools baseUrl repo package existing body)

end Plan

/-! ### One attachment for two versions -/

/-- Two versions of `web`, and one attachment that contains the text of both. -/
def twoVersions : PublishBody where
  name := "web".toList
  versions := ⟨[("1.0.0".toList, .object []), ("11.0.0".toList, .object [])], by decide⟩
  attachments := ⟨[("web_11.0.0.tgz".toList, ⟨"AA==".toList⟩)], by decide⟩

end OpenCargo.Npm
