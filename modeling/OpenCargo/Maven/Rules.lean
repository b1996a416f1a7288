/-
Module: OpenCargo.Maven.Rules
Purpose: Maven's units (`ports/maven.rs`) and what a deposit into one may do, decided on the unit as
  read (`app/maven/rules.rs`).
Trusted boundary: none
Main exports: judgeFile_store, judgeFile_contest, judgeSum_record, judgeSum_contest
-/
import OpenCargo.Domain

namespace OpenCargo.Maven

inductive SumAlgorithm where
  | sha1
  | md5
  | sha256
  | sha512
deriving Repr, DecidableEq, Inhabited

def SumAlgorithm.asStr : SumAlgorithm → Text
  | .sha1 => "sha1".toList
  | .md5 => "md5".toList
  | .sha256 => "sha256".toList
  | .sha512 => "sha512".toList

/-- The four digests computed over bytes the server stored; lowercase hex. -/
structure Digests where
  sha1 : Text
  md5 : Text
  sha256 : Text
  sha512 : Text
deriving Repr, DecidableEq, Inhabited

def Digests.get (digests : Digests) : SumAlgorithm → Text
  | .sha1 => digests.sha1
  | .md5 => digests.md5
  | .sha256 => digests.sha256
  | .sha512 => digests.sha512

/-- Which unit: `build` is empty for a release and for a snapshot file deposited without a
timestamp. -/
structure UnitKey where
  repository : Int
  ga : Text
  version : Text
  build : Text
deriving Repr, DecidableEq, Inhabited

structure StoredFile where
  filename : Text
  physicalKey : Text
  size : Int
  digests : Digests
  depositor : Text
  createdAt : Instant
deriving Repr, DecidableEq, Inhabited

/-- A checksum a client uploaded for one file of the unit: a claim to check, never a value served. -/
structure Declaration where
  filename : Text
  algorithm : SumAlgorithm
  value : Text
deriving Repr, DecidableEq, Inhabited

/-- A release version, or one timestamped build of a snapshot. -/
structure Unit where
  version : Text
  build : Text
  revision : Int
  depositor : Text
  contested : Bool
  refused : Bool
  visibleAt : Option Instant
  createdAt : Instant
  files : List StoredFile
  declarations : List Declaration
deriving Repr, DecidableEq, Inhabited

def Unit.file (unit : Unit) (filename : Text) : Option StoredFile :=
  unit.files.find? fun f => f.filename == filename

def Unit.visible (unit : Unit) : Bool := unit.visibleAt.isSome && !unit.refused

inductive Refusal where
  | immutable
  | notDepositor
  | refused
deriving Repr, DecidableEq, Inhabited

inductive FileVerdict where
  /-- Record the file; `replaces` a pending file of the same name. -/
  | store (replaces reveal : Bool)
  /-- The same bytes are already there under that name. -/
  | identical
  /-- Another principal's different bytes, or new file, in a pending unit: refused, and the unit marked
  contested. -/
  | contest
  /-- A visible file never changes, a visible unit takes files from its depositor only, a refused unit
  takes nothing. -/
  | refuse (why : Refusal)
  /-- The depositor's own declaration for this file disagrees. -/
  | mismatch (algorithm : SumAlgorithm)
deriving Repr, DecidableEq, Inhabited

/-- Declarations still waiting for their file once `extra` is added. -/
def waiting (unit : Unit) (extra : Option Text) : Bool :=
  unit.declarations.any fun d => some d.filename != extra && (unit.file d.filename).isNone

/-- `filename.ends_with(".pom")`. -/
def isPom (filename : Text) : Bool := ".pom".toList.isSuffixOf filename

def hasPom (unit : Unit) (extraPom : Bool) : Bool :=
  extraPom || unit.files.any fun f => isPom f.filename

/-- The closure `reveal` of `judge_file`. -/
def revealed (unit : Unit) (principal : Text) (pom : Bool) (extra : Option Text) : Bool :=
  !unit.visible && unit.depositor == principal && hasPom unit pom && !waiting unit extra

def judgeFile (unit : Option Unit) (filename : Text) (digests : Digests) (principal : Text)
    (pom : Bool) : FileVerdict :=
  match unit with
  | none => .store false pom
  | some unit =>
      if unit.refused then .refuse .refused
      else
        match unit.file filename with
        | some existing =>
            if existing.digests.sha256 = digests.sha256 then .identical
            else
              match unit.visible, unit.depositor == principal with
              | true, _ => .refuse .immutable
              | false, true => .store true (revealed unit principal pom (some filename))
              | false, false => .contest
        | none =>
            match unit.visible, unit.depositor == principal with
            | true, false => .refuse .notDepositor
            | false, false => .contest
            | _, true =>
                let disagrees := unit.declarations.find? fun d =>
                  d.filename == filename && digests.get d.algorithm != d.value
                match disagrees with
                | some d => .mismatch d.algorithm
                | none => .store false (revealed unit principal pom (some filename))

inductive SumVerdict where
  /-- Keep the declaration: to check the file when it comes, or as agreed. -/
  | record
  /-- It agrees with the stored file and there is nothing to keep. -/
  | agrees
  | contest
  | refuse (why : Refusal)
  | mismatch
deriving Repr, DecidableEq, Inhabited

def judgeSum (unit : Option Unit) (filename : Text) (algorithm : SumAlgorithm) (value : Text)
    (principal : Text) : SumVerdict :=
  match unit with
  | none => .record
  | some unit =>
      if unit.refused then .refuse .refused
      else
        let agrees := (unit.file filename).map fun f => f.digests.get algorithm == value
        match agrees, unit.depositor == principal, unit.visible with
        | some true, true, _ => .record
        | some true, false, _ => .agrees
        | some false, true, _ => .mismatch
        | none, true, _ => .record
        | _, false, false => .contest
        | _, false, true => .refuse .notDepositor

/-- Whether `RunCleanup` may make a pending unit visible without its POM: old enough, never contested,
and no declaration still waiting. -/
def promotable (unit : Unit) (now : Instant) (window : Int) : Bool :=
  !unit.visible && !unit.refused && !unit.contested && !unit.files.isEmpty &&
    !waiting unit none && decide (unit.createdAt + window ≤ now)

/-! ### What a verdict says of the unit it was passed on -/

section Verdicts

variable {unit : Unit} {filename principal value : Text} {digests : Digests} {pom : Bool}
  {algorithm : SumAlgorithm}

theorem mem_of_file {f : StoredFile} (found : unit.file filename = some f) :
    f ∈ unit.files ∧ f.filename = filename :=
  ⟨List.mem_of_find?_eq_some found, by simpa using List.find?_some found⟩

/-- A file is stored in a unit that was not refused, for its depositor; in a visible one under a new
name only; and where no file of its name stood, every declaration kept for it agrees with it. -/
structure Stores (unit : Unit) (filename principal : Text) (digests : Digests) (pom : Bool)
    (reveal : Bool) : Prop where
  unrefused : unit.refused = false
  own : unit.depositor = principal
  added : unit.visible = true → unit.file filename = none
  agrees : unit.file filename = none →
    ∀ d ∈ unit.declarations, d.filename = filename → digests.get d.algorithm = d.value
  pom : reveal = true → hasPom unit pom = true

theorem hasPom_of_revealed {extra : Option Text}
    (shown : revealed unit principal pom extra = true) : hasPom unit pom = true := by
  simp only [revealed, Bool.and_eq_true] at shown
  exact shown.1.2

theorem judgeFile_store {replaces reveal : Bool}
    (judged : judgeFile (some unit) filename digests principal pom = .store replaces reveal) :
    Stores unit filename principal digests pom reveal := by
  cases refused : unit.refused with
  | true => simp [judgeFile, refused] at judged
  | false =>
      cases found : unit.file filename with
      | some existing =>
          simp only [judgeFile, refused, found, Bool.false_eq_true, if_false] at judged
          split at judged
          · cases judged
          · split at judged
            · cases judged
            · -- a pending file, replaced by its depositor
              rename_i visible own
              cases judged
              exact
                { unrefused := refused
                  own := by simpa using own
                  added := fun shown => by simp [visible] at shown
                  agrees := fun none => by simp [found] at none
                  pom := hasPom_of_revealed }
            · cases judged
      | none =>
          simp only [judgeFile, refused, found, Bool.false_eq_true, if_false] at judged
          split at judged
          · cases judged
          · cases judged
          · rename_i own
            split at judged
            · cases judged
            · rename_i agreed
              cases judged
              have agrees : ∀ d ∈ unit.declarations, d.filename = filename →
                  digests.get d.algorithm = d.value := by
                simpa using List.find?_eq_none.mp agreed
              exact
                { unrefused := refused
                  own := by simpa using own
                  added := fun _ => found
                  agrees := fun _ => agrees
                  pom := hasPom_of_revealed }

/-- A contest is about a pending unit. -/
structure Pending (unit : Unit) : Prop where
  unrefused : unit.refused = false
  hidden : unit.visible = false

theorem judgeFile_contest {read : Option Unit}
    (judged : judgeFile read filename digests principal pom = .contest) :
    ∃ unit, read = some unit ∧ Pending unit := by
  cases read with
  | none => cases judged
  | some unit =>
      cases refused : unit.refused with
      | true => simp [judgeFile, refused] at judged
      | false =>
          cases hidden : unit.visible with
          | false => exact ⟨unit, rfl, refused, hidden⟩
          | true =>
              simp only [judgeFile, refused, hidden, Bool.false_eq_true, if_false] at judged
              split at judged
              · split at judged <;> cases judged
              · split at judged
                · cases judged
                · contradiction
                · split at judged <;> cases judged

/-- What is recorded is the depositor's, and agrees with the file when the file is there. -/
structure Records (unit : Unit) (filename principal : Text) (algorithm : SumAlgorithm)
    (value : Text) : Prop where
  unrefused : unit.refused = false
  own : unit.depositor = principal
  agrees : ∀ f, unit.file filename = some f → f.digests.get algorithm = value

theorem judgeSum_record
    (judged : judgeSum (some unit) filename algorithm value principal = .record) :
    Records unit filename principal algorithm value := by
  cases refused : unit.refused with
  | true => simp [judgeSum, refused] at judged
  | false =>
      simp only [judgeSum, refused, Bool.false_eq_true, if_false] at judged
      split at judged
      · rename_i agreed own
        refine ⟨refused, by simpa using own, fun f found => ?_⟩
        simpa [found] using agreed
      · cases judged
      · cases judged
      · rename_i absent own
        refine ⟨refused, by simpa using own, fun f found => ?_⟩
        simp [found] at absent
      · cases judged
      · cases judged

theorem judgeSum_contest {read : Option Unit}
    (judged : judgeSum read filename algorithm value principal = .contest) :
    ∃ unit, read = some unit ∧ Pending unit := by
  cases read with
  | none => cases judged
  | some unit =>
      cases refused : unit.refused with
      | true => simp [judgeSum, refused] at judged
      | false =>
          cases hidden : unit.visible with
          | false => exact ⟨unit, rfl, refused, hidden⟩
          | true =>
              simp only [judgeSum, refused, hidden, Bool.false_eq_true, if_false] at judged
              split at judged <;> simp_all

theorem promotable_spec {now : Instant} {window : Int}
    (judged : promotable unit now window = true) : Pending unit ∧ unit.contested = false := by
  simp only [promotable, Bool.and_eq_true, Bool.not_eq_true'] at judged
  exact ⟨⟨judged.1.1.1.1.2, judged.1.1.1.1.1⟩, judged.1.1.1.2⟩

end Verdicts

end OpenCargo.Maven
