/-
Module: OpenCargo.Npm.Publish
Purpose: How an npm publish body is decided (`plan_versions` of `registry/npm/publish.rs`): each version's
  attachment is looked for among the body's, decoded, checksummed and gated, before anything is written.
Trusted boundary: base64 and the digests; the vulnerability gate; JSON text is kept as the value it reads as
Main exports: Tools, withDist, prepareVersion, planVersions
-/
import OpenCargo.Lib.Entries
import OpenCargo.Lib.Fallible
import OpenCargo.Npm.Names
import OpenCargo.Storage

namespace OpenCargo.Npm

open OpenCargo.Lib (Entries Json valueAt setAt bind_eq_ok)

/-! ### The body -/

structure Attachment where
  data : Text
deriving Repr, DecidableEq, Inhabited

/-- A publish body, its maps in the order they are walked. -/
structure PublishBody where
  name : Text
  versions : Entries Text Json
  attachments : Entries Text Attachment

/-- `"@acme/httpclient-1.0.0.tgz"`. -/
def scopedFilename (package version : Text) : Text := fileOf package version

/-- npm keys attachments as `"httpclient-1.0.0.tgz"` or `"@acme/httpclient-1.0.0.tgz"`. -/
def findAttachmentKey (attachments : Entries Text Attachment) (package version : Text) : Option Text :=
  if attachments.hasKey (buildTarballFilename package version) then
    some (buildTarballFilename package version)
  else if attachments.hasKey (scopedFilename package version) then some (scopedFilename package version)
  else attachments.keys.find? fun k => version <:+: k

/-! ### A version -/

/-- A row of `versions`, as far as npm reads it. -/
structure Version where
  id : Int
  version : Text
  metadata : Json
  checksumSha256 : Option Text
  tarballPath : Text
  size : Nat

structure NewVersion (PreScan : Type) where
  version : Text
  tarball : Bytes
  sha1 : Text
  sha256 : Text
  integrity : Text
  filename : Text
  metadata : Json
  pre : PreScan

/-- One version of the body, decided before any write. A new one comes from the attachment of the name `key`,
which the code does not keep. -/
inductive Step (PreScan : Type) where
  | update (existing : Version) (metadata : Json)
  | new (key : Text) (version : NewVersion PreScan)

/-- What the plan rests on outside the registry. -/
structure Tools (PreScan : Type) where
  decode : Text → Except Text Bytes
  sha1 : Bytes → Text
  sha256 : Bytes → Text
  sha512 : Bytes → Text
  gate : Json → Except AppError PreScan

/-- `dist` is pointed at this server with the checksums it computed. -/
def withDist (metadata : Json) (tarballUrl sha1 integrity : Text) : Json :=
  let dist := [("tarball".toList, Json.string tarballUrl), ("shasum".toList, .string sha1),
    ("integrity".toList, .string integrity)]
  match (metadata.get "dist".toList).bind Json.asObject with
  | some existing =>
      metadata.insert "dist".toList
        (.object (dist.foldl (fun members (name, value) => setAt name value members) existing))
  | none => metadata.insert "dist".toList (.object dist)

/-- The tarball URL a version is published with. -/
def publishedUrl (baseUrl repo package filename : Text) : Text :=
  baseUrl ++ "/".toList ++ repo ++ "/".toList ++ package ++ "/-/".toList ++ filename

/-- Tools that let everything through. -/
def openTools : Tools Unit where
  decode := fun _ => .ok [0]
  sha1 := fun _ => []
  sha256 := fun _ => "ab".toList
  sha512 := fun _ => []
  gate := fun _ => .ok ()

section Plan

variable {PreScan : Type} (tools : Tools PreScan) (baseUrl repo package : Text)

/-- The `dist.shasum` a version's metadata names. -/
def expectedShasum (metadata : Json) : Option Text :=
  ((metadata.get "dist".toList).bind (·.get "shasum".toList)).bind Json.asStr

def checkShasum (metadata : Json) (sha1 : Text) : Except AppError Unit :=
  match expectedShasum metadata with
  | some expected =>
      if !expected.isEmpty && expected ≠ sha1 then
        .error (.badRequest ("shasum mismatch: expected ".toList ++ expected ++ ", got ".toList ++ sha1))
      else .ok ()
  | none => .ok ()

def prepareVersion (version : Text) (metadata : Json) (attachment : Attachment) :
    Except AppError (NewVersion PreScan) := do
  let tarball ← (tools.decode attachment.data).mapError fun e =>
    .badRequest ("invalid base64 attachment: ".toList ++ e)
  let sha1 := tools.sha1 tarball
  checkShasum metadata sha1
  let integrity := "sha512-".toList ++ tools.sha512 tarball
  let filename := buildTarballFilename package version
  let metadata := withDist metadata (publishedUrl baseUrl repo package filename) sha1 integrity
  let pre ← tools.gate metadata
  return ⟨version, tarball, sha1, tools.sha256 tarball, integrity, filename, metadata, pre⟩

theorem prepareVersion_eq_ok {version : Text} {metadata : Json} {attachment : Attachment}
    {prepared : NewVersion PreScan}
    (done : prepareVersion tools baseUrl repo package version metadata attachment = .ok prepared) :
    ∃ tarball pre, tools.decode attachment.data = .ok tarball ∧ prepared =
      { version, tarball, sha1 := tools.sha1 tarball, sha256 := tools.sha256 tarball
        integrity := "sha512-".toList ++ tools.sha512 tarball
        filename := buildTarballFilename package version
        metadata := withDist metadata (publishedUrl baseUrl repo package (buildTarballFilename package version))
          (tools.sha1 tarball) ("sha512-".toList ++ tools.sha512 tarball)
        pre } := by
  rw [prepareVersion] at done
  obtain ⟨tarball, decoded, rest⟩ := bind_eq_ok.mp done
  have decoded : tools.decode attachment.data = .ok tarball := by
    cases is : tools.decode attachment.data with
    | error e =>
        rw [is] at decoded
        cases decoded
    | ok bytes =>
        rw [is] at decoded
        cases decoded
        rfl
  obtain ⟨_, _, rest⟩ := bind_eq_ok.mp rest
  obtain ⟨pre, _, made⟩ := bind_eq_ok.mp rest
  cases made
  exact ⟨tarball, pre, decoded, rfl⟩

/-- `PackageStore::version`, among the versions of the package, if it is there. -/
def storedVersion (existing : Option (List Version)) (version : Text) : Option Version :=
  existing.bind fun versions => versions.find? fun row => row.version == version

/-- The attachment that is taken for a version. -/
def attachmentOf (attachments : Entries Text Attachment) (version : Text) : Option (Text × Attachment) := do
  let key ← findAttachmentKey attachments package version
  let attachment ← attachments.get key
  return (key, attachment)

/-- One turn of `plan_versions`. -/
def planVersion (existing : Option (List Version)) (attachments : Entries Text Attachment)
    (entry : Text × Json) : Except AppError (Step PreScan) :=
  match validateVersion entry.1 with
  | .error e => .error (.domain e)
  | .ok () =>
      -- A publish carries a tarball attachment; `npm deprecate` does not.
      let attachment := attachmentOf package attachments entry.1
      match storedVersion existing entry.1 with
      | some held =>
          if attachment.isSome then
            .error (.conflict ("version ".toList ++ entry.1 ++ " already exists for ".toList ++ package))
          else .ok (.update held entry.2)
      | none =>
          match attachment with
          | none => .error (.badRequest ("no attachment found for version ".toList ++ entry.1))
          | some (key, attachment) =>
              (prepareVersion tools baseUrl repo package entry.1 entry.2 attachment).map (.new key)

/-- Every version is decided before the first write. -/
def planVersions (existing : Option (List Version)) (body : PublishBody) :
    Except AppError (List (Step PreScan)) :=
  body.versions.toList.mapM (planVersion tools baseUrl repo package existing body.attachments)

end Plan

end OpenCargo.Npm
