/-
Module: OpenCargo.Import.Ports
Purpose: The vocabulary of a migration import: what a gap, an exit code and an item's status are
  (`crates/domain/src/import.rs`), and what a source, a sink and the journal pass to each other
  (`ports/import.rs`).
Trusted boundary: none
Main exports: Outcome, Journaled, JournalError
-/
import OpenCargo.Domain

namespace OpenCargo.Import

/-! ### Gaps and exit codes -/

/-- Why a coordinate of the source is not, or not provably, in the target. -/
inductive GapKind where
  | unsupportedFormat
  | noTarget
  | targetCollision
  | copiedUnverified
  | skippedUnverifiable
  | tooLarge
  | listingIncomplete
  | sourceOnlyFeature
  | permissionNotMapped
  | targetRefused
  | unpublishableName
  | failed
deriving Repr, DecidableEq, Inhabited

/-! ### Items -/

/-- A package ecosystem as a source registry names it, wider than what this registry serves. -/
inductive SourceFormat where
  | npm
  | maven
  | raw
  | oci
  | pypi
  | nuget
  | cargo
  | go
  | rubyGems
  | helm
  | other
deriving Repr, DecidableEq, Inhabited

def SourceFormat.asStr : SourceFormat → Text
  | .npm => "npm".toList
  | .maven => "maven".toList
  | .raw => "raw".toList
  | .oci => "oci".toList
  | .pypi => "pypi".toList
  | .nuget => "nuget".toList
  | .cargo => "cargo".toList
  | .go => "go".toList
  | .rubyGems => "rubygems".toList
  | .helm => "helm".toList
  | .other => "other".toList

/-- The format this registry would store it as, if it has one. -/
def SourceFormat.target : SourceFormat → Option Format
  | .npm => some .npm
  | .oci => some .oci
  | .cargo => some .cargo
  | .go => some .go
  | .pypi => some .pypi
  | .maven => some .maven
  | .nuget => some .nuget
  | .raw | .rubyGems | .helm | .other => none

/-- Where one planned coordinate stands in the copy. -/
inductive ItemStatus where
  | pending
  | running
  | copied
  | skipped
  | failed
deriving Repr, DecidableEq, Inhabited

/-- `repo` is the source repository, project or namespace; `version` is the tag, for OCI. -/
structure Coord where
  repo : Text
  name : Text
  version : Text
deriving Repr, DecidableEq, Inhabited

structure Digests where
  sha256 : Option Text
  sha1 : Option Text
  integrity : Option Text
  md5 : Option Text
deriving Repr, DecidableEq, Inhabited

/-- Where an item's bytes are, as coordinates the adapter re-derives a request from. -/
inductive Origin where
  | asset (endpoint repo path : Text)
  | npm (registry package : Text)
  | cargo (index name version : Text)
  | go (proxy module version : Text)
  | oci (registry image reference : Text)
deriving Repr, DecidableEq, Inhabited

def Origin.strings : Origin → List Text
  | .asset endpoint repo path => [endpoint, repo, path]
  | .npm registry package => [registry, package]
  | .cargo index name version => [index, name, version]
  | .go proxy module version => [proxy, module, version]
  | .oci registry image reference => [registry, image, reference]

/-- Facts about a package, not a version. -/
structure PkgExtra where
  distTags : List (Text × Text)
  labels : List Text
deriving Repr, DecidableEq, Inhabited

/-- Facts about one version the publish body cannot carry. -/
structure VersionExtra where
  yanked : Bool
deriving Repr, DecidableEq, Inhabited

/-- `sourceRef` is the idempotency key, stable across runs. -/
structure Item where
  sourceRef : Text
  format : SourceFormat
  coord : Coord
  publishedAt : Option Instant
  size : Option Nat
  want : Digests
  origin : Origin
  pkg : PkgExtra
  extra : VersionExtra
deriving Repr, DecidableEq, Inhabited

structure Gap where
  kind : GapKind
  sourceRef : Text
  detail : Text
deriving Repr, DecidableEq, Inhabited

/-- An item the plan kept, with where it goes. -/
structure Planned where
  item : Item
  targetRepo : Text
  targetName : Text
  targetFormat : Format
deriving Repr, DecidableEq, Inhabited

/-! ### What the parts answer -/

abbrev Cursor := Option Text

/-- Which worker pool claims an item. -/
inductive Lane where
  | blob
  | file
deriving Repr, DecidableEq, Inhabited

structure RunHeader where
  source : Text
  sourceUrl : Text
  targetUrl : Text
  optsJson : Text
  startedAt : Instant
  finishedAt : Option Instant
  phase : Text
  owner : Option Text
deriving Repr, DecidableEq, Inhabited

/-- An item as the journal holds it. -/
structure Journaled where
  planned : Planned
  status : ItemStatus
  attempts : Nat
  bytes : Option Nat
  sha256 : Option Text
  error : Option Text
  note : Option Text
deriving Repr, DecidableEq, Inhabited

structure Outcome where
  status : ItemStatus
  bytes : Option Nat
  sha256 : Option Text
  error : Option Text
  note : Option Text
  gaps : List Gap
deriving Repr, DecidableEq, Inhabited

inductive JournalError where
  | busy (holder : Text)
  | lost (holder : Text)
  | incompatible (message : Text)
  | unredacted (message : Text)
  | io (message : Text)
deriving Repr, DecidableEq, Inhabited

end OpenCargo.Import
