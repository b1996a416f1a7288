/-
Module: OpenCargo.Nuget.Model
Purpose: A NuGet version, its key and its precedence (`registry/nuget/version.rs`), and what a registration
  says about one version of a package (`registry/nuget/model.rs`): an entry made of a hosted row, and the
  entries of several members as one list.
Trusted boundary: the reading of `metadata_json` (a parameter); of a nuspec only the fields an entry is made of
  are told apart
Main exports: Entry, Entry.fromHosted, merge, sort
-/
import OpenCargo.Domain
import OpenCargo.Lib.Merging
import OpenCargo.Lib.Segments

namespace OpenCargo.Nuget

open OpenCargo.Lib (splitOnce firsts)

/-! ### Versions -/

/-- `Major.Minor[.Patch[.Revision]][-Release][+Metadata]`. -/
structure NuGetVersion where
  numbers : List Nat
  release : List Text
  metadata : Option Text
deriving Repr, DecidableEq, Inhabited

/-- `MAX_LEN`. -/
def maxLen : Nat := 256

def isLabel (s : Text) : Bool := !s.isEmpty && s.all fun c => c.isAlphanum || c == '-'

/-- A `u64` in decimal. -/
def parseNumber (s : Text) : Option Nat :=
  if s.isEmpty || !s.all Char.isDigit then none
  else
    let n := Nat.ofDigitChars 10 s 0
    if n < 2 ^ 64 then some n else none

namespace NuGetVersion

/-- What passes is ASCII, so that its bytes are its characters and a blank at an end is refused with the rest. -/
def parse (raw : Text) : Option NuGetVersion := do
  if raw.isEmpty || decide (maxLen < raw.length) then none
  let (rest, metadata) ← match splitOnce '+' raw with
    | some (rest, label) => if (label.splitOn '.').all isLabel then some (rest, some label) else none
    | none => some (raw, none)
  let (core, release) ← match splitOnce '-' rest with
    | some (core, labels) =>
        if (labels.splitOn '.').all isLabel then some (core, labels.splitOn '.') else none
    | none => some (rest, [])
  let parts := core.splitOn '.'
  if parts.length < 2 || 4 < parts.length then none
  let numbers ← parts.mapM parseNumber
  return ⟨numbers ++ List.replicate (4 - numbers.length) 0, release, metadata⟩

def isPrerelease (v : NuGetVersion) : Bool := !v.release.isEmpty

/-- The numbers, a revision of zero dropped, and the release labels. -/
def normal (v : NuGetVersion) : Text :=
  let shown := if v.numbers.getD 3 0 = 0 then v.numbers.take 3 else v.numbers
  ['.'].intercalate (shown.map (Nat.toDigits 10)) ++
    if v.isPrerelease then '-' :: ['.'].intercalate v.release else []

/-- The key every uniqueness check, storage key and URL uses. -/
def key (v : NuGetVersion) : Text := v.normal.map Char.toLower

def full (v : NuGetVersion) : Text :=
  match v.metadata with
  | some label => v.normal ++ '+' :: label
  | none => v.normal

/-- Numeric labels by their value, below all others. -/
def compareLabel (a b : Text) : Ordering :=
  match a.all Char.isDigit, b.all Char.isDigit with
  | true, true =>
      let a := a.dropWhile (· == '0')
      let b := b.dropWhile (· == '0')
      (compare a.length b.length).then (compare a b)
  | true, false => .lt
  | false, true => .gt
  | false, false => compare (a.map Char.toLower) (b.map Char.toLower)

def compareRelease : List Text → List Text → Ordering
  | a :: as, b :: bs => (compareLabel a b).then (compareRelease as bs)
  | as, bs => compare as.length bs.length

/-- Precedence, which ignores build metadata. -/
def cmp (a b : NuGetVersion) : Ordering :=
  (compare a.numbers b.numbers).then <|
    match a.isPrerelease, b.isPrerelease with
    | false, false => .eq
    | false, true => .gt
    | true, false => .lt
    | true, true => compareRelease a.release b.release

end NuGetVersion

/-- A key that does not parse sorts first. -/
def compareKeys (a b : Text) : Ordering :=
  match NuGetVersion.parse a, NuGetVersion.parse b with
  | some x, some y => x.cmp y
  | some _, none => .gt
  | none, some _ => .lt
  | none, none => compare a b

/-! ### Rows -/

/-- A row of `packages`. -/
structure Package where
  id : Nat
  repository : Int
  name : Text
  description : Option Text
deriving Repr, DecidableEq, Inhabited

/-- A row of `versions`: what a registration, a search and a stamp read. -/
structure Version where
  id : Nat
  package : Nat
  version : Text
  metadata : Text
  publishedAt : Instant
  yanked : Bool
deriving Repr, DecidableEq, Inhabited

structure Nuspec where
  id : Text
  version : Text
  /-- What else it says, which only the renderer reads. -/
  rest : Text
deriving Repr, DecidableEq, Inhabited

/-- The facts a version row carries in `metadata_json`. -/
structure HostedFacts where
  prerelease : Bool
  semver2 : Bool
  packageTypes : List Text
  nuspec : Nuspec
deriving Repr, DecidableEq, Inhabited

/-! ### Entries -/

structure Entry where
  /-- The id as the package spells it. -/
  id : Text
  /-- The normalized version with metadata and case, for display. -/
  version : Text
  /-- The flat-container key. -/
  key : Text
  listed : Bool
  published : Option Instant
  nuspec : Nuspec
  catalog : Option Text
deriving Repr, DecidableEq, Inhabited

/-- `decode` reads `metadata_json`; what it cannot read is taken for empty. -/
def Entry.fromHosted (decode : Text → Option HostedFacts) (package : Package) (version : Version) : Entry :=
  let facts := (decode version.metadata).getD default
  { id := if facts.nuspec.id.isEmpty then package.name else facts.nuspec.id
    version := ((NuGetVersion.parse facts.nuspec.version).map NuGetVersion.full).getD version.version
    key := version.version
    listed := !version.yanked
    published := some version.publishedAt
    nuspec := facts.nuspec
    catalog := none }

def sort (entries : List Entry) : List Entry :=
  entries.insertionSort fun a b => compareKeys a.key b.key ≠ .gt

/-- Entries of several members, the first member's winning; sorted by precedence. -/
def merge (members : List (List Entry)) : List Entry := sort (firsts Entry.key [] members.flatten)

end OpenCargo.Nuget
