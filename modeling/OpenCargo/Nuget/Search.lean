/-
Module: OpenCargo.Nuget.Search
Purpose: NuGet's search (`registry/nuget/search.rs`): what a hosted member answers through the feed port
  (`ports/nuget.rs`), what an upstream answers (`registry/nuget/upstream.rs`), and the window a group shows of
  their union.
Trusted boundary: Unicode's lower case and the reading of `metadata_json` (parameters); that an upstream cuts its
  ranked list at the number asked; which members answer, and in which order
Main exports: Member, Member.answer, merge, search
-/
import OpenCargo.Lib.Merging
import OpenCargo.Nuget.Model

namespace OpenCargo.Nuget.Search

open OpenCargo.Lib (firsts)

/-! ### The request -/

def maxTake : UInt32 := 1000

def defaultTake : UInt32 := 20

structure SearchParams where
  q : Option Text
  skip? : Option UInt32
  take? : Option UInt32
  prerelease : Option Bool
  semVerLevel : Option Text
  packageType : Option Text
deriving Repr, DecidableEq, Inhabited

namespace SearchParams

def skip (params : SearchParams) : UInt32 := params.skip?.getD 0

def take (params : SearchParams) : UInt32 := min (params.take?.getD defaultTake) maxTake

def semver2 (params : SearchParams) : Bool := params.semVerLevel.any fun level => level.head? == some '2'

/-- What every member is asked for. The sum wraps, as `u32` does where overflow is not checked. -/
def cut (params : SearchParams) : UInt32 := params.skip + params.take

end SearchParams

/-! ### The feed port -/

/-- The characters with Unicode's `White_Space`. -/
def isWhitespace (c : Char) : Bool :=
  let n := c.toNat
  (0x9 ≤ n && n ≤ 0xd) || n == 0x20 || n == 0x85 || n == 0xa0 || n == 0x1680 || (0x2000 ≤ n && n ≤ 0x200a) ||
    n == 0x2028 || n == 0x2029 || n == 0x202f || n == 0x205f || n == 0x3000

def splitWhitespace (s : Text) : List Text := (s.splitOnP isWhitespace).filter fun word => !word.isEmpty

/-- The facts of a version the port reads, each with its default. -/
structure Facts where
  prerelease : Bool
  semver2 : Bool
  packageTypes : List Text
deriving Repr, DecidableEq, Inhabited

/-- How texts are lowered and facts are read. -/
structure Reading where
  toLowercase : Text → Text
  facts : Text → Option Facts
  decode : Text → Option HostedFacts

structure FeedQuery where
  text : Option Text
  skip : UInt32
  take : UInt32
  prerelease : Bool
  semver2 : Bool
  packageType : Option Text
deriving Repr, DecidableEq, Inhabited

structure FeedHit where
  package : Package
  /-- Listed versions that pass the filters, in publication order. -/
  versions : List Version
  downloads : Int
deriving Repr, DecidableEq, Inhabited

namespace FeedQuery

variable (reading : Reading) (query : FeedQuery)

def tokens : List Text := (splitWhitespace (query.text.getD [])).map reading.toLowercase

def matches_ (package : Package) : Bool :=
  (query.tokens reading).all fun t =>
    decide (t <:+: reading.toLowercase package.name) ||
      package.description.any fun d => decide (t <:+: reading.toLowercase d)

def admits (version : Version) : Bool :=
  if version.yanked then false
  else
    let facts := (reading.facts version.metadata).getD default
    (query.prerelease || !facts.prerelease) && (query.semver2 || !facts.semver2) &&
      query.packageType.all fun wanted =>
        facts.packageTypes.any fun t => t.map Char.toLower == wanted.map Char.toLower

/-- One candidate: dropped where none of its versions passes. -/
def keep (candidate : FeedHit) : Option FeedHit :=
  let versions := candidate.versions.filter (query.admits reading)
  if versions.isEmpty then none else some { candidate with versions }

/-- The candidates that pass, in the order of their names. -/
def kept (candidates : List FeedHit) : List FeedHit :=
  ((candidates.filter fun c => query.matches_ reading c.package).filterMap (query.keep reading)).insertionSort
    fun a b => a.package.name ≤ b.package.name

/-- The total, and the window. -/
def page (candidates : List FeedHit) : Nat × List FeedHit :=
  let kept := query.kept reading candidates
  (kept.length, (kept.drop query.skip.toNat).take query.take.toNat)

end FeedQuery

/-! ### The members -/

/-- One package of a search. -/
structure Hit where
  key : Text
  entries : List Entry
  downloads : Int
deriving Repr, DecidableEq, Inhabited

structure Found where
  total : Nat
  hits : List Hit
deriving Repr, DecidableEq, Inhabited

/-- What a member holds for a query: the candidates of a hosted repository, no two of one name, or the hits an
upstream ranks. An upstream that offers no search ranks none. -/
inductive Member where
  | hosted (candidates : List FeedHit) (once : (candidates.map fun c => c.package.name).Nodup)
  | upstream (total : Nat) (ranked : List Hit)

section Answers

variable (reading : Reading) (params : SearchParams)

def feedQuery : FeedQuery where
  text := params.q
  skip := 0
  take := params.cut
  prerelease := params.prerelease.getD false
  semver2 := params.semver2
  packageType := params.packageType

def hitOf (hit : FeedHit) : Hit where
  key := hit.package.name
  entries := sort (hit.versions.map (Entry.fromHosted reading.decode hit.package))
  downloads := hit.downloads

/-- A member's answer for its first `skip + take` rows. -/
def Member.answer : Member → Found
  | hosted candidates _ =>
      let (total, hits) := (feedQuery params).page reading candidates
      ⟨total, hits.map (hitOf reading)⟩
  | upstream total ranked => ⟨total, ranked.take params.cut.toNat⟩

/-- All it lists for the query, in its own order. -/
def Member.listing : Member → List Hit
  | hosted candidates _ => ((feedQuery params).kept reading candidates).map (hitOf reading)
  | upstream _ ranked => ranked

end Answers

/-! ### The union -/

/-- The hits of an answer counted once: the total less the ids another member returned before. -/
def countHits : Nat → List Hit → List Hit → Nat × List Hit
  | total, out, [] => (total, out)
  | total, out, h :: hits =>
      if out.any fun o => o.key == h.key then countHits (total - 1) out hits else countHits total (out ++ [h]) hits

def countAll : Nat → List Hit → List Found → Nat × List Hit
  | total, out, [] => (total, out)
  | total, out, f :: found =>
      let (total, out) := countHits (total + f.total) out f.hits
      countAll total out found

/-- The members' hits merged by id. -/
def merge (found : List Found) (skip take : UInt32) : Nat × List Hit :=
  let (total, hits) := countAll 0 [] found
  let hits := if 1 < hits.length then hits.insertionSort fun a b => a.key ≤ b.key else hits
  (total, (hits.drop skip.toNat).take take.toNat)

/-- `search`: the total, and the hits shown; one that has no version is not. -/
def search (reading : Reading) (params : SearchParams) (members : List Member) : Nat × List Hit :=
  let (total, window) := merge (members.map (Member.answer reading params)) params.skip params.take
  (total, window.filter fun h => !h.entries.isEmpty)

end OpenCargo.Nuget.Search
