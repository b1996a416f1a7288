/-
Module: OpenCargo.Import.Plan
Purpose: What an import plans to copy (`app/import/plan.rs`): the filters, the version limits per package and
  the target's rules, over one batch of a listing; and what the batches of a listing plan together.
Trusted boundary: how the semver crate reads and orders versions; the name rules of the formats
Main exports: Planner.planAll, mem_plan, Together, planned_by_batch
-/
import OpenCargo.Import.Ports
import OpenCargo.Lib.Ranked

namespace OpenCargo.Import

open OpenCargo.Lib (first mem_of_mem_first mem_first_of_length_le mem_first_flatten)

/-! ### The filters -/

def bytes (t : Text) : List UInt8 := (String.ofList t).toUTF8.data.toList

def star : UInt8 := 42
def slash : UInt8 := 47
def question : UInt8 := 63

/-- The ends of a text that a `*` may leave: it stays inside one segment. -/
def withinSegment : List UInt8 → List (List UInt8)
  | [] => [[]]
  | c :: t => (c :: t) :: if c = slash then [] else withinSegment t

/-- `glob_match`'s `go`. -/
def globGo : List UInt8 → List UInt8 → Bool
  | [], t => t.isEmpty
  | [c], t =>
      if c = star then (withinSegment t).any (globGo [])
      else if c = question then t.head?.any (· ≠ slash) && globGo [] t.tail
      else t.head? = some c && globGo [] t.tail
  | c :: d :: rest, t =>
      if c = star && d = star then
        (match rest with
          | e :: after => e = slash && globGo after t
          | [] => false) || t.tails.any (globGo rest)
      else if c = star then (withinSegment t).any (globGo (d :: rest))
      else if c = question then t.head?.any (· ≠ slash) && globGo (d :: rest) t.tail
      else t.head? = some c && globGo (d :: rest) t.tail

/-- `*` and `?` stay inside one `/`-separated segment, `**` crosses them. -/
def globMatch (pattern text : Text) : Bool := globGo (bytes pattern) (bytes text)

structure PlanRules where
  /-- `src=dst`, first match wins. -/
  maps : List (Text × Text)
  targetRepo : Option Text
  include_ : List Text
  exclude : List Text
  since : Option Instant
  until_ : Option Instant
  latestOnly : Bool
  maxVersions : Option Nat
  flattenNames : Bool
deriving Repr, DecidableEq, Inhabited

/-- `target_repo`. -/
def PlanRules.target (rules : PlanRules) (sourceRepo : Text) : Option Text :=
  match rules.maps.find? fun (src, _) => globMatch src sourceRepo with
  | some (_, dst) => some dst
  | none => rules.targetRepo

def keepByFilters (rules : PlanRules) (it : Item) : Bool :=
  let key := it.coord.repo ++ "/".toList ++ it.coord.name
  if !rules.include_.isEmpty && !rules.include_.any fun g => globMatch g key then false
  else if rules.exclude.any fun g => globMatch g key then false
  else
    match it.publishedAt with
    | some at_ => rules.since.all (· ≤ at_) && rules.until_.all (at_ ≤ ·)
    | none => true

/-- `oci_qualifier`: a namespace folded into one lowercase segment; runs of anything else become one `-`. -/
def ociQualifier (name : Text) : Option Text :=
  let out := go [] false name
  if out.isEmpty then none else some out
where
  go (out : Text) (pendingSep : Bool) : Text → Text
    | [] => out
    | c :: rest =>
        let c := c.toLower
        if c.isLower || c.isDigit then
          go ((if pendingSep && !out.isEmpty then out ++ ['-'] else out) ++ [c]) false rest
        else go out true rest

/-- The rules of a format that planning asks, each with the text it refuses with. -/
structure FormatRules where
  admits : Text → Except Text Unit
  validateVersion : Text → Except Text Unit

/-- A planner; `parse` is `semver::Version::parse`. -/
structure Planner (V : Type) where
  rules : PlanRules
  sinks : List Format
  names : Format → Option FormatRules
  parse : Text → Option V

namespace Planner

variable {V : Type} (pl : Planner V)

def targetName (it : Item) (format : Format) : Except Text Text :=
  if format ≠ .oci || pl.rules.flattenNames || it.coord.repo.isEmpty then .ok it.coord.name
  else
    match ociQualifier it.coord.repo with
    | some q => .ok (q ++ "/".toList ++ it.coord.name)
    | none =>
        .error ("source namespace '".toList ++ it.coord.repo ++
          "' leaves no valid OCI segment; route it with --map".toList)

def checkNames (it : Item) (format : Format) (name : Text) : Except Text Unit :=
  match pl.names format with
  | none => .ok ()
  | some rules => do
      rules.admits name
      rules.validateVersion it.coord.version

def planOne (it : Item) : Except Gap Planned :=
  match it.format.target with
  | none =>
      .error ⟨.unsupportedFormat, it.coord.repo,
        it.format.asStr ++ " is not a format this registry serves".toList⟩
  | some format =>
      if !pl.sinks.contains format then
        .error ⟨.unsupportedFormat, it.coord.repo,
          "the importer has no ".toList ++ format.asStr ++ " sink yet".toList⟩
      else
        match pl.rules.target it.coord.repo with
        | none =>
            .error ⟨.noTarget, it.sourceRef,
              "no --map or --target-repo for source repository '".toList ++ it.coord.repo ++ "'".toList⟩
        | some repo =>
            match pl.targetName it format with
            | .error e => .error ⟨.unpublishableName, it.sourceRef, e⟩
            | .ok name =>
                match pl.checkNames it format name with
                | .error e => .error ⟨.unpublishableName, it.sourceRef, e⟩
                | .ok () => .ok ⟨it, repo, name, format⟩

/-- The package the limits count in. -/
def packageOf (it : Item) : Text × Text := (it.coord.repo, it.coord.name)

/-- What the filters keep of a package, in the order of the listing. -/
def kept (items : List Item) (package : Text × Text) : List Item :=
  items.filter fun it => keepByFilters pl.rules it && packageOf it == package

/-- `by_pkg`, the packages the filters keep something of, in their order. -/
def packages (items : List Item) : List (Text × Text) :=
  ((items.filter (keepByFilters pl.rules)).map packageOf).dedup.insertionSort
    fun a b => [a.1, a.2] ≤ [b.1, b.2]

def limit : Option Nat := if pl.rules.latestOnly then some 1 else pl.rules.maxVersions

variable [LinearOrder V]

/-- A version that parses is after every one that does not; the texts decide among equals. -/
def versionKey (v : Text) : Lex (WithBot V × Text) :=
  toLex (match pl.parse (v.dropWhile (· == 'v')) with
    | some version => (version : WithBot V)
    | none => ⊥, v)

/-- The order `sort_by_key(Reverse(version_key))` sorts by. -/
def Newer (a b : Item) : Prop := pl.versionKey b.coord.version ≤ pl.versionKey a.coord.version

instance : DecidableRel pl.Newer := fun a b =>
  inferInstanceAs (Decidable (pl.versionKey b.coord.version ≤ pl.versionKey a.coord.version))

instance : Std.Total pl.Newer := ⟨fun _ _ => le_total _ _⟩

instance : IsTrans Item pl.Newer := ⟨fun _ _ _ newer newest => le_trans newest newer⟩

/-- The versions the limit allows. -/
def newest (versions : List Item) : List Item :=
  match pl.limit with
  | none => versions
  | some n => first pl.Newer n versions

/-- `plan`: filters, then the version limits per package, then the target rules. -/
def plan (items : List Item) : List Planned × List Gap :=
  let versions := (pl.packages items).flatMap fun package => pl.newest (pl.kept items package)
  (versions.filterMap fun it => (pl.planOne it).toOption,
    versions.filterMap fun it =>
      match pl.planOne it with
      | .ok _ => none
      | .error gap => some gap)

/-- What a run plans of a listing that comes in batches: `plan` is called on each. -/
def planAll (batches : List (List Item)) : List Planned := batches.flatMap fun batch => (pl.plan batch).1

end Planner

/-! ### What is planned -/

section Kept

variable {V : Type} {pl : Planner V} {items : List Item} {it : Item}

theorem mem_kept {package : Text × Text} :
    it ∈ pl.kept items package ↔
      it ∈ items ∧ keepByFilters pl.rules it = true ∧ Planner.packageOf it = package := by
  simp [Planner.kept, List.mem_filter]

theorem mem_packages (mem : it ∈ items) (keep : keepByFilters pl.rules it = true) :
    Planner.packageOf it ∈ pl.packages items := by
  refine (List.mem_insertionSort _).mpr (List.mem_dedup.mpr ?_)
  exact List.mem_map_of_mem (List.mem_filter.mpr ⟨mem, keep⟩)

theorem kept_flatten {batches : List (List Item)} {package : Text × Text} :
    pl.kept batches.flatten package = (batches.map fun batch => pl.kept batch package).flatten := by
  simp only [Planner.kept, List.filter_flatten]

end Kept

section Planned

variable {V : Type} [LinearOrder V] {pl : Planner V} {items versions : List Item} {it : Item} {p : Planned}
  {n : Nat} {batches : List (List Item)}

theorem newest_of_limit (limit : pl.limit = some n) : pl.newest versions = first pl.Newer n versions := by
  rw [Planner.newest, limit]

theorem newest_of_no_limit (limit : pl.limit = none) : pl.newest versions = versions := by
  rw [Planner.newest, limit]

theorem mem_of_mem_newest (mem : it ∈ pl.newest versions) : it ∈ versions := by
  cases limit : pl.limit with
  | none =>
      rw [newest_of_no_limit limit] at mem
      exact mem
  | some n =>
      rw [newest_of_limit limit] at mem
      exact mem_of_mem_first mem

/-- What is planned of a batch: of each package the newest versions the limit allows, if the target could
publish them. -/
theorem mem_plan :
    p ∈ (pl.plan items).1 ↔
      ∃ it, it ∈ pl.newest (pl.kept items (Planner.packageOf it)) ∧ pl.planOne it = .ok p := by
  have planned : ∀ it, (pl.planOne it).toOption = some p ↔ pl.planOne it = .ok p := by
    intro it
    cases pl.planOne it with
    | error gap => simp [Except.toOption]
    | ok other => simp [Except.toOption]
  simp only [Planner.plan, List.mem_filterMap, List.mem_flatMap, planned]
  constructor
  · rintro ⟨it, ⟨package, _, mem⟩, done⟩
    have own := (mem_kept.mp (mem_of_mem_newest mem)).2.2
    exact ⟨it, own ▸ mem, done⟩
  · rintro ⟨it, mem, done⟩
    obtain ⟨there, keep, _⟩ := mem_kept.mp (mem_of_mem_newest mem)
    exact ⟨it, ⟨Planner.packageOf it, mem_packages there keep, mem⟩, done⟩

theorem mem_planAll :
    p ∈ pl.planAll batches ↔
      ∃ batch ∈ batches, ∃ it, it ∈ pl.newest (pl.kept batch (Planner.packageOf it)) ∧
        pl.planOne it = .ok p := by
  simp only [Planner.planAll, List.mem_flatMap, mem_plan]

theorem newest_of_flatten {package : Text × Text} (mem : it ∈ pl.newest (pl.kept batches.flatten package)) :
    ∃ batch ∈ batches, it ∈ pl.newest (pl.kept batch package) := by
  rw [kept_flatten] at mem
  cases limit : pl.limit with
  | none =>
      rw [newest_of_no_limit limit, List.mem_flatten] at mem
      obtain ⟨_, among, there⟩ := mem
      obtain ⟨batch, here, rfl⟩ := List.mem_map.mp among
      exact ⟨batch, here, newest_of_no_limit limit ▸ there⟩
  | some n =>
      rw [newest_of_limit limit] at mem
      obtain ⟨_, among, there⟩ := mem_first_flatten mem
      obtain ⟨batch, here, rfl⟩ := List.mem_map.mp among
      exact ⟨batch, here, newest_of_limit limit ▸ there⟩

variable (pl batches) in
/-- No limit leaves any version of the package out, or its versions are all in one batch. -/
def Together (package : Text × Text) : Prop :=
  ∀ n, pl.limit = some n → (pl.kept batches.flatten package).length ≤ n ∨
    ∃ before batch after, batches = before ++ batch :: after ∧
      ∀ other ∈ before ++ after, pl.kept other package = []

omit [LinearOrder V] in
theorem kept_of_batch {package : Text × Text} {before after : List (List Item)} {batch : List Item}
    (others : ∀ other ∈ before ++ after, pl.kept other package = []) :
    pl.kept (before ++ batch :: after).flatten package = pl.kept batch package := by
  have empty : ∀ rest : List (List Item), (∀ other ∈ rest, pl.kept other package = []) →
      (rest.map fun batch => pl.kept batch package).flatten = [] := by
    intro rest none
    rw [List.flatten_eq_nil_iff]
    intro kept mem
    obtain ⟨other, among, rfl⟩ := List.mem_map.mp mem
    exact none other among
  rw [kept_flatten, List.map_append, List.flatten_append, List.map_cons, List.flatten_cons,
    empty before fun other mem => others other (List.mem_append_left _ mem),
    empty after fun other mem => others other (List.mem_append_right _ mem), List.nil_append,
    List.append_nil]

/-- Where a package's versions are together, the newest of a batch are the newest of the listing. -/
theorem newest_of_batch {package : Text × Text} {batch : List Item} (together : Together pl batches package)
    (here : batch ∈ batches) (mem : it ∈ pl.newest (pl.kept batch package)) :
    it ∈ pl.newest (pl.kept batches.flatten package) := by
  have there : it ∈ pl.kept batches.flatten package := by
    obtain ⟨own, rest⟩ := mem_kept.mp (mem_of_mem_newest mem)
    exact mem_kept.mpr ⟨List.mem_flatten.mpr ⟨batch, here, own⟩, rest⟩
  cases limit : pl.limit with
  | none => exact newest_of_no_limit limit ▸ there
  | some n =>
      rcases together n limit with few | ⟨before, own, after, rfl, others⟩
      · rw [newest_of_limit limit]
        exact (mem_first_of_length_le few).mpr there
      · rw [kept_of_batch others]
        rcases List.mem_append.mp here with earlier | later
        · rw [others batch (List.mem_append_left _ earlier)] at mem
          exact absurd (mem_of_mem_newest mem) List.not_mem_nil
        · rcases List.mem_cons.mp later with rfl | later
          · exact mem
          · rw [others batch (List.mem_append_right _ later)] at mem
            exact absurd (mem_of_mem_newest mem) List.not_mem_nil

/-- The version limits count per batch: what a run plans is, of each batch and package, the newest versions
the limit allows. Nothing that the listing as a whole would plan is missing, and nothing is planned beyond
that if no limit cuts a package whose versions are in several batches. -/
theorem planned_by_batch (pl : Planner V) (batches : List (List Item)) :
    (∀ p, p ∈ pl.planAll batches ↔
        ∃ batch ∈ batches, ∃ it, it ∈ pl.newest (pl.kept batch (Planner.packageOf it)) ∧
          pl.planOne it = .ok p) ∧
      (∀ p, p ∈ (pl.plan batches.flatten).1 → p ∈ pl.planAll batches) ∧
        ((∀ package, Together pl batches package) →
          ∀ p, p ∈ pl.planAll batches ↔ p ∈ (pl.plan batches.flatten).1) := by
  have contains : ∀ p, p ∈ (pl.plan batches.flatten).1 → p ∈ pl.planAll batches := by
    intro p planned
    obtain ⟨it, mem, done⟩ := mem_plan.mp planned
    obtain ⟨batch, here, newest⟩ := newest_of_flatten mem
    exact mem_planAll.mpr ⟨batch, here, it, newest, done⟩
  refine ⟨fun p => mem_planAll, contains, fun together p => ⟨fun planned => ?_, contains p⟩⟩
  obtain ⟨batch, here, it, mem, done⟩ := mem_planAll.mp planned
  exact mem_plan.mpr ⟨it, newest_of_batch (together _) here mem, done⟩

end Planned

/-! ### A package on two pages -/

/-- `major.minor.patch`, read as its numbers. -/
def numbers (t : Text) : Option (List Nat) :=
  let parts := (t.splitOnP (· == '.')).filter fun part => !part.isEmpty && part.all Char.isDigit
  if parts.length = 3 then
    some (parts.map fun part => part.foldl (fun n c => 10 * n + (c.toNat - '0'.toNat)) 0)
  else none

/-- `--latest-only --target-repo t`, with a sink for npm. -/
def latestOnly : Planner (List Nat) where
  rules :=
    { maps := []
      targetRepo := some "t".toList
      include_ := []
      exclude := []
      since := none
      until_ := none
      latestOnly := true
      maxVersions := none
      flattenNames := false }
  sinks := [.npm]
  names := fun _ => none
  parse := numbers

def release (version : String) : Item where
  sourceRef := "r/a@".toList ++ version.toList
  format := .npm
  coord := ⟨"r".toList, "a".toList, version.toList⟩
  publishedAt := none
  size := none
  want := ⟨none, none, none, none⟩
  origin := .npm "https://s/".toList "a".toList
  pkg := ⟨[], []⟩
  extra := ⟨false⟩

/-- Two versions of one package, on two pages of the listing. -/
def twoPages : List (List Item) := [[release "1.9.0"], [release "1.10.0"]]

theorem two_pages_plan_both_versions :
    ¬∀ (pl : Planner (List Nat)) (batches : List (List Item)) (p : Planned),
      p ∈ pl.planAll batches ↔ p ∈ (pl.plan batches.flatten).1 := by
  intro same
  have both : ⟨release "1.9.0", "t".toList, "a".toList, .npm⟩ ∈ latestOnly.planAll twoPages := by
    decide +kernel
  have planned := (same latestOnly twoPages _).mp both
  revert planned
  decide +kernel

/-- On one page only the newer one is planned. -/
theorem one_page_plans_the_newest :
    ∀ p, p ∈ latestOnly.planAll [twoPages.flatten] ↔ p ∈ (latestOnly.plan [twoPages.flatten].flatten).1 :=
  (planned_by_batch latestOnly [twoPages.flatten]).2.2 fun _ _ _ => .inr ⟨[], _, [], rfl, by simp⟩

example : (latestOnly.plan twoPages.flatten).1.map (·.item.coord.version) = ["1.10.0".toList] := by
  decide +kernel

end OpenCargo.Import
