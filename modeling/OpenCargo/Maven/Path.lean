/-
Module: OpenCargo.Maven.Path
Purpose: A repository-relative Maven path, parsed before any key or URL is built
  (`registry/maven/path.rs`, the Maven rules of `registry/rules.rs`), and what a file and the
  directories above it are named: a directory is resolved by the spelling of its last segments.
Trusted boundary: none
Main exports: MetadataLevel, MavenPath.parse, parse_file, names_agree_iff
-/
import OpenCargo.Layout
import OpenCargo.Maven.Rules

namespace OpenCargo.Maven

open OpenCargo.Layout (stripPrefix)

/-! ### Texts -/

/-- `segments.join(".")`. -/
def dotted (segments : List Text) : Text := ['.'].intercalate segments

/-- `str::strip_suffix`. -/
def stripSuffix (text tail : Text) : Option Text :=
  if tail.isSuffixOf text then some (text.take (text.length - tail.length)) else none

/-- `str::split_once`. -/
def splitOnce (text : Text) (sep : Char) : Option (Text × Text) :=
  match text.span fun c => c != sep with
  | (first, _ :: rest) => some (first, rest)
  | (_, []) => none

def metadataName : Text := "maven-metadata.xml".toList

def snapshot : Text := "SNAPSHOT".toList

def isSnapshot (version : Text) : Bool := "-SNAPSHOT".toList.isSuffixOf version

/-! ### What a path names -/

structure Gav where
  group : Text
  artifact : Text
  version : Text
deriving Repr, DecidableEq, Inhabited

namespace Gav

def ga (gav : Gav) : Text := gav.group ++ ':' :: gav.artifact

def isSnapshot (gav : Gav) : Bool := Maven.isSnapshot gav.version

/-- `group/as/path/artifact`, the directory of the artifact. -/
def artifactDir (gav : Gav) : Text :=
  (gav.group.map fun c => if c = '.' then '/' else c) ++ '/' :: gav.artifact

def versionDir (gav : Gav) : Text := gav.artifactDir ++ '/' :: gav.version

end Gav

/-- One file of a version: its build is the stamp of a snapshot deposit, empty otherwise. -/
structure ArtifactFile where
  gav : Gav
  filename : Text
  build : Text
  classifier : Option Text
  extension : Text
deriving Repr, DecidableEq, Inhabited

def ArtifactFile.isPom (file : ArtifactFile) : Bool :=
  file.classifier.isNone && file.extension == "pom".toList

def ArtifactFile.path (file : ArtifactFile) : Text := file.gav.versionDir ++ '/' :: file.filename

/-- What a path points at: a file, or a `maven-metadata.xml` by its directory's segments. -/
inductive PathTarget where
  | file (file : ArtifactFile)
  | metadata (dir : List Text)
deriving Repr, DecidableEq, Inhabited

structure MavenPath where
  target : PathTarget
  sum : Option SumAlgorithm
deriving Repr, DecidableEq, Inhabited

/-- What a metadata directory can be, when it is about an artifact. -/
inductive MetadataLevel where
  | snapshot (gav : Gav)
  | artifact (group artifact : Text)
deriving Repr, DecidableEq, Inhabited

namespace MetadataLevel

/-- A snapshot version under an artifact, else an artifact under a group. -/
def of (dir : List Text) : Option MetadataLevel :=
  match dir.reverse with
  | last :: above :: group =>
      if isSnapshot last && !group.isEmpty then
        some (.snapshot ⟨dotted group.reverse, above, last⟩)
      else
        some (.artifact (dotted (above :: group).reverse) last)
  | _ => none

def ga : MetadataLevel → Text
  | snapshot gav => gav.ga
  | artifact group name => group ++ ':' :: name

end MetadataLevel

/-! ### Parsing -/

/-- `yyyyMMdd.HHmmss-N`, the timestamped build of a snapshot file: the stamp, the number, and how much
was read. A path's segments are ASCII, so bytes are characters. -/
def parseBuild (s : Text) : Option (Text × Nat × Nat) :=
  if s.length < 17 || s[8]? != some '.' || s[15]? != some '-' then
    none
  else if !(s.take 8).all Char.isDigit || !((s.drop 9).take 6).all Char.isDigit then
    none
  else
    let digits := (s.drop 16).takeWhile Char.isDigit
    let number := digits.foldl (fun n c => n * 10 + (c.toNat - 48)) 0
    -- a number that does not fit an `u32` does not parse
    if digits.isEmpty || 2 ^ 32 ≤ number then
      none
    else
      some (s.take 15, number, 16 + digits.length)

def invalidPath (path : Text) : OpenCargo.AppError :=
  .badRequest ("invalid maven path: '".toList ++ path ++ "'".toList)

def segmentChar (c : Char) : Bool := c.isAlphanum || c == '.' || c == '_' || c == '-' || c == '+'

def validSegment (s : Text) : Bool :=
  !s.isEmpty && s != ['.'] && s != ['.', '.'] && s.all segmentChar

def SumAlgorithm.all : List SumAlgorithm := [.sha1, .md5, .sha256, .sha512]

/-- The suffix of a checksum file. -/
def SumAlgorithm.suffix (algorithm : SumAlgorithm) : Text := '.' :: algorithm.asStr

/-- A name without the suffix of its checksum, the first of `SumAlgorithm::ALL` that it carries. -/
def splitSum (name : Text) : Text × Option SumAlgorithm :=
  let cut := SumAlgorithm.all.findSome? fun algorithm =>
    match stripSuffix name algorithm.suffix with
    | some base => if base.isEmpty then none else some (base, algorithm)
    | none => none
  match cut with
  | some (base, algorithm) => (base, some algorithm)
  | none => (name, none)

/-- What follows `artifact-` in the file name: the build of a snapshot, and the rest. -/
def splitBuild (version rest : Text) : Option (Text × Text) :=
  match stripSuffix version "-SNAPSHOT".toList with
  | some base => do
      let after ← stripPrefix (← stripPrefix rest base) ['-']
      match stripPrefix after snapshot with
      | some tail => some ([], tail)
      | none => do
          let (_, _, used) ← parseBuild after
          some (after.take used, after.drop used)
  | none => do
      let tail ← stripPrefix rest version
      some ([], tail)

/-- The classifier and the extension of what follows the version. -/
def splitTail : Text → Option (Option Text × Text)
  | '.' :: extension => some (none, extension)
  | '-' :: rest => do
      let (classifier, extension) ← splitOnce rest '.'
      if classifier.isEmpty then none else some (some classifier, extension)
  | _ => none

def artifactFile (dirs : List Text) (name : Text) : Option ArtifactFile :=
  match dirs.reverse with
  | version :: artifact :: group =>
      if group.isEmpty then
        none
      else do
        let rest ← stripPrefix (← stripPrefix name artifact) ['-']
        let (build, tail) ← splitBuild version rest
        let (classifier, extension) ← splitTail tail
        if extension.isEmpty then
          none
        else
          some
            { gav := ⟨dotted group.reverse, artifact, version⟩
              filename := name
              build := build
              classifier := classifier
              extension := extension }
  | _ => none

def coordinateSegment (s : Text) : Bool :=
  !s.isEmpty && s.head? != some '.' &&
    s.all fun c => c.isAlphanum || c == '.' || c == '_' || c == '-'

/-- `validate` of the Maven rules: whether the coordinates are well formed. -/
def validCoordinates (name : Text) : Bool :=
  match splitOnce name ':' with
  | some (group, artifact) =>
      Keys.byteLength name ≤ 255 && (group.splitOn '.').all coordinateSegment &&
        coordinateSegment artifact
  | none => false

/-- `validate_version` of the Maven rules. -/
def validVersion (version : Text) : Bool :=
  !version.isEmpty && Keys.byteLength version ≤ 128 && version.head? != some '.' &&
    !decide (['.', '.'] <:+: version) && version.all segmentChar

def MavenPath.parse (path : Text) : Except OpenCargo.AppError MavenPath :=
  let segments := path.splitOn '/'
  let dirs := segments.dropLast
  let (name, sum) := splitSum (segments.getLast?.getD [])
  if Keys.byteLength path > 1024 || !segments.all validSegment then
    .error (invalidPath path)
  else if name = metadataName then
    if dirs.isEmpty then .error (invalidPath path) else .ok ⟨.metadata dirs, sum⟩
  else
    match artifactFile dirs name with
    | none => .error (invalidPath path)
    | some file =>
        if validCoordinates file.gav.ga && validVersion file.gav.version then
          .ok ⟨.file file, sum⟩
        else
          .error (invalidPath path)

/-- A parsed file path as it is written out, with the suffix of its checksum. -/
def rendered (file : ArtifactFile) (sum : Option SumAlgorithm) : Text :=
  file.path ++ (sum.map SumAlgorithm.suffix).getD []

/-! ### What a parsed file is -/

theorem stripSuffix_eq_some {text tail base : Text} :
    stripSuffix text tail = some base ↔ text = base ++ tail := by
  rw [stripSuffix]
  split
  · rename_i ends
    obtain ⟨front, rfl⟩ := List.isSuffixOf_iff_suffix.mp ends
    simp [eq_comm]
  · rename_i ends
    simp only [reduceCtorEq, false_iff]
    rintro rfl
    exact ends (List.isSuffixOf_iff_suffix.mpr (List.suffix_append ..))

theorem splitSum_append (name : Text) :
    (splitSum name).1 ++ ((splitSum name).2.map SumAlgorithm.suffix).getD [] = name := by
  rw [splitSum]
  split
  · rename_i base algorithm found
    obtain ⟨candidate, -, read⟩ := List.exists_of_findSome?_eq_some found
    split at read
    · rename_i base' stripped
      split at read
      · cases read
      · cases read
        exact (stripSuffix_eq_some.mp stripped).symm
    · cases read
  · simp

theorem artifactFile_spec {dirs : List Text} {name : Text} {file : ArtifactFile}
    (found : artifactFile dirs name = some file) :
    ∃ group, group ≠ [] ∧ dirs = group ++ [file.gav.artifact, file.gav.version] ∧
      file.gav.group = dotted group ∧ file.filename = name := by
  rw [artifactFile] at found
  split at found
  · rename_i version artifact group split
    split at found
    · cases found
    · rename_i nonempty
      simp only [Option.bind_eq_bind, Option.bind_eq_some_iff] at found
      obtain ⟨_, -, rest, -, ⟨build, tail⟩, -, ⟨classifier, extension⟩, -, found⟩ := found
      split at found
      · cases found
      · cases found
        refine ⟨group.reverse, by simpa using nonempty, ?_, rfl, rfl⟩
        simpa using congrArg List.reverse split
  · cases found

theorem parse_file {path : Text} {file : ArtifactFile} {sum : Option SumAlgorithm}
    (parsed : MavenPath.parse path = .ok ⟨.file file, sum⟩) :
    ∃ group, group ≠ [] ∧ (∀ segment ∈ path.splitOn '/', validSegment segment = true) ∧
      path.splitOn '/' = group ++ [file.gav.artifact, file.gav.version,
        file.filename ++ (sum.map SumAlgorithm.suffix).getD []] ∧
      file.gav.group = dotted group := by
  simp only [MavenPath.parse] at parsed
  split at parsed
  · cases parsed
  · rename_i accepted
    split at parsed
    · split at parsed
      · cases parsed
      · cases parsed
    · split at parsed
      · cases parsed
      · rename_i read found
        split at parsed
        · cases parsed
          obtain ⟨group, nonempty, dirs, named, filename⟩ := artifactFile_spec found
          have valid : ∀ segment ∈ path.splitOn '/', validSegment segment = true := by
            simp only [Bool.or_eq_true, not_or, Bool.not_eq_true', Bool.not_eq_true] at accepted
            simpa using accepted.2
          refine ⟨group, nonempty, valid, ?_, named⟩
          have whole : path.splitOn '/' ≠ [] := List.splitOn_ne_nil _ _
          have last := splitSum_append ((path.splitOn '/').getLast?.getD [])
          rw [← filename, List.getLast?_eq_some_getLast whole, Option.getD_some] at last
          rw [← List.dropLast_append_getLast whole, dirs, List.append_assoc]
          simp [last]
        · cases parsed

/-! ### What the directories above it are named -/

/-- The directories of a request: of the version, of the artifact, and the group's. -/
def versionDirOf (path : Text) : List Text := (path.splitOn '/').dropLast

def artifactDirOf (path : Text) : List Text := (versionDirOf path).dropLast

def groupDirOf (path : Text) : List Text := (artifactDirOf path).dropLast

theorem validSegment_chars {segment : Text} (valid : validSegment segment = true) :
    ∀ c ∈ segment, segmentChar c = true := by
  simp only [validSegment, Bool.and_eq_true, List.all_eq_true] at valid
  exact valid.2

section Levels

variable {group : List Text} {artifact version : Text}

theorem level_of_version (nonempty : group ≠ []) (snap : isSnapshot version = true) :
    MetadataLevel.of (group ++ [artifact, version]) =
      some (.snapshot ⟨dotted group, artifact, version⟩) := by
  simp [MetadataLevel.of, snap, nonempty]

theorem level_of_artifact (nonempty : group ≠ [])
    (plain : ¬(isSnapshot artifact = true ∧ 2 ≤ group.length)) :
    MetadataLevel.of (group ++ [artifact]) = some (.artifact (dotted group) artifact) := by
  obtain ⟨above, last, rfl⟩ := List.eq_nil_or_concat' group |>.resolve_left nonempty
  have short : isSnapshot artifact = true → above = [] := by
    intro snap
    cases above with
    | nil => rfl
    | cons first above => exact absurd ⟨snap, by simp⟩ plain
  simpa [MetadataLevel.of] using short

/-- An artifact that is spelled like a snapshot version is taken for one, of what lies above it. -/
theorem level_of_snapshot_artifact {above : List Text} {last : Text} (nonempty : above ≠ [])
    (snap : isSnapshot artifact = true) :
    MetadataLevel.of (above ++ [last] ++ [artifact]) =
      some (.snapshot ⟨dotted above, last, artifact⟩) := by
  rw [List.append_assoc]
  exact level_of_version nonempty snap

theorem ga_ne_of_shorter {above : List Text} {last : Text} (nonempty : above ≠ [])
    (plain : ∀ segment ∈ above ++ [last], ':' ∉ segment) :
    (⟨dotted above, last, version⟩ : Gav).ga ≠ dotted (above ++ [last]) ++ ':' :: artifact := by
  intro same
  have noColon : ∀ {segments : List Text}, (∀ segment ∈ segments, ':' ∉ segment) →
      ':' ∉ dotted segments := by
    intro segments without mem
    obtain ⟨segment, inside, found⟩ := (Lib.mem_intercalate_iff (by decide)).mp mem
    exact without segment inside found
  have front : dotted above = dotted (above ++ [last]) := by
    rw [Gav.ga] at same
    refine (List.append_cons_inj_of_notMem ?_ ?_).mp same |>.1
    · exact noColon fun segment inside => plain segment (List.mem_append_left _ inside)
    · exact plain last (by simp)
  have longer := congrArg List.length front
  rw [dotted, dotted, Lib.intercalate_concat nonempty] at longer
  simp at longer

end Levels

theorem path_of_segments {path a b c : Text} {group : List Text} (nonempty : group ≠ [])
    (segments : path.splitOn '/' = group ++ [a, b, c]) :
    path = ['/'].intercalate group ++ '/' :: (a ++ '/' :: (b ++ '/' :: c)) := by
  have joined : ['/'].intercalate (path.splitOn '/') = path := List.intercalate_splitOn '/'
  have first : group ++ [a] ≠ [] := by simp
  have second : group ++ [a] ++ [b] ≠ [] := by simp
  have assoc : group ++ [a, b, c] = group ++ [a] ++ [b] ++ [c] := by simp
  rw [← joined, segments, assoc, Lib.intercalate_concat second, Lib.intercalate_concat first,
    Lib.intercalate_concat nonempty]
  simp

/-- Written out, a dot of the group becomes a slash: the path comes back when no segment had one. -/
theorem rendered_eq_iff {path : Text} {file : ArtifactFile} {sum : Option SumAlgorithm}
    {group : List Text} (nonempty : group ≠ [])
    (segments : path.splitOn '/' = group ++ [file.gav.artifact, file.gav.version,
      file.filename ++ (sum.map SumAlgorithm.suffix).getD []])
    (named : file.gav.group = dotted group) :
    rendered file sum = path ↔ ∀ segment ∈ group, '.' ∉ segment := by
  have whole := path_of_segments nonempty segments
  have written : rendered file sum = (dotted group).map (fun c => if c = '.' then '/' else c) ++
      '/' :: (file.gav.artifact ++ '/' :: (file.gav.version ++ '/' ::
        (file.filename ++ (sum.map SumAlgorithm.suffix).getD []))) := by
    simp [rendered, ArtifactFile.path, Gav.versionDir, Gav.artifactDir, named]
  rw [written, whole, List.append_left_inj]
  constructor
  · -- nothing that is written has a dot left in it
    intro same segment mem dot
    have kept : '.' ∈ ['/'].intercalate group :=
      (Lib.mem_intercalate_iff (by decide)).mpr ⟨segment, mem, dot⟩
    rw [← same, List.mem_map] at kept
    obtain ⟨c, -, read⟩ := kept
    split at read
    · cases read
    · exact absurd read ‹_›
  · intro plain
    rw [dotted, Lib.map_intercalate]
    have kept : group.map (List.map fun c => if c = '.' then '/' else c) = group := by
      refine (List.map_congr_left fun segment mem => ?_).trans (List.map_id group)
      refine (List.map_congr_left fun c inside => ?_).trans (List.map_id segment)
      have other : c ≠ '.' := by rintro rfl; exact plain segment mem inside
      rw [if_neg other, id_eq]
    rw [kept, if_pos rfl]

/-- For a file that is accepted, its directories are named like the file and its path is written back
as it came, exactly when no group segment has a dot and the artifact is not spelled like a snapshot
version below two segments or more. -/
theorem names_agree_iff {path : Text} {file : ArtifactFile} {sum : Option SumAlgorithm}
    (parsed : MavenPath.parse path = .ok ⟨.file file, sum⟩) :
    ((MetadataLevel.of (artifactDirOf path)).map MetadataLevel.ga = some file.gav.ga ∧
        (file.gav.isSnapshot = true →
          (MetadataLevel.of (versionDirOf path)).map MetadataLevel.ga = some file.gav.ga) ∧
        rendered file sum = path) ↔
      (∀ segment ∈ groupDirOf path, '.' ∉ segment) ∧
        ¬((artifactDirOf path).getLast?.any isSnapshot = true ∧ 2 ≤ (groupDirOf path).length) := by
  obtain ⟨group, nonempty, valid, segments, named⟩ := parse_file parsed
  have versions : versionDirOf path = group ++ [file.gav.artifact, file.gav.version] := by
    simp [versionDirOf, segments]
  have artifacts : artifactDirOf path = group ++ [file.gav.artifact] := by
    simp [artifactDirOf, versions]
  have groups : groupDirOf path = group := by simp [groupDirOf, artifacts]
  have own : file.gav.ga = dotted group ++ ':' :: file.gav.artifact := by rw [Gav.ga, named]
  have written := rendered_eq_iff nonempty segments named
  have ofVersion : file.gav.isSnapshot = true →
      (MetadataLevel.of (versionDirOf path)).map MetadataLevel.ga = some file.gav.ga := by
    intro snap
    rw [versions, level_of_version nonempty snap, own]
    rfl
  have ofArtifact : (MetadataLevel.of (artifactDirOf path)).map MetadataLevel.ga =
      some file.gav.ga ↔ ¬(isSnapshot file.gav.artifact = true ∧ 2 ≤ group.length) := by
    constructor
    · rintro same ⟨snap, long⟩
      obtain ⟨above, last, rfl⟩ := List.eq_nil_or_concat' group |>.resolve_left nonempty
      have higher : above ≠ [] := by rintro rfl; simp at long
      rw [artifacts, level_of_snapshot_artifact higher snap, own] at same
      refine ga_ne_of_shorter higher (fun segment mem colon => ?_) (Option.some.inj same)
      have inPath : segment ∈ path.splitOn '/' := by
        rw [segments]
        exact List.mem_append_left _ mem
      exact absurd (validSegment_chars (valid segment inPath) ':' colon) (by decide)
    · intro plain
      rw [artifacts, level_of_artifact nonempty plain, own]
      rfl
  rw [ofArtifact, written, groups, artifacts]
  rw [List.getLast?_concat, Option.any_some]
  constructor
  · rintro ⟨plain, -, noDots⟩
    exact ⟨noDots, plain⟩
  · rintro ⟨noDots, plain⟩
    exact ⟨plain, ofVersion, noDots⟩

def snapshotPath : Text :=
  "org/example/lib/1.0-SNAPSHOT/lib-1.0-20260918.120000-12-tests.jar.sha512".toList

def snapshotJar : ArtifactFile where
  gav := ⟨"org.example".toList, "lib".toList, "1.0-SNAPSHOT".toList⟩
  filename := "lib-1.0-20260918.120000-12-tests.jar".toList
  build := "20260918.120000-12".toList
  classifier := some "tests".toList
  extension := "jar".toList

/-- A timestamped snapshot's file, asked for with its checksum. -/
theorem snapshot_file_agrees_with_its_directories :
    MavenPath.parse snapshotPath = .ok ⟨.file snapshotJar, some .sha512⟩ ∧
      (MetadataLevel.of (artifactDirOf snapshotPath)).map MetadataLevel.ga =
        some snapshotJar.gav.ga ∧
      (MetadataLevel.of (versionDirOf snapshotPath)).map MetadataLevel.ga =
        some snapshotJar.gav.ga ∧
      rendered snapshotJar (some .sha512) = snapshotPath := by
  have parsed : MavenPath.parse snapshotPath = .ok ⟨.file snapshotJar, some .sha512⟩ := by
    decide +kernel
  obtain ⟨ofArtifact, ofVersion, written⟩ := (names_agree_iff parsed).mpr (by decide +kernel)
  exact ⟨parsed, ofArtifact, ofVersion (by decide +kernel), written⟩

/-- An artifact id may end in `-SNAPSHOT`; its directory is then taken for a version of the segment
above it. -/
theorem artifact_spelled_like_a_snapshot :
    ∃ path file sum, MavenPath.parse path = .ok ⟨.file file, sum⟩ ∧
      (MetadataLevel.of (artifactDirOf path)).map MetadataLevel.ga ≠ some file.gav.ga := by
  refine ⟨"org/example/tool-SNAPSHOT/1.0/tool-SNAPSHOT-1.0.jar".toList,
    { gav := ⟨"org.example".toList, "tool-SNAPSHOT".toList, "1.0".toList⟩
      filename := "tool-SNAPSHOT-1.0.jar".toList
      build := []
      classifier := none
      extension := "jar".toList }, none, ?_, ?_⟩
  · decide +kernel
  · decide +kernel

end OpenCargo.Maven
