/-
Module: OpenCargo.Maven.Snapshots
Purpose: What a snapshot's metadata announces. A stored file's path, written out from its coordinates, is
  read back as the same file; an entry put together again is the name of the file it was made from, where
  the version's suffix is cut off as often as the parser cuts it.
Trusted boundary: none
Main exports: Newest, Rebuilds, named, entries_name_files_iff
-/
import OpenCargo.Lib.Orders
import OpenCargo.Maven.Order
import OpenCargo.Maven.Validators

namespace OpenCargo.Maven

open OpenCargo.Layout (stripPrefix stripPrefix_eq_some)

/-! ### A path written out is read back -/

section Paths

variable {path : Text} {file : ArtifactFile} {sum : Option SumAlgorithm}

theorem parse_file_iff : MavenPath.parse path = .ok ⟨.file file, sum⟩ ↔
    (Keys.byteLength path ≤ 1024 ∧ ∀ segment ∈ path.splitOn '/', validSegment segment = true) ∧
      ∃ name, splitSum ((path.splitOn '/').getLast?.getD []) = (name, sum) ∧ name ≠ metadataName ∧
        artifactFile (path.splitOn '/').dropLast name = some file ∧
        (validCoordinates file.gav.ga = true ∧ validVersion file.gav.version = true) := by
  simp only [MavenPath.parse]
  have accepted : ((Keys.byteLength path > 1024 || !(path.splitOn '/').all validSegment) = true) ↔
      ¬(Keys.byteLength path ≤ 1024 ∧ ∀ segment ∈ path.splitOn '/', validSegment segment = true) := by
    simp [or_iff_not_imp_left]
  by_cases sound : Keys.byteLength path ≤ 1024 ∧ ∀ segment ∈ path.splitOn '/', validSegment segment = true
  · rw [if_neg (accepted.not.mpr (not_not_intro sound)), and_iff_right sound]
    generalize splitSum ((path.splitOn '/').getLast?.getD []) = cut
    obtain ⟨name, sum'⟩ := cut
    by_cases meta_ : name = metadataName
    · rw [if_pos meta_]
      constructor
      · intro parsed
        split at parsed <;> cases parsed
      · rintro ⟨name', same, other, -⟩
        cases same
        exact absurd meta_ other
    · rw [if_neg meta_]
      cases found : artifactFile (path.splitOn '/').dropLast name with
      | none =>
          constructor
          · rintro ⟨⟩
          · rintro ⟨name', same, -, found', -⟩
            cases same
            cases found.symm.trans found'
      | some file' =>
          simp only [← Bool.and_eq_true]
          constructor
          · intro parsed
            split at parsed
            · cases parsed
              exact ⟨name, rfl, meta_, found, ‹_›⟩
            · cases parsed
          · rintro ⟨name', same, -, found', valid⟩
            cases same
            cases found.symm.trans found'
            rw [if_pos valid]
  · rw [if_pos (accepted.mpr sound)]
    constructor
    · rintro ⟨⟩
    · exact fun held => absurd held.1 sound

/-- A dot of the group is a slash of its path. -/
def undotted (c : Char) : Char := if c = '.' then '/' else c

theorem byteLength_undotted (text : Text) : Keys.byteLength (text.map undotted) = Keys.byteLength text := by
  induction text with
  | nil => rfl
  | cons c text ih =>
      have size : (undotted c).utf8Size = c.utf8Size := by
        rw [undotted]
        split
        · rename_i dot
          subst dot
          rfl
        · rfl
      rw [List.map_cons, Keys.byteLength_cons, Keys.byteLength_cons, ih, size]

theorem map_undotted_splitOn (group : Text) : group.map undotted = ['/'].intercalate (group.splitOn '.') := by
  have joined : ['.'].intercalate (group.splitOn '.') = group := List.intercalate_splitOn '.'
  have kept : (group.splitOn '.').map (List.map undotted) = group.splitOn '.' := by
    refine (List.map_congr_left fun segment mem => ?_).trans (List.map_id _)
    refine (List.map_congr_left fun c inside => ?_).trans (List.map_id segment)
    have other : c ≠ '.' := by
      rintro rfl
      exact Lib.flat_of_mem_splitOn mem inside
    exact if_neg other
  calc group.map undotted = (['.'].intercalate (group.splitOn '.')).map undotted := by rw [joined]
    _ = [undotted '.'].intercalate ((group.splitOn '.').map (List.map undotted)) := Lib.map_intercalate ..
    _ = ['/'].intercalate (group.splitOn '.') := by rw [kept]; rfl

theorem byteLength_intercalate (segments : List Text) :
    Keys.byteLength (['.'].intercalate segments) = Keys.byteLength (['/'].intercalate segments) := by
  have same : (['.'].intercalate segments).map undotted = (['/'].intercalate segments).map undotted := by
    rw [Lib.map_intercalate, Lib.map_intercalate]
    rfl
  rw [← byteLength_undotted, same, byteLength_undotted]

theorem splitOnce_append {front back : Text} {sep : Char} (flat : sep ∉ front) :
    splitOnce (front ++ sep :: back) sep = some (front, back) := by
  have others : ∀ c ∈ front, (c != sep) = true := by
    intro c mem
    rw [bne_iff_ne]
    rintro rfl
    exact flat mem
  rw [splitOnce, List.span_eq_takeWhile_dropWhile, List.takeWhile_append_of_pos others,
    List.dropWhile_append_of_pos others]
  simp

theorem validSegment_of_coordinates {segment : Text} (valid : coordinateSegment segment =
    true) (flat : '.' ∉ segment) :
    validSegment segment = true := by
  simp only [coordinateSegment, Bool.and_eq_true, Bool.not_eq_true', List.all_eq_true] at valid
  obtain ⟨⟨some_, -⟩, chars⟩ := valid
  simp only [validSegment, Bool.and_eq_true, Bool.not_eq_true', List.all_eq_true, bne_iff_ne, some_, true_and]
  refine ⟨⟨?_, ?_⟩, fun c mem => ?_⟩
  · rintro rfl
    exact flat List.mem_cons_self
  · rintro rfl
    exact flat List.mem_cons_self
  · have own := chars c mem
    rw [segmentChar, own, Bool.true_or]

theorem artifactFile_congr {group group' : List Text} {artifact version name : Text} (nonempty : group' ≠ [])
    (same : dotted group' = dotted group) (found : artifactFile (group ++ [artifact, version]) name = some file) :
    artifactFile (group' ++ [artifact, version]) name = some file := by
  simp only [artifactFile, List.reverse_append, List.reverse_cons, List.reverse_nil, List.nil_append,
    List.cons_append, List.reverse_reverse] at found ⊢
  split at found
  · cases found
  · rw [if_neg (by simpa using nonempty), same]
    exact found

theorem parse_path (parsed : MavenPath.parse path = .ok ⟨.file file, none⟩) :
    MavenPath.parse file.path = .ok ⟨.file file, none⟩ := by
  obtain ⟨⟨short, valid⟩, name, cut, other, found, coordinates, version⟩ := parse_file_iff.mp parsed
  obtain ⟨group, nonempty, -, segments, named⟩ := parse_file parsed
  obtain ⟨-, -, -, -, rfl⟩ := artifactFile_spec found
  rw [Option.map_none, Option.getD_none, List.append_nil] at segments
  have dirs : (path.splitOn '/').dropLast = group ++ [file.gav.artifact, file.gav.version] := by
    rw [segments]
    simp
  have last : (path.splitOn '/').getLast?.getD [] = file.filename := by
    rw [segments]
    simp
  have flat : ∀ segment ∈ group ++ [file.gav.artifact, file.gav.version, file.filename], '/' ∉ segment := by
    rw [← segments]
    exact fun segment mem => Lib.flat_of_mem_splitOn mem
  set pieces := file.gav.group.splitOn '.' with cutGroup
  have some_ : pieces ≠ [] := List.splitOn_ne_nil '.' file.gav.group
  have joined : dotted pieces = dotted group := by
    rw [← named]
    exact List.intercalate_splitOn '.'
  -- no piece has a separator, so the written path is cut into the pieces and the same three segments
  have ends : ∀ segment ∈ [file.gav.artifact, file.gav.version, file.filename],
      segment ∈ group ++ [file.gav.artifact, file.gav.version, file.filename] :=
    fun segment mem => List.mem_append_right _ mem
  have flat' : ∀ segment ∈ pieces ++ [file.gav.artifact, file.gav.version, file.filename], '/' ∉ segment := by
    intro segment mem slash
    rcases List.mem_append.mp mem with piece | end_
    · have inGroup : '/' ∈ dotted group := by
        rw [← joined]
        exact (Lib.mem_intercalate_iff (by decide)).mpr ⟨segment, piece, slash⟩
      obtain ⟨segment', mem', slash'⟩ := (Lib.mem_intercalate_iff (by decide)).mp inGroup
      exact flat segment' (List.mem_append_left _ mem') slash'
    · exact flat segment (ends segment end_) slash
  have written : file.path =
      ['/'].intercalate (pieces ++ [file.gav.artifact, file.gav.version, file.filename]) := by
    have assoc : ∀ a b c : Text, pieces ++ [a, b, c] = pieces ++ [a] ++ [b] ++ [c] := by simp
    have first : pieces ++ [file.gav.artifact] ≠ [] := by simp
    have second : pieces ++ [file.gav.artifact] ++ [file.gav.version] ≠ [] := by simp
    rw [assoc, Lib.intercalate_concat second, Lib.intercalate_concat first, Lib.intercalate_concat some_,
      cutGroup, ← map_undotted_splitOn]
    rfl
  have resplit : file.path.splitOn '/' = pieces ++ [file.gav.artifact, file.gav.version, file.filename] := by
    rw [written]
    exact List.splitOn_intercalate '/' flat' (by simp)
  have long : Keys.byteLength file.path = Keys.byteLength path := by
    rw [path_of_segments nonempty segments, path_of_segments some_ resplit]
    simp only [Keys.byteLength_append, ← byteLength_intercalate]
    exact congrArg (Keys.byteLength · + _) joined
  have groupValid : ∀ piece ∈ pieces, coordinateSegment piece = true := by
    have colon : ':' ∉ file.gav.group := by
      rw [named]
      intro mem
      obtain ⟨segment, inside, colon⟩ := (Lib.mem_intercalate_iff (by decide)).mp mem
      have inPath : segment ∈ path.splitOn '/' := by
        rw [segments]
        exact List.mem_append_left _ inside
      exact absurd (validSegment_chars (valid segment inPath) ':' colon) (by decide)
    rw [validCoordinates, Gav.ga, splitOnce_append colon] at coordinates
    simp only [Bool.and_eq_true, List.all_eq_true] at coordinates
    exact coordinates.1.2
  refine parse_file_iff.mpr ⟨⟨long ▸ short, ?_⟩, file.filename, ?_, other, ?_, coordinates, version⟩
  · rw [resplit]
    intro segment mem
    rcases List.mem_append.mp mem with piece | end_
    · exact validSegment_of_coordinates (groupValid segment piece) (Lib.flat_of_mem_splitOn piece)
    · exact valid segment (segments ▸ ends segment end_)
  · rw [resplit]
    rw [last] at cut
    simpa using cut
  · have dirs' : (file.path.splitOn '/').dropLast = pieces ++ [file.gav.artifact, file.gav.version] := by
      rw [resplit]
      simp
    rw [dirs']
    rw [dirs] at found
    exact artifactFile_congr some_ joined found

end Paths

/-! ### A file name apart and together -/

/-- `artifactId-value[-classifier].extension`. -/
def named (artifact value : Text) (classifier : Option Text) (extension : Text) : Text :=
  artifact ++ '-' :: value ++ (classifier.map ('-' :: ·)).getD [] ++ '.' :: extension

section Names

variable {file : ArtifactFile} {base build tail : Text}

theorem splitOnce_eq_some {text front back : Text} {sep : Char} (cut : splitOnce text sep = some (front, back)) :
    text = front ++ sep :: back := by
  have whole := List.takeWhile_append_dropWhile (p := fun c => c != sep) (l := text)
  rw [splitOnce, List.span_eq_takeWhile_dropWhile] at cut
  split at cut
  · rename_i first c rest apart
    cases cut
    obtain ⟨rfl, dropped⟩ := Prod.mk.inj apart
    have same : c = sep := by
      have head := List.head?_dropWhile_not (fun c => c != sep) text
      rw [dropped] at head
      simpa using head
    rw [← same, ← dropped, same, whole]
  · cases cut

theorem splitTail_eq_some {classifier : Option Text} {extension : Text}
    (cut : splitTail tail = some (classifier, extension)) :
    tail = (classifier.map ('-' :: ·)).getD [] ++ '.' :: extension := by
  unfold splitTail at cut
  split at cut
  · cases cut
    rfl
  · simp only [Option.bind_eq_bind, Option.bind_eq_some_iff] at cut
    obtain ⟨⟨front, back⟩, once, kept⟩ := cut
    split at kept
    · cases kept
    · cases kept
      rw [splitOnce_eq_some once]
      rfl
  · cases cut

theorem parseBuild_take {after ts : Text} {n used : Nat} (read : parseBuild after = some (ts, n, used)) :
    parseBuild (after.take used) = some (ts, n, used) ∧ (after.take used).length = used ∧ 17 ≤ used := by
  rw [parseBuild] at read
  split at read
  · cases read
  · rename_i shape
    split at read
    · cases read
    · rename_i digits
      simp only at read
      split at read
      · cases read
      · rename_i number
        cases read
        set count := ((after.drop 16).takeWhile Char.isDigit).length with counted
        simp only [Bool.or_eq_true, decide_eq_true_eq, bne_iff_ne, not_or, not_not, Nat.not_lt] at shape
        simp only [Bool.or_eq_true, List.isEmpty_iff, not_or, decide_eq_true_eq] at number
        have some_ : 1 ≤ count := List.length_pos_iff.mpr number.1
        have inside : count ≤ after.length - 16 := by
          rw [← List.length_drop]
          exact (List.takeWhile_prefix _).length_le
        have long : (after.take (16 + count)).length = 16 + count := by
          rw [List.length_take]
          omega
        have cut : (after.take (16 + count)).drop 16 = (after.drop 16).takeWhile Char.isDigit := by
          rw [List.drop_take, Nat.add_sub_cancel_left]
          exact (List.prefix_iff_eq_take.mp (List.takeWhile_prefix _)).symm
        have kept : ((after.drop 16).takeWhile Char.isDigit).takeWhile Char.isDigit =
            (after.drop 16).takeWhile Char.isDigit :=
          List.takeWhile_eq_self_iff.mpr fun c mem => List.mem_takeWhile_imp mem
        have early : ∀ i < 16, (after.take (16 + count))[i]? = after[i]? := fun i less =>
          List.getElem?_take_of_lt (by omega)
        have first : (after.take (16 + count)).take 8 = after.take 8 := by
          rw [List.take_take, Nat.min_eq_left (by omega)]
        have second : ((after.take (16 + count)).drop 9).take 6 = (after.drop 9).take 6 := by
          rw [List.drop_take, List.take_take, Nat.min_eq_left (by omega)]
        have stamp_ : (after.take (16 + count)).take 15 = after.take 15 := by
          rw [List.take_take, Nat.min_eq_left (by omega)]
        refine ⟨?_, long, by omega⟩
        have shape' : ((after.take (16 + count)).length < 17 || (after.take (16 + count))[8]? != some '.' ||
            (after.take (16 + count))[15]? != some '-') = false := by
          rw [early 8 (by omega), early 15 (by omega), long, shape.1.2, shape.2]
          simp
          omega
        rw [parseBuild, shape', first, second, cut, kept, stamp_]
        simp only [Bool.false_eq_true, if_false, if_neg digits]
        rw [if_neg, ← counted]
        simpa using number

theorem splitBuild_eq_some {rest : Text} (cut : splitBuild (base ++ "-SNAPSHOT".toList) rest = some (build,
    tail)) :
    rest = base ++ '-' :: (if build.isEmpty then snapshot else build) ++ tail ∧
      (build = [] ∨ ∃ ts n, parseBuild build = some (ts, n, build.length)) := by
  rw [splitBuild, stripSuffix_eq_some.mpr rfl] at cut
  simp only [Option.bind_eq_bind, Option.bind_eq_some_iff] at cut
  obtain ⟨rest', based, after, dashed, cut⟩ := cut
  obtain rfl := stripPrefix_eq_some.mp based
  obtain rfl := stripPrefix_eq_some.mp dashed
  split at cut
  · rename_i more plain
    cases cut
    obtain rfl := stripPrefix_eq_some.mp plain
    exact ⟨by simp, .inl rfl⟩
  · simp only [Option.bind_eq_some_iff] at cut
    obtain ⟨⟨ts, n, used⟩, read, rest⟩ := cut
    cases rest
    obtain ⟨again, long, some_⟩ := parseBuild_take read
    have stamped : (after.take used).isEmpty = false := by
      rw [List.isEmpty_eq_false_iff]
      intro none_
      rw [none_] at long
      simp only [List.length_nil] at long
      omega
    refine ⟨?_, .inr ⟨ts, n, by rw [again, long]⟩⟩
    rw [stamped]
    simp

/-- The name of a stored snapshot file, put together from its coordinates and its build. -/
theorem ArtifactFile.filename_eq {dirs : List Text} {name : Text} (found : artifactFile dirs name = some file)
    (snap : file.gav.version = base ++ "-SNAPSHOT".toList) :
    file.filename = named file.gav.artifact (base ++ '-' :: (if file.build.isEmpty then snapshot else file.build))
        file.classifier file.extension ∧
      (file.build = [] ∨ ∃ ts n, parseBuild file.build = some (ts, n, file.build.length)) := by
  rw [artifactFile] at found
  split at found
  · rename_i version artifact group split_
    split at found
    · cases found
    · simp only [Option.bind_eq_bind, Option.bind_eq_some_iff] at found
      obtain ⟨rest', begun, rest, dashed, ⟨build, tail⟩, cut, ⟨classifier, extension⟩, ended, found⟩ := found
      split at found
      · cases found
      · cases found
        obtain rfl := stripPrefix_eq_some.mp begun
        obtain rfl := stripPrefix_eq_some.mp dashed
        simp only at snap
        subst snap
        obtain ⟨rfl, builds⟩ := splitBuild_eq_some cut
        obtain rfl := splitTail_eq_some ended
        refine ⟨?_, builds⟩
        simp [named]
  · cases found

theorem named_inj {artifact value value' extension : Text} {classifier : Option Text}
    (same : named artifact value classifier extension = named artifact value' classifier extension) :
    value = value' := by
  simpa [named] using same

end Names

/-! ### The newest build -/

section Newest

variable {units : List UnitView} {unit : UnitView}

/-- When a unit was built and which build of its version it is, for a timestamped one. -/
def buildKey (unit : UnitView) : Option (Text × Nat) :=
  (parseBuild unit.build).map fun (timestamp, number, _) => (timestamp, number)

def buildOrder (a b : Text × Nat) : Ordering := (Version.cmpText a.1 b.1).then (compare a.2 b.2)

instance : Std.TransCmp buildOrder :=
  have _first : Std.TransCmp fun a b : Text × Nat => Version.cmpText a.1 b.1 := Lib.transCmp_of_part Prod.fst
  have _second : Std.TransCmp fun a b : Text × Nat => compare a.2 b.2 := Lib.transCmp_of_part Prod.snd
  inferInstanceAs (Std.TransCmp (compareLex (fun a b : Text × Nat => Version.cmpText a.1 b.1)
    fun a b => compare a.2 b.2))

/-- The newest build there is, or the one without a timestamp where no other is. -/
structure Newest (units : List UnitView) (unit : UnitView) : Prop where
  mem : unit ∈ units
  latest : ∀ other ∈ units, ∀ b ∈ buildKey other, ∃ a ∈ buildKey unit, (buildOrder b a).isLE = true
  plain : buildKey unit = none → unit.build = []

/-- The later of what is held and what comes next. -/
def laterBuild (best : Option ((Text × Nat) × UnitView)) (next : (Text × Nat) × UnitView) :
    Option ((Text × Nat) × UnitView) :=
  match best with
  | none => some next
  | some held => if buildOrder held.1 next.1 = .gt then some held else some next

theorem foldl_laterBuild {builds : List ((Text × Nat) × UnitView)} {best : (Text × Nat) × UnitView}
    {start : Option ((Text × Nat) × UnitView)} (found : builds.foldl laterBuild start = some best) :
    (start = some best ∨ best ∈ builds) ∧
      ∀ b, (start = some b ∨ b ∈ builds) → (buildOrder b.1 best.1).isLE = true := by
  induction builds generalizing start with
  | nil =>
      refine ⟨.inl found, fun b held => ?_⟩
      rcases held with held | none_
      · cases held.symm.trans found
        exact Std.ReflCmp.isLE_rfl
      · cases none_
  | cons next builds ih =>
      rw [List.foldl_cons] at found
      obtain ⟨from_, upper⟩ := ih found
      have turn : (laterBuild start next = start ∧ ∃ held, start = some held ∧ buildOrder held.1 next.1 = .gt) ∨
          (laterBuild start next = some next ∧ ∀ held, start = some held → buildOrder held.1 next.1 ≠ .gt) := by
        cases start with
        | none => exact .inr ⟨rfl, nofun⟩
        | some held =>
            by_cases later : buildOrder held.1 next.1 = .gt
            · exact .inl ⟨if_pos later, held, rfl, later⟩
            · refine .inr ⟨if_neg later, fun held' same => ?_⟩
              cases same
              exact later
      rcases turn with ⟨kept, held, rfl, later⟩ | ⟨taken, notLater⟩
      · rw [kept] at from_ upper
        refine ⟨from_.imp id (List.mem_cons_of_mem _), fun b held' => ?_⟩
        rcases held' with start_ | mem
        · exact upper b (.inl start_)
        · rcases List.mem_cons.mp mem with rfl | mem
          · have below : (buildOrder b.1 held.1).isLE = true :=
              Std.OrientedCmp.isGE_iff_isLE.mp (by rw [later]; rfl)
            exact Std.TransCmp.isLE_trans below (upper held (.inl rfl))
          · exact upper b (.inr mem)
      · rw [taken] at from_ upper
        refine ⟨.inr ?_, fun b held' => ?_⟩
        · rcases from_ with same | mem
          · cases same
            exact List.mem_cons_self
          · exact List.mem_cons_of_mem _ mem
        · rcases held' with start_ | mem
          · have below : (buildOrder b.1 next.1).isLE = true := by
              have order := notLater b start_
              cases compared : buildOrder b.1 next.1
              · rfl
              · rfl
              · exact absurd compared order
            exact Std.TransCmp.isLE_trans below (upper next (.inl rfl))
          · rcases List.mem_cons.mp mem with rfl | mem
            · exact upper b (.inl rfl)
            · exact upper b (.inr mem)

theorem isSome_foldl_laterBuild {builds : List ((Text × Nat) × UnitView)} {start : Option ((Text × Nat) × UnitView)}
    (some_ : start.isSome = true) : (builds.foldl laterBuild start).isSome = true := by
  induction builds generalizing start with
  | nil => exact some_
  | cons next builds ih =>
      refine ih ?_
      unfold laterBuild
      split
      · rfl
      · split <;> rfl

theorem newestBuild_eq (units : List UnitView) :
    newestBuild units = (units.filterMap fun unit => (buildKey unit).map (·, unit)).foldl laterBuild none := by
  have builds : (units.filterMap fun unit =>
      (parseBuild unit.build).map fun (timestamp, number, _) => ((timestamp, number), unit)) =
      units.filterMap fun unit => (buildKey unit).map (·, unit) := by
    congr 1
    funext unit
    simp [buildKey, Function.comp_def]
  rw [newestBuild, builds]
  rfl

theorem mem_builds {b : (Text × Nat) × UnitView} :
    b ∈ units.filterMap (fun unit => (buildKey unit).map (·, unit)) ↔ b.2 ∈ units ∧ buildKey b.2 = some b.1 := by
  rw [List.mem_filterMap]
  constructor
  · rintro ⟨unit, mem, key⟩
    obtain ⟨a, found, rfl⟩ := Option.map_eq_some_iff.mp key
    exact ⟨mem, found⟩
  · rintro ⟨mem, found⟩
    exact ⟨b.2, mem, by rw [found]; rfl⟩

/-- What is announced is the newest build, among units that are built as the paths of their files say. -/
theorem announced_newest (some_ : units ≠ [])
    (built : ∀ unit ∈ units, unit.build = [] ∨ ∃ ts n, parseBuild unit.build = some (ts, n, unit.build.length)) :
    ∃ unit, announced units = some (buildKey unit, unit) ∧ Newest units unit := by
  have keyed : ∀ unit ∈ units, buildKey unit = none → unit.build = [] := by
    intro unit mem none_
    rcases built unit mem with plain | ⟨ts, n, read⟩
    · exact plain
    · rw [buildKey, read] at none_
      cases none_
  rw [announced]
  cases found : newestBuild units with
  | some best =>
      obtain ⟨key, unit⟩ := best
      rw [newestBuild_eq] at found
      obtain ⟨from_, upper⟩ := foldl_laterBuild found
      obtain ⟨mem, own⟩ := mem_builds.mp (from_.resolve_left nofun)
      refine ⟨unit, by rw [own], mem, fun other inside b theirs => ⟨key, own, ?_⟩, fun none_ => ?_⟩
      · exact upper (b, other) (.inr (mem_builds.mpr ⟨inside, theirs⟩))
      · rw [own] at none_
        cases none_
  | none =>
      have none_ : ∀ unit ∈ units, buildKey unit = none := by
        intro unit mem
        by_contra some_
        obtain ⟨key, own⟩ := Option.ne_none_iff_exists'.mp some_
        have listed : (key, unit) ∈ units.filterMap (fun unit => (buildKey unit).map (·, unit)) :=
          mem_builds.mpr ⟨mem, own⟩
        rw [newestBuild_eq] at found
        cases builds : units.filterMap fun unit => (buildKey unit).map (·, unit) with
        | nil => rw [builds] at listed; cases listed
        | cons first rest =>
            rw [builds, List.foldl_cons] at found
            have ended : (rest.foldl laterBuild (laterBuild none first)).isSome = true :=
              isSome_foldl_laterBuild rfl
            rw [found] at ended
            cases ended
      obtain ⟨first, rest, rfl⟩ := List.exists_cons_of_ne_nil some_
      have plain := keyed first List.mem_cons_self (none_ first List.mem_cons_self)
      refine ⟨first, ?_, List.mem_cons_self, fun other inside b theirs => ?_, fun _ => plain⟩
      · simp [plain, none_ first List.mem_cons_self]
      · rw [none_ other inside] at theirs
        cases theirs

end Newest

/-! ### The entries -/

/-- The classifier and the extension of a stored file of `gav`. -/
def coordinatesOf (gav : Gav) (f : StoredFile) : Option (Option Text × Text) :=
  match MavenPath.parse (gav.versionDir ++ '/' :: f.filename) with
  | .ok ⟨.file file, _⟩ => some (file.classifier, file.extension)
  | _ => none

def SnapshotEntry.coordinates (entry : SnapshotEntry) : Option Text × Text := (entry.classifier, entry.extension)

/-- A visible unit of `gav`: some files, under different names, each from a path that was read as a file of
the unit. -/
structure FiledUnder (gav : Gav) (unit : UnitView) : Prop where
  some_ : unit.files ≠ []
  names : (unit.files.map (·.filename)).Nodup
  parsed : ∀ f ∈ unit.files, ∃ path file, MavenPath.parse path = .ok ⟨.file file, none⟩ ∧ file.gav = gav ∧
    file.build = unit.build ∧ file.filename = f.filename

/-- Each entry is put together to the name of a stored file with its classifier and extension, in characters that
are written as they are; and each classifier and extension of a stored file has one entry. -/
structure Rebuilds (gav : Gav) (entries : List SnapshotEntry) (files : List StoredFile) : Prop where
  names : ∀ entry ∈ entries, ∃ f ∈ files, coordinatesOf gav f = some entry.coordinates ∧
    f.filename = named gav.artifact entry.value entry.classifier entry.extension ∧
    ∀ c ∈ f.filename, escape c = [c]
  once : (entries.map SnapshotEntry.coordinates).Nodup
  each : ∀ f ∈ files, ∃ entry ∈ entries, coordinatesOf gav f = some entry.coordinates

section Entries

variable {stamp : Instant → Text} {gav : Gav} {unit : UnitView} {base : Text} {f : StoredFile}

/-- What a stored file is named by. -/
def fileValue (base build : Text) : Text := base ++ '-' :: (if build.isEmpty then snapshot else build)

theorem escape_segmentChar {c : Char} (plain : segmentChar c = true) : escape c = [c] := by
  have others : ∀ d : Char, segmentChar d = false → c ≠ d := by
    rintro d wide rfl
    rw [plain] at wide
    cases wide
  have amp := others '&' (by decide)
  have less := others '<' (by decide)
  have more := others '>' (by decide)
  have quote : [c] ≠ "\"".toList := fun same => others '"' (by decide) (List.cons.inj same).1
  have apos : [c] ≠ "'".toList := fun same => others '\'' (by decide) (List.cons.inj same).1
  rw [escape, if_neg amp, if_neg less, if_neg more, if_neg quote, if_neg apos]

theorem FiledUnder.file (deposited : FiledUnder gav unit) (snap : gav.version = base ++ "-SNAPSHOT".toList)
    (mem : f ∈ unit.files) : ∃ file : ArtifactFile,
      MavenPath.parse (gav.versionDir ++ '/' :: f.filename) = .ok ⟨.file file, none⟩ ∧
        f.filename = named gav.artifact (fileValue base unit.build) file.classifier file.extension ∧
        (∀ c ∈ f.filename, escape c = [c]) ∧
        (unit.build = [] ∨ ∃ ts n, parseBuild unit.build = some (ts, n, unit.build.length)) := by
  obtain ⟨path, file, parsed, rfl, same, filename⟩ := deposited.parsed f mem
  obtain ⟨⟨-, valid⟩, name, -, -, found, -⟩ := parse_file_iff.mp parsed
  obtain ⟨whole, builds⟩ := ArtifactFile.filename_eq found snap
  obtain ⟨group, -, -, segments, -⟩ := parse_file parsed
  rw [← filename, ← same]
  refine ⟨file, parse_path parsed, whole, fun c inside => ?_, builds⟩
  refine escape_segmentChar (validSegment_chars (valid file.filename ?_) c inside)
  rw [segments]
  simp

/-- The value all the entries of a unit have. -/
def entryValue (gav : Gav) (build : Option (Text × Nat)) (unit : UnitView) : Text :=
  if build.isSome then trimEndMatches "-SNAPSHOT".toList gav.version.length gav.version ++ '-' :: unit.build
  else gav.version

theorem entries_eq {build : Option (Text × Nat)} : (snapshotLevel stamp gav build unit).entries =
    (unit.files.filterMap fun f => (coordinatesOf gav f).map fun c =>
      (⟨c.1, c.2, entryValue gav build unit, (unit.visibleAt.map stamp).getD []⟩ :
        SnapshotEntry)).insertionSort SnapshotEntry.le := by
  have each : ∀ f : StoredFile, (match MavenPath.parse (gav.versionDir ++ '/' :: f.filename) with
      | .ok ⟨.file file, _⟩ => some (⟨file.classifier, file.extension, entryValue gav build unit,
          (unit.visibleAt.map stamp).getD []⟩ : SnapshotEntry)
      | _ => none) = (coordinatesOf gav f).map fun c =>
        (⟨c.1, c.2, entryValue gav build unit, (unit.visibleAt.map stamp).getD []⟩ : SnapshotEntry) := by
    intro f
    rw [coordinatesOf]
    cases MavenPath.parse (gav.versionDir ++ '/' :: f.filename) with
    | error e => rfl
    | ok read =>
        obtain ⟨target, sum⟩ := read
        cases target <;> rfl
  rw [← List.filterMap_congr fun f _ => each f]
  rfl

theorem mem_entries {build : Option (Text × Nat)} {entry : SnapshotEntry} :
    entry ∈ (snapshotLevel stamp gav build unit).entries ↔
      ∃ f ∈ unit.files, coordinatesOf gav f = some entry.coordinates ∧ entry.value = entryValue gav build unit ∧
        entry.updated = (unit.visibleAt.map stamp).getD [] := by
  rw [entries_eq, List.mem_insertionSort, List.mem_filterMap]
  refine exists_congr fun f => and_congr_right fun _ => ?_
  rw [Option.map_eq_some_iff]
  constructor
  · rintro ⟨c, own, rfl⟩
    exact ⟨own, rfl, rfl⟩
  · rintro ⟨own, value, updated⟩
    exact ⟨entry.coordinates, own, by rw [← value, ← updated]; rfl⟩

theorem entries_coordinates {build : Option (Text × Nat)} :
    ((snapshotLevel stamp gav build unit).entries.map SnapshotEntry.coordinates).Perm
      (unit.files.filterMap (coordinatesOf gav)) := by
  rw [entries_eq]
  refine ((List.perm_insertionSort _ _).map _).trans (List.Perm.of_eq ?_)
  rw [List.map_filterMap]
  refine List.filterMap_congr fun f _ => ?_
  rw [Option.map_map]
  exact Option.map_id' ..

/-- The entries of a unit rebuild its file names exactly where their value is the one the names have. -/
theorem rebuilds_iff {build : Option (Text × Nat)} (deposited : FiledUnder gav unit)
    (snap : gav.version = base ++ "-SNAPSHOT".toList) :
    Rebuilds gav (snapshotLevel stamp gav build unit).entries unit.files ↔
      entryValue gav build unit = fileValue base unit.build := by
  have file : ∀ f ∈ unit.files, ∃ c : Option Text × Text, coordinatesOf gav f = some c ∧
      f.filename = named gav.artifact (fileValue base unit.build) c.1 c.2 ∧ ∀ c ∈ f.filename, escape c = [c] := by
    intro f mem
    obtain ⟨file, parsed, filename, plain, -⟩ := deposited.file snap mem
    exact ⟨(file.classifier, file.extension), by rw [coordinatesOf, parsed], filename, plain⟩
  constructor
  · rintro ⟨names, -, each⟩
    obtain ⟨f, rest, files⟩ := List.exists_cons_of_ne_nil deposited.some_
    obtain ⟨entry, listed, -⟩ := each f (files ▸ List.mem_cons_self)
    obtain ⟨f', mem, own, filename, -⟩ := names entry listed
    obtain ⟨c, own', filename', -⟩ := file f' mem
    cases own.symm.trans own'
    obtain ⟨-, -, -, value, -⟩ := mem_entries.mp listed
    rw [← value]
    exact named_inj (filename.symm.trans filename')
  · intro same
    refine ⟨fun entry listed => ?_, ?_, fun f mem => ?_⟩
    · obtain ⟨f, mem, own, value, -⟩ := mem_entries.mp listed
      obtain ⟨c, own', filename, plain⟩ := file f mem
      cases own.symm.trans own'
      exact ⟨f, mem, own, by rw [value, same]; exact filename, plain⟩
    · -- the coordinates of a file are read back as its name, and no two files share one
      have back : (unit.files.filterMap (coordinatesOf gav)).map
          (fun c => named gav.artifact (fileValue base unit.build) c.1 c.2) = unit.files.map (·.filename) := by
        rw [List.map_filterMap, ← List.filterMap_eq_map]
        refine List.filterMap_congr fun f mem => ?_
        obtain ⟨c, own, filename, -⟩ := file f mem
        rw [own, Option.map_some, Function.comp_apply, filename]
      rw [entries_coordinates.nodup_iff]
      exact List.Nodup.of_map _ (back ▸ deposited.names)
    · obtain ⟨c, own, -⟩ := file f mem
      exact ⟨⟨c.1, c.2, entryValue gav build unit, (unit.visibleAt.map stamp).getD []⟩,
        mem_entries.mpr ⟨f, mem, own, rfl, rfl⟩, own⟩

theorem length_trimEndMatches_le (tail : Text) (n : Nat) (text : Text) :
    (trimEndMatches tail n text).length ≤ text.length := by
  induction n generalizing text with
  | zero => exact Nat.le_refl _
  | succ n ih =>
      rw [trimEndMatches]
      split
      · rename_i base stripped
        rw [stripSuffix_eq_some.mp stripped, List.length_append]
        have shorter := ih base
        omega
      · exact Nat.le_refl _

theorem trimEndMatches_eq_iff {tail text : Text} {n : Nat} (some_ : tail ≠ []) :
    trimEndMatches tail (n + 1) text = text ↔ tail.isSuffixOf text = false := by
  rw [trimEndMatches, stripSuffix]
  by_cases ends : tail.isSuffixOf text = true
  · obtain ⟨front, rfl⟩ := List.isSuffixOf_iff_suffix.mp ends
    rw [if_pos ends, ends]
    simp only [Bool.true_eq_false, iff_false]
    intro same
    have shorter := length_trimEndMatches_le tail n ((front ++ tail).take ((front ++ tail).length - tail.length))
    rw [same, List.length_take, List.length_append] at shorter
    have long := List.length_pos_iff.mpr some_
    omega
  · rw [if_neg ends, Bool.eq_false_iff]
    exact iff_of_true rfl ends

/-- The value is the names' one where there is no timestamp, or nothing more is cut off the version than its
suffix. -/
theorem entryValue_eq_iff (snap : gav.version = base ++ "-SNAPSHOT".toList)
    (plain : buildKey unit = none → unit.build = []) :
    entryValue gav (buildKey unit) unit = fileValue base unit.build ↔
      (unit.build ≠ [] → isSnapshot base = false) := by
  cases key : buildKey unit with
  | none =>
      have whole : fileValue base [] = gav.version := by rw [snap]; rfl
      rw [plain key, entryValue, whole]
      simp
  | some build =>
      have stamped : unit.build ≠ [] := by
        intro none_
        rw [buildKey, none_] at key
        cases key
      have cut : trimEndMatches "-SNAPSHOT".toList gav.version.length gav.version =
          trimEndMatches "-SNAPSHOT".toList (base.length + 7 + 1) base := by
        have long : gav.version.length = base.length + 8 + 1 := by rw [snap, List.length_append]; rfl
        rw [long, trimEndMatches, stripSuffix_eq_some.mpr snap]
      have named_ : fileValue base unit.build = base ++ '-' :: unit.build := by
        rw [fileValue, if_neg (by simpa using stamped)]
      rw [entryValue, Option.isSome_some, if_pos rfl, cut, named_, List.append_left_inj,
        trimEndMatches_eq_iff (by decide)]
      exact ⟨fun plain _ => plain, fun plain => plain stamped⟩

/-- What a snapshot's metadata announces, of visible units whose files were deposited: the newest build, every
entry put together to the name of one of its files, one for each classifier and extension; except where a
build has a timestamp and the version, without its suffix, ends in the suffix again. -/
theorem entries_name_files_iff {units : List UnitView} (snap : gav.isSnapshot = true) (some_ : units ≠ [])
    (deposited : ∀ unit ∈ units, FiledUnder gav unit) :
    (∀ packages (server : Server) repository, snapshotUnits server.tables repository gav.ga gav.version = units →
      snapshotMetadata stamp packages server repository gav = (announced units).map fun (build, unit) =>
        (validators packages server repository gav.ga (scopeSnapshot gav.ga gav.version)).render
          (snapshotLevel stamp gav build unit).render) ∧
    ((∃ build unit, announced units = some (build, unit) ∧ Newest units unit ∧
        Rebuilds gav (snapshotLevel stamp gav build unit).entries unit.files) ↔
      ((∃ unit ∈ units, unit.build ≠ []) → ∀ base, gav.version = base ++ "-SNAPSHOT".toList →
        isSnapshot base = false)) := by
  constructor
  · intro packages server repository held
    rw [snapshotMetadata, ← held, snapshotUnits]
    cases announced ((visible (server.tables.artifact repository gav.ga)).filter (·.version == gav.version)) <;> rfl
  · obtain ⟨base, version⟩ := List.isSuffixOf_iff_suffix.mp snap
    have own : gav.version = base ++ "-SNAPSHOT".toList := version.symm
    have only : (∀ base, gav.version = base ++ "-SNAPSHOT".toList → isSnapshot base = false) ↔
        isSnapshot base = false := by
      constructor
      · exact fun all => all base own
      · intro plain base' own'
        rw [← List.append_cancel_right (own.symm.trans own')]
        exact plain
    have built : ∀ unit ∈ units, unit.build = [] ∨
        ∃ ts n, parseBuild unit.build = some (ts, n, unit.build.length) := by
      intro unit mem
      obtain ⟨f, rest, files⟩ := List.exists_cons_of_ne_nil (deposited unit mem).some_
      obtain ⟨-, -, -, -, builds⟩ := (deposited unit mem).file own (files ▸ List.mem_cons_self)
      exact builds
    obtain ⟨unit, shown, newest⟩ := announced_newest some_ built
    have stamped : (∃ unit ∈ units, unit.build ≠ []) ↔ unit.build ≠ [] := by
      constructor
      · rintro ⟨other, mem, timed⟩ none_
        obtain ⟨ts, n, read⟩ := (built other mem).resolve_left timed
        obtain ⟨a, key, -⟩ := newest.latest other mem (ts, n) (by rw [buildKey, read]; rfl)
        rw [buildKey, none_] at key
        cases key
      · exact fun timed => ⟨unit, newest.mem, timed⟩
    rw [only, stamped, ← entryValue_eq_iff own newest.plain, ← rebuilds_iff (deposited unit newest.mem) own]
    constructor
    · rintro ⟨build, unit', shown', -, rebuilt⟩
      cases shown.symm.trans shown'
      exact rebuilt
    · exact fun rebuilt => ⟨_, unit, shown, newest, rebuilt⟩

end Entries

/-! ### A suffix twice -/

def storedAs (filename : String) : StoredFile := { (default : StoredFile) with filename := filename.toList }

def sampleStamp : String := "20260918.120000-3"

/-- The visible build of a version of `org.example:lib` with one file. -/
def oneBuild (version filename : String) : UnitView where
  version := version.toList
  build := sampleStamp.toList
  visibleAt := some 0
  refused := false
  files := [storedAs filename]

def sampleGav (version : String) : Gav := ⟨"org.example".toList, "lib".toList, version.toList⟩

theorem oneBuild_filed {version filename path : String} {file : ArtifactFile}
    (parsed : MavenPath.parse path.toList = .ok ⟨.file file, none⟩) (gav : file.gav = sampleGav version)
    (build : file.build = sampleStamp.toList) (named_ : file.filename = filename.toList) :
    FiledUnder (sampleGav version) (oneBuild version filename) where
  some_ := List.cons_ne_nil _ _
  names := List.nodup_singleton _
  parsed f mem := by
    rw [List.mem_singleton.mp mem]
    exact ⟨path.toList, file, parsed, gav, build, named_⟩

theorem sample_entries_name_files : ∃ build unit,
    announced [oneBuild "1.0-SNAPSHOT" "lib-1.0-20260918.120000-3.pom"] = some (build, unit) ∧
      Newest [oneBuild "1.0-SNAPSHOT" "lib-1.0-20260918.120000-3.pom"] unit ∧
      Rebuilds (sampleGav "1.0-SNAPSHOT") (snapshotLevel (fun _ => []) (sampleGav "1.0-SNAPSHOT") build unit).entries
        unit.files := by
  have parsed : MavenPath.parse "org/example/lib/1.0-SNAPSHOT/lib-1.0-20260918.120000-3.pom".toList =
      .ok ⟨.file ⟨sampleGav "1.0-SNAPSHOT", "lib-1.0-20260918.120000-3.pom".toList, sampleStamp.toList, none,
        "pom".toList⟩, none⟩ := by decide +kernel
  have filed : ∀ unit ∈ [oneBuild "1.0-SNAPSHOT" "lib-1.0-20260918.120000-3.pom"],
      FiledUnder (sampleGav "1.0-SNAPSHOT") unit := by
    intro unit mem
    rw [List.mem_singleton.mp mem]
    exact oneBuild_filed parsed rfl rfl rfl
  refine ((entries_name_files_iff (by decide) (List.cons_ne_nil _ _) filed).2).mpr fun _ base whole => ?_
  have cut : "1.0".toList ++ "-SNAPSHOT".toList = base ++ "-SNAPSHOT".toList := whole
  rw [← List.append_cancel_right cut]
  decide

/-- The entry of `1.0-SNAPSHOT-SNAPSHOT` names a file of `1.0`. -/
theorem repeated_suffix_names_no_file :
    FiledUnder (sampleGav "1.0-SNAPSHOT-SNAPSHOT")
        (oneBuild "1.0-SNAPSHOT-SNAPSHOT" "lib-1.0-SNAPSHOT-20260918.120000-3.pom") ∧
      ¬ ∃ build unit,
        announced [oneBuild "1.0-SNAPSHOT-SNAPSHOT" "lib-1.0-SNAPSHOT-20260918.120000-3.pom"] = some (build,
            unit) ∧
          Newest [oneBuild "1.0-SNAPSHOT-SNAPSHOT" "lib-1.0-SNAPSHOT-20260918.120000-3.pom"] unit ∧
          Rebuilds (sampleGav "1.0-SNAPSHOT-SNAPSHOT")
            (snapshotLevel (fun _ => []) (sampleGav "1.0-SNAPSHOT-SNAPSHOT") build unit).entries unit.files := by
  have parsed : MavenPath.parse
      "org/example/lib/1.0-SNAPSHOT-SNAPSHOT/lib-1.0-SNAPSHOT-20260918.120000-3.pom".toList =
      .ok ⟨.file ⟨sampleGav "1.0-SNAPSHOT-SNAPSHOT", "lib-1.0-SNAPSHOT-20260918.120000-3.pom".toList,
        sampleStamp.toList, none, "pom".toList⟩, none⟩ := by decide +kernel
  have filed : FiledUnder (sampleGav "1.0-SNAPSHOT-SNAPSHOT")
      (oneBuild "1.0-SNAPSHOT-SNAPSHOT" "lib-1.0-SNAPSHOT-20260918.120000-3.pom") :=
    oneBuild_filed parsed rfl rfl rfl
  refine ⟨filed, ?_⟩
  rintro ⟨build, unit, shown, -, rebuilt⟩
  have chosen : announced [oneBuild "1.0-SNAPSHOT-SNAPSHOT" "lib-1.0-SNAPSHOT-20260918.120000-3.pom"] =
      some (some ("20260918.120000".toList, 3),
        oneBuild "1.0-SNAPSHOT-SNAPSHOT" "lib-1.0-SNAPSHOT-20260918.120000-3.pom") := by decide +kernel
  cases chosen.symm.trans shown
  have twice : (sampleGav "1.0-SNAPSHOT-SNAPSHOT").version = "1.0-SNAPSHOT".toList ++ "-SNAPSHOT".toList := rfl
  exact absurd ((rebuilds_iff filed twice).mp rebuilt) (by decide)

end OpenCargo.Maven
