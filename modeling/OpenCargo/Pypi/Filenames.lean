/-
Module: OpenCargo.Pypi.Filenames
Purpose: Distribution file names taken apart (`parse_filename` of `registry/pypi/names.rs`) and asked for
  (`file` of `registry/pypi/read.rs`), and when the name a file is stored under reads back as the same file.
Trusted boundary: none
Main exports: parseFilename, cut, canonicalLength, canonical_reads_back_iff
-/
import OpenCargo.Pypi.Canonical
import OpenCargo.Routing.Escape

namespace OpenCargo.Pypi

open OpenCargo.Lib (rsplitOnce rsplitOnce_append rsplitOnce_eq_some mem_intercalate_iff map_intercalate)
open Keys (byteLength)
open Routing (normalize isValidName isSeparator collapse Wellformed Trimmed isValidName_iff normalize_of_first)

/-! ### File names -/

def invalid (what value : Text) : DomainError :=
  .invalidName ("invalid pypi ".toList ++ what ++ ": '".toList ++ value ++ "'".toList)

inductive Kind where
  | wheel
  | sdist
deriving Repr, DecidableEq, Inhabited

/-- A file name taken apart: the project and the version it claims, and the name it is served and keyed under. -/
structure Filename where
  kind : Kind
  project : Text
  version : Pep440
  canonical : Text
deriving Repr, DecidableEq, Inhabited

def underscored (c : Char) : Char := if c = '-' then '_' else c

/-- `foo.bar-baz` as a file name's component: `foo_bar_baz`. -/
def escaped (project : Text) : Text := (normalize project).map underscored

def sdistSuffixes : List Text := [".tar.gz".toList, ".zip".toList]

/-- What stands before a suffix, its letters folded. -/
def cutSuffix (fold : Char → Char) (text suffix : Text) : Option Text :=
  let at_ := text.length - suffix.length
  if suffix.length ≤ text.length ∧ (text.drop at_).map fold = suffix.map fold then some (text.take at_) else none

def isTag (tag : Text) : Bool := !tag.isEmpty && tag.all fun c => c.isAlphanum || c = '_' || c = '.'

/-- A wheel of the project, its tags folded. -/
def wheelOf (name : Text) (version : Pep440) (tags : List Text) : Filename where
  kind := .wheel
  project := normalize name
  version := version
  canonical := escaped name ++ '-' :: version.normalized ++ '-' :: ['-'].intercalate tags ++ ".whl".toList

def sdistOf (name : Text) (version : Pep440) (suffix : Text) : Filename where
  kind := .sdist
  project := normalize name
  version := version
  canonical := escaped name ++ '-' :: version.normalized ++ suffix

def parseWheel (filename stem : Text) : Except DomainError Filename :=
  match stem.splitOn '-' with
  | name :: version :: tags =>
      if ¬(tags.length = 3 ∨ tags.length = 4) then .error (invalid "filename".toList filename)
      else if !isValidName name || tags.any (!isTag ·) then .error (invalid "filename".toList filename)
      else
        match Pep440.parse version with
        | none => .error (invalid "filename".toList filename)
        | some version => .ok (wheelOf name version (tags.map fun t => t.map Char.toLower))
  | _ => .error (invalid "filename".toList filename)

def parseSdist (filename stem suffix : Text) : Except DomainError Filename :=
  match rsplitOnce '-' stem with
  | none => .error (invalid "filename".toList filename)
  | some (name, version) =>
      if !isValidName name then .error (invalid "filename".toList filename)
      else
        match Pep440.parse version with
        | none => .error (invalid "filename".toList filename)
        | some version => .ok (sdistOf name version suffix)

/-- The first of the suffixes the name ends in, in letters of either case, and what stands before it. -/
def sdistCut (filename : Text) : Option (Text × Text) :=
  sdistSuffixes.findSome? fun suffix => (cutSuffix Char.toLower filename suffix).map (·, suffix)

def parseFilename (filename : Text) : Except DomainError Filename :=
  if filename.any (fun c => c = '/' || c = '\\') || filename.head? = some '.' || 255 < byteLength filename then
    .error (invalid "filename".toList filename)
  else
    match cutSuffix id filename ".whl".toList with
    | some stem => parseWheel filename stem
    | none =>
        match sdistCut filename with
        | some (stem, suffix) => parseSdist filename stem suffix
        | none => .error (invalid "filename".toList filename)

/-! ### A file name read -/

section Read

variable {fold : Char → Char} {filename text suffix stem : Text} {file : Filename}

theorem cutSuffix_eq_some : cutSuffix fold text suffix = some stem ↔
    ∃ tail, text = stem ++ tail ∧ tail.map fold = suffix.map fold := by
  unfold cutSuffix
  dsimp only
  constructor
  · intro cut
    split at cut
    · rename_i fits
      obtain rfl := Option.some.inj cut
      exact ⟨_, (List.take_append_drop _ _).symm, fits.2⟩
    · cases cut
  · rintro ⟨tail, rfl, same⟩
    have length : tail.length = suffix.length := by simpa using congrArg List.length same
    have stemLength : (stem ++ tail).length - suffix.length = stem.length := by
      rw [List.length_append, length, Nat.add_sub_cancel]
    have long : suffix.length ≤ (stem ++ tail).length := by simp [length]
    rw [stemLength, List.drop_left, List.take_left, if_pos ⟨long, same⟩]

theorem last_of_cutSuffix (some_ : suffix ≠ []) (cut : cutSuffix fold text suffix = some stem) :
    text.getLast?.map fold = suffix.getLast?.map fold := by
  obtain ⟨tail, rfl, same⟩ := cutSuffix_eq_some.mp cut
  have nonempty : tail ≠ [] := by
    rintro rfl
    exact some_ (List.map_eq_nil_iff.mp same.symm)
  rw [List.getLast?_append_of_ne_nil _ nonempty, ← List.getLast?_map, same, List.getLast?_map]

theorem cutSuffix_eq_none (some_ : suffix ≠ []) (other : text.getLast?.map fold ≠ suffix.getLast?.map fold) :
    cutSuffix fold text suffix = none := by
  by_contra cut
  obtain ⟨stem, cut⟩ := Option.ne_none_iff_exists'.mp cut
  exact other (last_of_cutSuffix some_ cut)

/-- What is refused of no name before it is cut. -/
structure Admitted (filename : Text) : Prop where
  flat : ∀ c ∈ filename, c ≠ '/' ∧ c ≠ '\\'
  shown : filename.head? ≠ some '.'
  short : byteLength filename ≤ 255

theorem parseFilename_eq_ok : parseFilename filename = .ok file ↔ Admitted filename ∧
    ((∃ stem, cutSuffix id filename ".whl".toList = some stem ∧ parseWheel filename stem = .ok file) ∨
      cutSuffix id filename ".whl".toList = none ∧
        ∃ stem suffix, sdistCut filename = some (stem, suffix) ∧ parseSdist filename stem suffix = .ok file) := by
  have refused : (filename.any (fun c => c = '/' || c = '\\') || filename.head? = some '.' ||
      255 < byteLength filename) = true ↔ ¬Admitted filename := by
    rw [← not_iff_not, not_not]
    constructor
    · intro fine
      have fine : ((∀ c ∈ filename, c ≠ '/' ∧ c ≠ '\\') ∧ filename.head? ≠ some '.') ∧ byteLength filename ≤ 255 := by
        simpa using fine
      exact ⟨fine.1.1, fine.1.2, fine.2⟩
    · intro admitted
      simpa using ⟨⟨admitted.flat, admitted.shown⟩, admitted.short⟩
  unfold parseFilename
  split
  · rename_i bad
    simp [refused.mp (by simpa using bad)]
  · rename_i fine
    have admitted : Admitted filename := by
      by_contra bad
      exact fine (by simpa using refused.mpr bad)
    cases cutSuffix id filename ".whl".toList with
    | some stem => simp [admitted]
    | none =>
        cases sdistCut filename with
        | none => simp
        | some parts =>
            obtain ⟨stem, suffix⟩ := parts
            simp [admitted]

theorem parseWheel_eq_ok : parseWheel filename stem = .ok file ↔ ∃ name version tags v,
    stem.splitOn '-' = name :: version :: tags ∧ (tags.length = 3 ∨ tags.length = 4) ∧ isValidName name = true ∧
      (∀ t ∈ tags, isTag t = true) ∧ Pep440.parse version = some v ∧
      file = wheelOf name v (tags.map fun t => t.map Char.toLower) := by
  unfold parseWheel
  constructor
  · intro read
    split at read
    · rename_i name version tags split_
      split at read
      · cases read
      · rename_i counted
        split at read
        · cases read
        · rename_i fine
          split at read
          · cases read
          · rename_i v parsed
            have fine : isValidName name = true ∧ ∀ t ∈ tags, isTag t = true := by simpa using fine
            exact ⟨name, version, tags, v, split_, not_not.mp counted, fine.1, fine.2, parsed,
              (Except.ok.inj read).symm⟩
    · cases read
  · rintro ⟨name, version, tags, v, split_, counted, valid, fine, parsed, rfl⟩
    have tagged : tags.any (!isTag ·) = false := by simpa using fine
    simp [split_, counted, valid, tagged, parsed]

theorem parseSdist_eq_ok : parseSdist filename stem suffix = .ok file ↔ ∃ name version v,
    rsplitOnce '-' stem = some (name, version) ∧ isValidName name = true ∧ Pep440.parse version = some v ∧
      file = sdistOf name v suffix := by
  unfold parseSdist
  constructor
  · intro read
    split at read
    · cases read
    · rename_i name version split_
      split at read
      · cases read
      · rename_i valid
        split at read
        · cases read
        · rename_i v parsed
          exact ⟨name, version, v, split_, by simpa using valid, parsed, (Except.ok.inj read).symm⟩
  · rintro ⟨name, version, v, split_, valid, parsed, rfl⟩
    simp [split_, valid, parsed]

end Read

/-! ### An escaped name -/

section Escaped

variable {name : Text} {c : Char}

theorem alphanum_toLower (c : Char) : c.toLower.isAlphanum = c.isAlphanum := by
  rw [Char.isAlphanum, Char.isAlphanum, Char.isAlpha_toLower_eq_isAlpha, Lib.digit_toLower]

theorem utf8Size_alphanum (word : c.isAlphanum = true) : c.utf8Size = 1 := by
  rw [Char.utf8Size_eq_one_iff, UInt32.le_iff_toNat_le]
  simp only [Char.isAlphanum, Char.isAlpha, Char.isUpper, Char.isLower, Char.isDigit, Bool.or_eq_true,
    Bool.and_eq_true, decide_eq_true_eq, UInt32.le_iff_toNat_le] at word
  rcases word with (upper | lower) | digit
  · exact upper.2.trans (by decide)
  · exact lower.2.trans (by decide)
  · exact digit.2.trans (by decide)

theorem byteLength_eq_length {text : Text} (narrow : ∀ c ∈ text, c.utf8Size = 1) : byteLength text = text.length := by
  have ones : text.map Char.utf8Size = List.replicate text.length 1 := List.map_eq_replicate_iff.mpr narrow
  rw [Keys.byteLength, ones, List.sum_replicate, smul_eq_mul, mul_one]

theorem length_le_byteLength (text : Text) : text.length ≤ byteLength text := by
  have long := List.length_le_sum_of_one_le (text.map Char.utf8Size) fun n mem => by
    obtain ⟨c, -, rfl⟩ := List.mem_map.mp mem
    exact c.utf8Size_pos
  rwa [List.length_map] at long

theorem underscored_plain (plain : isSeparator c = false) : underscored c = c := by
  rw [underscored, if_neg]
  rintro rfl
  cases plain

theorem plain_toLower (plain : isSeparator c = false) : isSeparator c.toLower = false := by
  by_contra sep
  rw [Bool.not_eq_false] at sep
  simp only [isSeparator, Bool.or_eq_true, beq_iff_eq, or_assoc] at sep
  rcases sep with same | same | same <;>
    rw [(Routing.toLower_eq_iff (by decide) (by decide)).mp same] at plain <;> cases plain

/-- Each run of separators is one dash, which the escape makes a separator again. -/
theorem collapse_underscored (run : Bool) (name : Text) :
    collapse false ((collapse run name).map underscored) = collapse run name := by
  induction name generalizing run with
  | nil => rfl
  | cons c rest ih =>
      cases sep : isSeparator c with
      | true => rw [Routing.collapse_separator sep, ih]
      | false =>
          have low := plain_toLower sep
          have word : underscored c.toLower = c.toLower := underscored_plain low
          cases run with
          | false =>
              rw [Routing.collapse_plain sep, List.map_cons, word, Routing.collapse_plain low, ih,
                Char.toLower_toLower_eq_toLower]
          | true =>
              rw [Routing.collapse_plain_run sep, List.map_cons, List.map_cons, word,
                Routing.collapse_separator (by decide), Routing.collapse_plain_run low, ih,
                Char.toLower_toLower_eq_toLower]

theorem trimmed_cons {rest : Text} (plain : isSeparator c = false) (trimmed : Trimmed rest) :
    Trimmed (c :: rest) := by
  cases rest with
  | nil => simpa [Trimmed] using plain
  | cons e rest => rwa [Trimmed, List.getLast?_cons_cons]

theorem trimmed_collapse (trimmed : Trimmed name) (run : Bool) : Trimmed (collapse run name) := by
  induction name generalizing run with
  | nil => exact trimmed
  | cons c rest ih =>
      have after := ih (Trimmed.of_append (show Trimmed ([c] ++ rest) from trimmed))
      cases sep : isSeparator c with
      | true =>
          rw [Routing.collapse_separator sep]
          exact after true
      | false =>
          have word := trimmed_cons (plain_toLower sep) (after false)
          cases run with
          | false => rwa [Routing.collapse_plain sep]
          | true =>
              rw [Routing.collapse_plain_run sep, Trimmed, List.getLast?_cons_cons]
              exact word

theorem length_collapse_le (run : Bool) (name : Text) :
    (collapse run name).length ≤ name.length + run.toNat := by
  induction name generalizing run with
  | nil => simp
  | cons c rest ih =>
      cases sep : isSeparator c with
      | true =>
          have := ih true
          rw [Routing.collapse_separator sep, List.length_cons]
          simp only [Bool.toNat_true] at this
          omega
      | false =>
          have := ih false
          simp only [Bool.toNat_false] at this
          cases run with
          | false =>
              rw [Routing.collapse_plain sep, List.length_cons, List.length_cons]
              simp only [Bool.toNat_false]
              omega
          | true =>
              rw [Routing.collapse_plain_run sep, List.length_cons, List.length_cons, List.length_cons]
              simp only [Bool.toNat_true]
              omega

theorem mem_escaped (valid : Wellformed name) (mem : c ∈ escaped name) : c.isAlphanum = true ∨ c = '_' ∨ c = '.' := by
  obtain ⟨d, inside, rfl⟩ := List.mem_map.mp mem
  rw [normalize_of_first valid.first] at inside
  rcases Routing.mem_collapse inside with rfl | ⟨e, held, rfl⟩
  · exact .inr (.inl rfl)
  · have low : e.toLower.isAlphanum = true ∨ isSeparator e.toLower = true := by
      rcases valid.letters e held with word | sep
      · exact .inl (by rwa [alphanum_toLower])
      · simp only [isSeparator, Bool.or_eq_true, beq_iff_eq, or_assoc] at sep
        rcases sep with rfl | rfl | rfl <;> exact .inr (by decide)
    rcases low with word | sep
    · rw [underscored_plain (Routing.not_separator_of_isAlphanum word)]
      exact .inl word
    · simp only [isSeparator, Bool.or_eq_true, beq_iff_eq, or_assoc] at sep
      rcases sep with same | same | same <;> rw [same] <;> decide

theorem escaped_first (valid : Wellformed name) : ∀ c ∈ (escaped name).head?, c.isAlphanum = true := by
  obtain ⟨first, rest, rfl⟩ := List.exists_cons_of_ne_nil valid.nonempty
  have plain := valid.first first rfl
  rw [escaped, normalize_of_first valid.first, Routing.collapse_plain plain, List.map_cons,
    underscored_plain (plain_toLower plain)]
  rintro c there
  obtain rfl := Option.some.inj there
  rw [alphanum_toLower]
  simpa [plain] using valid.letters first List.mem_cons_self

theorem normalize_escaped (valid : Wellformed name) : normalize (escaped name) = normalize name := by
  have plain : ∀ c ∈ (escaped name).head?, isSeparator c = false := fun c there =>
    Routing.not_separator_of_isAlphanum (escaped_first valid c there)
  rw [normalize_of_first plain, escaped, normalize_of_first valid.first, collapse_underscored]

theorem escaped_escaped (valid : Wellformed name) : escaped (escaped name) = escaped name := by
  rw [escaped, normalize_escaped valid, escaped]

theorem length_escaped (name : Text) : (escaped name).length = (normalize name).length := List.length_map _

theorem wellformed_escaped (valid : Wellformed name) : Wellformed (escaped name) where
  nonempty := by
    obtain ⟨first, rest, rfl⟩ := List.exists_cons_of_ne_nil valid.nonempty
    rw [escaped, normalize_of_first valid.first, Routing.collapse_plain (valid.first first rfl)]
    exact List.cons_ne_nil _ _
  bounded := by
    have narrow : ∀ c ∈ escaped name, c.utf8Size = 1 := by
      intro c mem
      rcases mem_escaped valid mem with word | rfl | rfl
      · exact utf8Size_alphanum word
      · decide
      · decide
    have shorter : (normalize name).length ≤ name.length := by
      rw [normalize_of_first valid.first]
      exact length_collapse_le false name
    rw [byteLength_eq_length narrow, length_escaped]
    exact (shorter.trans (length_le_byteLength name)).trans valid.bounded
  first c there := Routing.not_separator_of_isAlphanum (escaped_first valid c there)
  trimmed := by
    rw [escaped, normalize_of_first valid.first]
    intro c last
    rw [List.getLast?_map, Option.mem_def, Option.map_eq_some_iff] at last
    obtain ⟨d, last, rfl⟩ := last
    have plain := trimmed_collapse valid.trimmed false d last
    rwa [underscored_plain plain]
  letters c mem := by
    rcases mem_escaped valid mem with word | rfl | rfl
    · exact .inl word
    · exact .inr (by decide)
    · exact .inr (by decide)

end Escaped

/-! ### A canonical name read -/

/-- A character of a canonical name. -/
def Plain (c : Char) : Prop := c.isAlphanum = true ∨ c ∈ "_.!+".toList

theorem Plain.facts {c : Char} (plain : Plain c) : c.utf8Size = 1 ∧ c ≠ '/' ∧ c ≠ '\\' ∧ c ≠ '-' := by
  rcases plain with word | mark
  · refine ⟨utf8Size_alphanum word, ?_, ?_, ?_⟩ <;> rintro rfl <;> exact absurd word (by decide)
  · have mark : c ∈ ['_', '.', '!', '+'] := mark
    fin_cases mark <;> decide

theorem plain_escaped {name : Text} (valid : Wellformed name) : ∀ c ∈ escaped name, Plain c := by
  intro c mem
  rcases mem_escaped valid mem with word | rfl | rfl
  · exact .inl word
  · exact .inr (by decide)
  · exact .inr (by decide)

theorem isTag_iff {tag : Text} : isTag tag = true ↔ tag ≠ [] ∧ ∀ c ∈ tag, c.isAlphanum = true ∨ c = '_' ∨ c = '.' := by
  simp [isTag, or_assoc]

theorem plain_tag {tag : Text} (tagged : isTag tag = true) : ∀ c ∈ tag, Plain c := by
  intro c mem
  rcases (isTag_iff.mp tagged).2 c mem with word | rfl | rfl
  · exact .inl word
  · exact .inr (by decide)
  · exact .inr (by decide)

theorem isTag_fold {tag : Text} (tagged : isTag tag = true) : isTag (tag.map Char.toLower) = true := by
  obtain ⟨nonempty, spelled⟩ := isTag_iff.mp tagged
  refine isTag_iff.mpr ⟨by simpa using nonempty, fun c mem => ?_⟩
  obtain ⟨d, inside, rfl⟩ := List.mem_map.mp mem
  rcases spelled d inside with word | rfl | rfl
  · exact .inl (by rwa [alphanum_toLower])
  · exact .inr (by decide)
  · exact .inr (by decide)

theorem plain_suffix {suffix : Text} (listed : suffix = ".whl".toList ∨ suffix ∈ sdistSuffixes) :
    ∀ c ∈ suffix, Plain c := by
  intro c mem
  have all : ((".whl".toList :: sdistSuffixes).all fun s => s.all fun c => c.isAlphanum || c = '.') = true := by decide
  have listed : suffix ∈ ".whl".toList :: sdistSuffixes := List.mem_cons.mpr listed
  have spelled : c.isAlphanum = true ∨ c = '.' := by
    simpa using List.all_eq_true.mp (List.all_eq_true.mp all suffix listed) c mem
  rcases spelled with word | rfl
  · exact .inl word
  · exact .inr (by decide)

theorem plain_normalized {v : Pep440} (parsed : Parsed v) : ∀ c ∈ v.normalized, Plain c := by
  intro c mem
  obtain ⟨n, ns, released⟩ := List.exists_cons_of_ne_nil parsed.released
  rw [Pep440.normalized, released] at mem
  rcases spelled_render n ns c mem with digit | mark | ⟨part, listed, inside⟩
  · exact .inl (by rw [Char.isAlphanum, digit, Bool.or_true])
  · have all : (marks.all fun c => c.isAlphanum || decide (c ∈ "_.!+".toList)) = true := by decide
    simpa [Plain] using List.all_eq_true.mp all c mark
  · have segment := parsed.segments part listed
    rw [Scan.isSegment, Bool.and_eq_true, List.all_eq_true] at segment
    exact .inl (segment.2 c inside)

theorem parse_normalized {v : Pep440} (parsed : Parsed v) : Pep440.parse v.normalized = some v := by
  obtain ⟨n, ns, released⟩ := List.exists_cons_of_ne_nil parsed.released
  have small : ∀ k ∈ n :: ns, k < 2 ^ 64 := fun k mem => parsed.small k (by
    rw [← released] at mem
    simp [Pep440.numbers, mem])
  rw [Pep440.normalized, released, parse_render parsed small, ← released]

section Canonical

variable {name suffix : Text} {v : Pep440} {tags : List Text}

theorem admitted_iff {rest : Text} (valid : Wellformed name) (plain : ∀ c ∈ rest, Plain c ∨ c = '-') :
    Admitted (escaped name ++ rest) ↔ (escaped name ++ rest).length ≤ 255 := by
  have whole : ∀ c ∈ escaped name ++ rest, c.utf8Size = 1 ∧ c ≠ '/' ∧ c ≠ '\\' := by
    intro c mem
    have spelled : Plain c ∨ c = '-' := (List.mem_append.mp mem).elim (fun front => .inl (plain_escaped valid c front))
      (plain c)
    rcases spelled with spelled | rfl
    · exact ⟨spelled.facts.1, spelled.facts.2.1, spelled.facts.2.2.1⟩
    · decide
  have shown : (escaped name ++ rest).head? ≠ some '.' := by
    intro dot
    rw [List.head?_append_of_ne_nil _ (wellformed_escaped valid).nonempty] at dot
    exact absurd (escaped_first valid '.' dot) (by decide)
  have weight := byteLength_eq_length fun c mem => (whole c mem).1
  exact ⟨fun admitted => weight ▸ admitted.short,
    fun short => ⟨fun c mem => (whole c mem).2, shown, weight ▸ short⟩⟩

theorem wheelOf_canonical (some_ : tags ≠ []) : (wheelOf name v tags).canonical =
    ['-'].intercalate (escaped name :: v.normalized :: tags) ++ ".whl".toList := by
  obtain ⟨tag, more, rfl⟩ := List.exists_cons_of_ne_nil some_
  simp [wheelOf, List.intercalate_cons_cons]

theorem parseWheel_canonical (valid : Wellformed name) (parsed : Parsed v) (tagged : ∀ t ∈ tags, isTag t = true)
    (counted : tags.length = 3 ∨ tags.length = 4) (low : tags.map (fun t => t.map Char.toLower) = tags)
    (filename : Text) :
    parseWheel filename (['-'].intercalate (escaped name :: v.normalized :: tags)) = .ok (wheelOf name v tags) := by
  have flat : ∀ part ∈ escaped name :: v.normalized :: tags, '-' ∉ part := by
    intro part listed dash
    have plain : Plain '-' := by
      rcases List.mem_cons.mp listed with rfl | listed
      · exact plain_escaped valid _ dash
      · rcases List.mem_cons.mp listed with rfl | listed
        · exact plain_normalized parsed _ dash
        · exact plain_tag (tagged part listed) _ dash
    exact plain.facts.2.2.2 rfl
  have split_ := List.splitOn_intercalate '-' flat (List.cons_ne_nil _ _)
  refine parseWheel_eq_ok.mpr ⟨_, _, tags, v, split_, counted, isValidName_iff.mpr (wellformed_escaped valid), tagged,
    parse_normalized parsed, ?_⟩
  rw [low, wheelOf, wheelOf, escaped_escaped valid, normalize_escaped valid]

theorem parseSdist_canonical (valid : Wellformed name) (parsed : Parsed v) (filename : Text) :
    parseSdist filename (escaped name ++ '-' :: v.normalized) suffix = .ok (sdistOf name v suffix) := by
  have flat : '-' ∉ v.normalized := fun dash => (plain_normalized parsed _ dash).facts.2.2.2 rfl
  refine parseSdist_eq_ok.mpr ⟨_, _, v, rsplitOnce_append flat, isValidName_iff.mpr (wellformed_escaped valid),
    parse_normalized parsed, ?_⟩
  rw [sdistOf, sdistOf, escaped_escaped valid, normalize_escaped valid]

theorem wheel_reads_back (valid : Wellformed name) (parsed : Parsed v) (tagged : ∀ t ∈ tags, isTag t = true)
    (counted : tags.length = 3 ∨ tags.length = 4) (low : tags.map (fun t => t.map Char.toLower) = tags) :
    parseFilename (wheelOf name v tags).canonical = .ok (wheelOf name v tags) ↔
      (wheelOf name v tags).canonical.length ≤ 255 := by
  have some_ : tags ≠ [] := List.ne_nil_of_length_pos (by omega)
  have read := parseWheel_canonical valid parsed tagged counted low (wheelOf name v tags).canonical
  have cut_ : cutSuffix id (wheelOf name v tags).canonical ".whl".toList =
      some (['-'].intercalate (escaped name :: v.normalized :: tags)) :=
    cutSuffix_eq_some.mpr ⟨_, wheelOf_canonical some_, rfl⟩
  have admitted : Admitted (wheelOf name v tags).canonical ↔ (wheelOf name v tags).canonical.length ≤ 255 := by
    simp only [wheelOf, List.append_assoc]
    refine admitted_iff valid fun c mem => ?_
    rw [List.cons_append, List.mem_cons, List.mem_append, List.cons_append, List.mem_cons, List.mem_append] at mem
    rcases mem with rfl | inside | rfl | inside | inside
    · exact .inr rfl
    · exact .inl (plain_normalized parsed c inside)
    · exact .inr rfl
    · by_cases dash : c = '-'
      · exact .inr dash
      · obtain ⟨tag, listed, inside⟩ := (mem_intercalate_iff dash).mp inside
        exact .inl (plain_tag (tagged tag listed) c inside)
    · exact .inl (plain_suffix (.inl rfl) c inside)
  rw [parseFilename_eq_ok, admitted]
  exact ⟨And.left, fun short => ⟨short, .inl ⟨_, cut_, read⟩⟩⟩

theorem sdistCut_canonical (stem : Text) (listed : suffix ∈ sdistSuffixes) :
    cutSuffix id (stem ++ suffix) ".whl".toList = none ∧ sdistCut (stem ++ suffix) = some (stem, suffix) := by
  have whole : cutSuffix Char.toLower (stem ++ suffix) suffix = some stem := cutSuffix_eq_some.mpr ⟨_, rfl, rfl⟩
  have last : (stem ++ suffix).getLast? = suffix.getLast? := by
    refine List.getLast?_append_of_ne_nil _ ?_
    rintro rfl
    exact absurd listed (by decide)
  rw [sdistSuffixes, List.mem_cons, List.mem_singleton] at listed
  rcases listed with rfl | rfl
  · refine ⟨cutSuffix_eq_none (by decide) (by rw [last]; decide), ?_⟩
    rw [sdistCut, sdistSuffixes, List.findSome?_cons, whole]
    rfl
  · refine ⟨cutSuffix_eq_none (by decide) (by rw [last]; decide), ?_⟩
    have other : cutSuffix Char.toLower (stem ++ ".zip".toList) ".tar.gz".toList = none :=
      cutSuffix_eq_none (by decide) (by rw [last]; decide)
    rw [sdistCut, sdistSuffixes, List.findSome?_cons, other, List.findSome?_cons, whole]
    rfl

theorem sdist_reads_back (valid : Wellformed name) (parsed : Parsed v) (listed : suffix ∈ sdistSuffixes) :
    parseFilename (sdistOf name v suffix).canonical = .ok (sdistOf name v suffix) ↔
      (sdistOf name v suffix).canonical.length ≤ 255 := by
  have cut_ := sdistCut_canonical (escaped name ++ '-' :: v.normalized) listed
  have read : parseSdist (sdistOf name v suffix).canonical (escaped name ++ '-' :: v.normalized) suffix =
      .ok (sdistOf name v suffix) := parseSdist_canonical valid parsed _
  have admitted : Admitted (sdistOf name v suffix).canonical ↔ (sdistOf name v suffix).canonical.length ≤ 255 := by
    rw [sdistOf, List.append_assoc]
    refine admitted_iff valid fun c mem => ?_
    rw [List.cons_append, List.mem_cons, List.mem_append] at mem
    rcases mem with rfl | inside | inside
    · exact .inr rfl
    · exact .inl (plain_normalized parsed c inside)
    · exact .inl (plain_suffix (.inr listed) c inside)
  rw [parseFilename_eq_ok, admitted]
  exact ⟨And.left, fun short => ⟨short, .inr ⟨cut_.1, _, _, cut_.2, read⟩⟩⟩

end Canonical

/-! ### The names that read back -/

/-- The name, the version and the rest a file name is cut into. -/
def cut (filename : Text) : Option (Text × Text × Text) :=
  match cutSuffix id filename ".whl".toList with
  | some stem =>
      match stem.splitOn '-' with
      | name :: version :: tags => some (name, version, '-' :: ['-'].intercalate tags ++ ".whl".toList)
      | _ => none
  | none => do
      let (stem, suffix) ← sdistCut filename
      let (name, version) ← rsplitOnce '-' stem
      pure (name, version, suffix)

/-- What a name, a version and the rest weigh, the project escaped and the version normalized. -/
def canonicalLength (name version rest : Text) : Nat :=
  (normalize name).length + 1 + ((Pep440.parse version).map fun v => v.normalized.length).getD 0 + rest.length

theorem sdistCut_some {filename stem suffix : Text} (found : sdistCut filename = some (stem, suffix)) :
    suffix ∈ sdistSuffixes ∧ cutSuffix Char.toLower filename suffix = some stem := by
  obtain ⟨s, listed, found⟩ := List.exists_of_findSome?_eq_some found
  obtain ⟨stem', cut, same⟩ := Option.map_eq_some_iff.mp found
  cases same
  exact ⟨listed, cut⟩

/-- The canonical name of a file reads back as the same file exactly when, spelled out, it is short enough to be
read. -/
theorem canonical_reads_back_iff {filename : Text} {file : Filename} (read : parseFilename filename = .ok file) :
    parseFilename file.canonical = .ok file ↔
      ∀ parts ∈ cut filename, canonicalLength parts.1 parts.2.1 parts.2.2 ≤ 255 := by
  obtain ⟨-, ⟨stem, wheel, read⟩ | ⟨other, stem, suffix, sdist, read⟩⟩ := parseFilename_eq_ok.mp read
  · obtain ⟨name, version, tags, v, split_, counted, valid, tagged, readVersion, rfl⟩ := parseWheel_eq_ok.mp read
    have parts : cut filename = some (name, version, '-' :: ['-'].intercalate tags ++ ".whl".toList) := by
      rw [cut, wheel]
      simp [split_]
    have low : (tags.map fun t => t.map Char.toLower).map (fun t => t.map Char.toLower) =
        tags.map fun t => t.map Char.toLower := by
      simp [Function.comp_def]
    have taggedLow : ∀ t ∈ tags.map (fun t => t.map Char.toLower), isTag t = true := by
      intro t mem
      obtain ⟨tag, listed, rfl⟩ := List.mem_map.mp mem
      exact isTag_fold (tagged tag listed)
    have folded := wheel_reads_back (isValidName_iff.mp valid) (parsed readVersion) taggedLow
      (by rwa [List.length_map]) low
    have joined : (['-'].intercalate (tags.map fun t => t.map Char.toLower)).length =
        (['-'].intercalate tags).length := by
      have mapped : (['-'].intercalate tags).map Char.toLower =
          [Char.toLower '-'].intercalate (tags.map (List.map Char.toLower)) := map_intercalate _
      simpa using (congrArg List.length mapped).symm
    have length : (wheelOf name v (tags.map fun t => t.map Char.toLower)).canonical.length =
        canonicalLength name version ('-' :: ['-'].intercalate tags ++ ".whl".toList) := by
      simp [wheelOf, canonicalLength, readVersion, length_escaped, joined]
      omega
    rw [folded, length, parts]
    simp
  · obtain ⟨name, version, v, split_, valid, readVersion, rfl⟩ := parseSdist_eq_ok.mp read
    have parts : cut filename = some (name, version, suffix) := by
      rw [cut, other]
      simp [sdist, split_]
    have listed := (sdistCut_some sdist).1
    have length : (sdistOf name v suffix).canonical.length = canonicalLength name version suffix := by
      simp [sdistOf, canonicalLength, readVersion, length_escaped]
      omega
    rw [sdist_reads_back (isValidName_iff.mp valid) (parsed readVersion) listed, length, parts]
    simp

theorem alpha_sdist_reads_back : parseFilename "foo_bar-1.0a0.tar.gz".toList =
    .ok (sdistOf "Foo-Bar".toList ⟨0, [1, 0], some (.alpha 0), none, none, []⟩ ".tar.gz".toList) := by
  have read : parseFilename "Foo-Bar-1.0a.TAR.GZ".toList =
      .ok (sdistOf "Foo-Bar".toList ⟨0, [1, 0], some (.alpha 0), none, none, []⟩ ".tar.gz".toList) := by
    decide +kernel
  exact (canonical_reads_back_iff read).mpr (by decide +kernel)

/-- An sdist whose name has 255 bytes. -/
def longSdist : Text := List.replicate 200 'a' ++ "-1.0a+".toList ++ List.replicate 42 'b' ++ ".tar.gz".toList

def longFile : Filename :=
  sdistOf (List.replicate 200 'a') ⟨0, [1, 0], some (.alpha 0), none, none, [List.replicate 42 'b']⟩ ".tar.gz".toList

/-- `1.0a` is spelled `1.0a0`, which is a byte too long. -/
theorem long_sdist_is_refused : parseFilename longSdist = .ok longFile ∧
    parseFilename longFile.canonical = .error (invalid "filename".toList longFile.canonical) := by
  decide +kernel

end OpenCargo.Pypi
