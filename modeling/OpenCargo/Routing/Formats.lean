/-
Module: OpenCargo.Routing.Formats
Purpose: The two keys of a name in each format (`registry/rules.rs`, `registry/pypi/names.rs`, the
  `rules.rs` of NuGet and MCP), the compilation of a pattern and its matching
  (`crates/domain/src/routing.rs`).
Trusted boundary: none
Main exports: Pattern.matches, compilePattern, canonicalPattern, matches_iff_reads
-/
import OpenCargo.Layout
import OpenCargo.Lib.Glob
import OpenCargo.Routing.Store

namespace OpenCargo.Routing

open OpenCargo.Lib

/-! ### The keys of a name -/

/-- `to_ascii_lowercase`. -/
def asciiFold (name : Text) : Text := name.map Char.toLower

/-- What PEP 503 folds a run of into one `-`. -/
def isSeparator (c : Char) : Bool := c == '-' || c == '_' || c == '.'

/-- The body of `normalize`'s loop, on what is pushed so far and whether a run is open. -/
def normalizeStep (state : Text × Bool) (c : Char) : Text × Bool :=
  if isSeparator c then (state.1, true)
  else if state.2 && !state.1.isEmpty then (state.1 ++ ['-', c.toLower], false)
  else (state.1 ++ [c.toLower], false)

/-- PEP 503: lowercase, every run of `-`, `_` and `.` one `-`. -/
def normalize (name : Text) : Text := (name.foldl normalizeStep ([], false)).1

/-- PEP 508, which the read path checks a PyPI name with: letters and digits, with `.`, `_` and `-`
inside. -/
def isValidName (name : Text) : Bool :=
  !name.isEmpty && Keys.byteLength name ≤ 200 && name.head?.any Char.isAlphanum &&
    name.getLast?.any Char.isAlphanum && name.all fun c => c.isAlphanum || isSeparator c

/-- Cargo's second fold: crates.io refuses the pair `a_b` and `a-b`. -/
def dashed (c : Char) : Char := if c == '_' then '-' else c

/-- What patterns are compared on. -/
def matchKey : Format → Text → Text
  | .npm => asciiFold
  | .cargo => fun name => (asciiFold name).map dashed
  | .oci => id
  | .go => asciiFold
  | .pypi => normalize
  | .maven => asciiFold
  | .nuget => asciiFold
  | .mcp => id
  | .raw => id

/-- What exceptions are compared on: two spellings share it exactly when the store serves them as one
row. -/
def identKey : Format → Text → Text
  | .npm => id
  | .cargo => asciiFold
  | .oci => id
  | .go => id
  | .pypi => normalize
  | .maven => id
  | .nuget => asciiFold
  | .mcp => id
  | .raw => id

/-! ### Patterns -/

/-- Anchored on the whole key; a star spans any run, separators included. -/
def Pattern.matches (pattern : Pattern) (key : Text) : Bool := greedy pattern.literals key

def maxPatternLen : Nat := 255

def maxStars : Nat := 8

def invalid (pattern why : Text) : DomainError :=
  .invalidName ("invalid routing pattern '".toList ++ pattern ++ "': ".toList ++ why)

/-- A star, while the format canonicalizes the rest of the pattern. -/
def placeholder : Char := '\x00'

/-- `pattern.replace(STAR, PLACEHOLDER)`, a letter at a time. -/
def veil (c : Char) : Char := if c = '*' then placeholder else c

/-- The stars are replaced by a placeholder, the whole is canonicalized, and the pieces are cut back
out. -/
def compilePattern (pattern : Text) (canonicalize : Text → Text) : Except DomainError Pattern :=
  let stars := pattern.count '*'
  let canonical := canonicalize (pattern.map veil)
  let literals := canonical.splitOn placeholder
  if pattern.isEmpty then
    .error (invalid pattern "a pattern is never empty".toList)
  else if Keys.byteLength pattern > maxPatternLen then
    .error (invalid pattern ("longer than ".toList ++ (toString maxPatternLen).toList ++
      " bytes".toList))
  else if pattern.contains '\\' then
    .error (invalid pattern (("the language has no escape, so it cannot express a literal '*'; " ++
      "name such a package in except[] instead").toList))
  else if pattern.contains placeholder then
    .error (invalid pattern "a control byte is not part of any name".toList)
  else if stars > maxStars then
    .error (invalid pattern ("more than ".toList ++ (toString maxStars).toList ++ " stars".toList))
  else if canonicalize canonical ≠ canonical then
    .error (invalid pattern "does not canonicalize to a stable form in this format".toList)
  else if canonical.count placeholder ≠ stars then
    .error (invalid pattern
      "canonicalization moved or dropped a '*', so the pattern cannot be trusted".toList)
  else if literals.any fun literal => literal.contains '*' then
    .error (invalid pattern "'*' is a metacharacter, never a literal".toList)
  else .ok { literals := literals, source := pattern }

/-- Every format compiles a pattern with its own `match_key`. -/
def canonicalPattern (format : Format) (pattern : Text) : Except DomainError Pattern :=
  compilePattern pattern (matchKey format)

theorem compilePattern_ok {pattern : Text} {canonicalize : Text → Text} {compiled : Pattern}
    (done : compilePattern pattern canonicalize = .ok compiled) :
    pattern ≠ [] ∧ placeholder ∉ pattern ∧
      compiled = { literals := (canonicalize (pattern.map veil)).splitOn placeholder,
                   source := pattern } := by
  simp only [compilePattern] at done
  iterate 8
    split at done
    · cases done
  rename_i nonempty _ _ plain _ _ _ _
  refine ⟨by simpa using nonempty, by simpa using plain, ?_⟩
  cases done
  rfl

/-! ### The letters a fold moves -/

theorem toLower_cases (c : Char) :
    c.toLower = c ∨ (97 ≤ c.toLower.toNat ∧ c.toLower.toNat ≤ 122) := by
  unfold Char.toLower
  split
  · rename_i upper
    have low : 65 ≤ c.val.toNat := UInt32.le_iff_toNat_le.mp upper.1
    have high : c.val.toNat ≤ 90 := UInt32.le_iff_toNat_le.mp upper.2
    have moved : (c.val + ('a'.val - 'A'.val)).toNat = c.val.toNat + 32 := by
      rw [UInt32.toNat_add]
      exact Nat.mod_eq_of_lt (by change c.val.toNat + 32 < _; omega)
    right
    change 97 ≤ (c.val + ('a'.val - 'A'.val)).toNat ∧ (c.val + ('a'.val - 'A'.val)).toNat ≤ 122
    omega
  · exact .inl rfl

theorem toLower_eq_iff {c d : Char} (outside : d.toNat < 97) (fixed : d.toLower = d) :
    c.toLower = d ↔ c = d := by
  constructor
  · intro same
    rcases toLower_cases c with kept | moved
    · rw [← kept, same]
    · rw [same] at moved
      omega
  · intro same
    rw [same, fixed]

/-- A fold of letters that moves none to or from the star and the placeholder. -/
structure Spares (f : Char → Char) : Prop where
  star : ∀ c, f c = '*' ↔ c = '*'
  hidden : ∀ c, f c = placeholder ↔ c = placeholder

theorem spares_id : Spares id where
  star _ := Iff.rfl
  hidden _ := Iff.rfl

theorem spares_toLower : Spares Char.toLower where
  star _ := toLower_eq_iff (by decide) (by decide)
  hidden _ := toLower_eq_iff (by decide) (by decide)

theorem spares_dashed : Spares dashed where
  star c := by
    by_cases low : c = '_'
    · subst low
      decide
    · simp [dashed, low]
  hidden c := by
    by_cases low : c = '_'
    · subst low
      decide
    · simp [dashed, low]

theorem Spares.comp {f g : Char → Char} (outer : Spares f) (inner : Spares g) : Spares (f ∘ g) where
  star c := (outer.star (g c)).trans (inner.star c)
  hidden c := (outer.hidden (g c)).trans (inner.hidden c)

theorem Spares.veil_comm {f : Char → Char} (spares : Spares f) (c : Char) : f (veil c) = veil (f c) := by
  by_cases starred : c = '*'
  · rw [starred, (spares.star '*').mpr rfl]
    exact (spares.hidden placeholder).mpr rfl
  · have kept : f c ≠ '*' := fun same => starred ((spares.star c).mp same)
    rw [veil, veil, if_neg starred, if_neg kept]

theorem isSeparator_veil (c : Char) : isSeparator (veil c) = isSeparator c := by
  by_cases starred : c = '*'
  · subst starred
    decide
  · rw [veil, if_neg starred]

theorem matchKey_letterwise {format : Format} (letterwise : format ≠ .pypi) :
    ∃ f, matchKey format = List.map f ∧ Spares f := by
  cases format with
  | pypi => exact absurd rfl letterwise
  | npm | go | maven | nuget => exact ⟨Char.toLower, rfl, spares_toLower⟩
  | oci | mcp | raw => exact ⟨id, List.map_id_fun.symm, spares_id⟩
  | cargo =>
      refine ⟨dashed ∘ Char.toLower, ?_, spares_dashed.comp spares_toLower⟩
      funext name
      exact List.map_map

/-! ### PyPI's fold, a letter at a time from the left -/

/-- What is left to push once something is pushed; `run` says whether a run of separators is open. -/
def collapse (run : Bool) : Text → Text
  | [] => []
  | c :: rest =>
      if isSeparator c then collapse true rest
      else if run then '-' :: c.toLower :: collapse false rest
      else c.toLower :: collapse false rest

variable {c : Char} {rest : Text}

@[simp] theorem collapse_nil (run : Bool) : collapse run [] = [] := rfl

theorem collapse_separator (sep : isSeparator c = true) (run : Bool) :
    collapse run (c :: rest) = collapse true rest := by
  rw [collapse, if_pos sep]

theorem collapse_plain (plain : isSeparator c = false) :
    collapse false (c :: rest) = c.toLower :: collapse false rest := by
  rw [collapse, if_neg (by simp [plain]), if_neg Bool.false_ne_true]

theorem collapse_plain_run (plain : isSeparator c = false) :
    collapse true (c :: rest) = '-' :: c.toLower :: collapse false rest := by
  rw [collapse, if_neg (by simp [plain]), if_pos rfl]

/-- Whether a run of separators is open at the end of `name`. -/
def runAfter (run : Bool) : Text → Bool
  | [] => run
  | c :: rest => runAfter (isSeparator c) rest

theorem collapse_append (run : Bool) (front back : Text) :
    collapse run (front ++ back) = collapse run front ++ collapse (runAfter run front) back := by
  induction front generalizing run with
  | nil => rfl
  | cons c front ih =>
      rw [List.cons_append, runAfter]
      cases sep : isSeparator c with
      | true => rw [collapse_separator sep, collapse_separator sep, ih]
      | false =>
          cases run with
          | true =>
              rw [collapse_plain_run sep, collapse_plain_run sep, ih]
              rfl
          | false =>
              rw [collapse_plain sep, collapse_plain sep, ih]
              rfl

theorem foldl_normalizeStep (out : Text) (run : Bool) (pushed : out ≠ []) (name : Text) :
    (name.foldl normalizeStep (out, run)).1 = out ++ collapse run name := by
  induction name generalizing out run with
  | nil => simp
  | cons c rest ih =>
      have open_ : out.isEmpty = false := by simpa using pushed
      rw [List.foldl_cons, normalizeStep]
      cases sep : isSeparator c with
      | true =>
          rw [if_pos rfl, ih out true pushed, collapse_separator sep]
      | false =>
          cases run with
          | true =>
              simp only [open_, Bool.not_false, Bool.and_self, Bool.false_eq_true, if_false, if_true]
              rw [ih _ _ (by simp), collapse_plain_run sep]
              simp
          | false =>
              simp only [Bool.false_and, Bool.false_eq_true, if_false]
              rw [ih _ _ (by simp), collapse_plain sep]
              simp

theorem normalize_eq_collapse (name : Text) :
    normalize name = collapse false (name.dropWhile isSeparator) := by
  have empty : ∀ run, (name.foldl normalizeStep ([], run)).1 =
      collapse false (name.dropWhile isSeparator) := by
    induction name with
    | nil => exact fun _ => rfl
    | cons c rest ih =>
        intro run
        rw [List.foldl_cons, normalizeStep]
        cases sep : isSeparator c with
        | true =>
            rw [if_pos rfl, List.dropWhile_cons_of_pos sep]
            exact ih true
        | false =>
            rw [List.dropWhile_cons_of_neg (by simp [sep]), collapse_plain sep]
            simp only [Bool.false_eq_true, if_false, List.isEmpty_nil, Bool.not_true, Bool.and_false,
              List.nil_append]
            exact foldl_normalizeStep [c.toLower] false (List.cons_ne_nil _ _) rest
  exact empty false

theorem mem_collapse {d : Char} {run : Bool} {name : Text} (there : d ∈ collapse run name) :
    d = '-' ∨ ∃ c ∈ name, d = c.toLower := by
  induction name generalizing run with
  | nil => cases there
  | cons c rest ih =>
      have further : ∀ run, d ∈ collapse run rest → d = '-' ∨ ∃ e ∈ c :: rest, d = e.toLower := by
        intro run later
        rcases ih later with dash | ⟨e, held, same⟩
        · exact .inl dash
        · exact .inr ⟨e, List.mem_cons_of_mem c held, same⟩
      cases sep : isSeparator c with
      | true =>
          rw [collapse_separator sep] at there
          exact further true there
      | false =>
          cases run with
          | true =>
              rw [collapse_plain_run sep, List.mem_cons, List.mem_cons] at there
              rcases there with dash | same | later
              · exact .inl dash
              · exact .inr ⟨c, List.mem_cons_self .., same⟩
              · exact further false later
          | false =>
              rw [collapse_plain sep, List.mem_cons] at there
              rcases there with same | later
              · exact .inr ⟨c, List.mem_cons_self .., same⟩
              · exact further false later

theorem collapse_map_veil (run : Bool) (name : Text) :
    collapse run (name.map veil) = (collapse run name).map veil := by
  induction name generalizing run with
  | nil => rfl
  | cons c rest ih =>
      have veiled := isSeparator_veil c
      rw [List.map_cons]
      cases sep : isSeparator c with
      | true => rw [collapse_separator (veiled.trans sep), collapse_separator sep, ih]
      | false =>
          have dash : veil '-' = '-' := by decide
          cases run with
          | true =>
              rw [collapse_plain_run (veiled.trans sep), collapse_plain_run sep, List.map_cons,
                List.map_cons, ih, dash, spares_toLower.veil_comm]
          | false =>
              rw [collapse_plain (veiled.trans sep), collapse_plain sep, List.map_cons, ih,
                spares_toLower.veil_comm]

/-! ### What a compiled pattern matches -/

theorem matchKey_map_veil (format : Format) (pattern : Text) :
    matchKey format (pattern.map veil) = (matchKey format pattern).map veil := by
  by_cases letterwise : format = .pypi
  · subst letterwise
    have dropped : (pattern.map veil).dropWhile isSeparator =
        (pattern.dropWhile isSeparator).map veil := by
      rw [List.dropWhile_map]
      congr 2
      exact funext isSeparator_veil
    simp only [matchKey, normalize_eq_collapse, dropped, collapse_map_veil]
  · obtain ⟨f, key, spares⟩ := matchKey_letterwise letterwise
    rw [key, List.map_map, List.map_map]
    exact List.map_congr_left fun c _ => spares.veil_comm c

theorem placeholder_not_mem_matchKey (format : Format) {pattern : Text}
    (plain : placeholder ∉ pattern) : placeholder ∉ matchKey format pattern := by
  by_cases letterwise : format = .pypi
  · subst letterwise
    intro there
    rw [matchKey, normalize_eq_collapse] at there
    rcases mem_collapse there with dash | ⟨c, held, same⟩
    · exact absurd dash (by decide)
    · have hidden := (spares_toLower.hidden c).mp same.symm
      exact plain (hidden ▸ (List.dropWhile_suffix _).subset held)
  · obtain ⟨f, key, spares⟩ := matchKey_letterwise letterwise
    rw [key]
    intro there
    obtain ⟨c, held, same⟩ := List.mem_map.mp there
    exact plain ((spares.hidden c).mp same ▸ held)

/-- A compiled pattern matches the keys that read as the canonical form of the pattern, its stars
standing for any text. -/
theorem matches_iff_reads {format : Format} {pattern : Text} {compiled : Pattern}
    (done : canonicalPattern format pattern = .ok compiled) (key : Text) :
    compiled.matches key = true ↔ Reads '*' (matchKey format pattern) key := by
  obtain ⟨_, plain, cut⟩ := compilePattern_ok done
  have fresh := placeholder_not_mem_matchKey format plain
  calc compiled.matches key = true
      ↔ Fits ((matchKey format (pattern.map veil)).splitOn placeholder) key := by
        rw [cut]
        exact greedy_iff_fits
    _ ↔ Reads placeholder ((matchKey format pattern).map veil) key := by
        rw [matchKey_map_veil, reads_iff_fits]
    _ ↔ Reads '*' (matchKey format pattern) key := Reads.rename_iff fresh

end OpenCargo.Routing
