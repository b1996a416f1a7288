/-
Module: OpenCargo.Routing.Escape
Purpose: Whether a spelling escapes a routing pattern. A name that reads as the pattern as it is
  written is matched by the compiled pattern, unless PyPI's fold of separator runs swallows a star:
  a pattern whose stars stand between two separators asks for two dashes, and the key of a name may
  hold one.
Trusted boundary: none
Main exports: Collapsed, reads_normalize, squeeze, no_spelling_escapes_iff
-/
import OpenCargo.Routing.Formats

namespace OpenCargo.Routing

open OpenCargo.Lib

/-! ### Pinched patterns -/

/-- Stars, or none, and then a separator. -/
def starsThenSeparator : Text → Bool
  | [] => false
  | c :: rest => if c == '*' then starsThenSeparator rest else isSeparator c

/-- Somewhere only stars, and at least one, stand between two separators. -/
def pinched : Text → Bool
  | [] => false
  | c :: rest =>
      (isSeparator c && rest.head? == some '*' && starsThenSeparator rest) || pinched rest

theorem pinched_cons_eq_false {c : Char} {rest : Text} (free : pinched (c :: rest) = false) :
    pinched rest = false ∧
      (isSeparator c = true → rest.head? = some '*' → starsThenSeparator rest = false) := by
  rw [pinched, Bool.or_eq_false_iff] at free
  refine ⟨free.2, fun sep starred => ?_⟩
  simpa [sep, starred] using free.1

/-! ### Where a run of separators is cut -/

theorem not_separator_of_isAlphanum {c : Char} (word : c.isAlphanum = true) :
    isSeparator c = false := by
  by_contra sep
  rw [Bool.not_eq_false] at sep
  simp only [isSeparator, Bool.or_eq_true, beq_iff_eq, or_assoc] at sep
  rcases sep with rfl | rfl | rfl <;> exact absurd word (by decide)

/-- After a separator, either nothing is pushed and the run stays open, or the dash is. -/
theorem collapse_true_cases (name : Text) :
    (collapse true name = [] ∧ runAfter true name = true ∧ ∀ c ∈ name, isSeparator c = true) ∨
      ∃ more, collapse true name = '-' :: more := by
  induction name with
  | nil => exact .inl ⟨rfl, rfl, fun c none_ => nomatch none_⟩
  | cons c rest ih =>
      cases sep : isSeparator c with
      | false => exact .inr ⟨_, collapse_plain_run sep⟩
      | true =>
          rw [collapse_separator sep, runAfter, sep]
          rcases ih with ⟨nothing, opened, all⟩ | dash
          · refine .inl ⟨nothing, opened, fun d there => ?_⟩
            rcases List.mem_cons.mp there with rfl | later
            · exact sep
            · exact all d later
          · exact .inr dash

/-- No separator ends the text. -/
def Trimmed (name : Text) : Prop := ∀ c ∈ name.getLast?, isSeparator c = false

theorem Trimmed.of_append {front back : Text} (trimmed : Trimmed (front ++ back)) :
    Trimmed back := by
  intro c last
  refine trimmed c ?_
  rw [List.getLast?_append, Option.mem_def.mp last]
  rfl

theorem Trimmed.eq_nil {name : Text} (trimmed : Trimmed name)
    (all : ∀ c ∈ name, isSeparator c = true) : name = [] := by
  cases last : name.getLast? with
  | none => exact List.getLast?_eq_none_iff.mp last
  | some c =>
      have sep := all c (List.mem_of_getLast? last)
      rw [trimmed c last] at sep
      cases sep

/-! ### A pattern that is not pinched -/

/-- The canonical form of the pattern reads the canonical form of the name, wherever a run of
separators was cut: with a star in front, with no run open, with one open before the pattern, and
with one open before a star. -/
structure Collapsed (pattern name : Text) : Prop where
  starred : ∀ run, Reads '*' ('*' :: collapse false pattern) (collapse run name)
  closed : Reads '*' (collapse false pattern) (collapse false name)
  opened : name ≠ [] → (pattern.head? = some '*' → starsThenSeparator pattern = false) →
    Reads '*' (collapse true pattern) (collapse true name)
  owed : name ≠ [] → starsThenSeparator pattern = false →
    Reads '*' ('-' :: '*' :: collapse false pattern) (collapse true name)

namespace Collapsed

variable {pattern name : Text} {c : Char}

theorem done : Collapsed [] [] where
  starred _ := Reads.skip .done
  closed := .done
  opened some_ := absurd rfl some_
  owed some_ := absurd rfl some_

theorem separator (sep : isSeparator c = true) (trimmed : Trimmed (c :: name))
    (free : pinched (c :: pattern) = false) (rest : Collapsed pattern name) :
    Collapsed (c :: pattern) (c :: name) := by
  have more : name ≠ [] := by
    rintro rfl
    have plain := trimmed c rfl
    rw [sep] at plain
    cases plain
  have tail := rest.opened more ((pinched_cons_eq_false free).2 sep)
  refine ⟨fun run => ?_, ?_, fun _ _ => ?_, fun _ none_ => ?_⟩
  · rw [collapse_separator sep, collapse_separator sep]
    exact tail.skip
  · rw [collapse_separator sep, collapse_separator sep]
    exact tail
  · rw [collapse_separator sep, collapse_separator sep]
    exact tail
  · have letter : c ≠ '*' := by
      rintro rfl
      cases sep
    simp [starsThenSeparator, letter, sep] at none_

theorem plain (letter : c ≠ '*') (word : isSeparator c = false) (rest : Collapsed pattern name) :
    Collapsed (c :: pattern) (c :: name) := by
  have kept : c.toLower ≠ '*' := fun same => letter ((spares_toLower.star c).mp same)
  have tail : Reads '*' (collapse false (c :: pattern)) (collapse false (c :: name)) := by
    rw [collapse_plain word, collapse_plain word]
    exact .letter kept rest.closed
  have dashed : collapse true (c :: name) = '-' :: collapse false (c :: name) := by
    rw [collapse_plain_run word, collapse_plain word]
  refine ⟨fun run => ?_, tail, fun _ _ => ?_, fun _ _ => ?_⟩
  · cases run with
    | false => exact tail.skip
    | true =>
        rw [dashed]
        exact tail.skip.absorb ['-']
  · rw [dashed, collapse_plain_run word, ← collapse_plain word]
    exact .letter (by decide) tail
  · rw [dashed]
    exact .letter (by decide) tail.skip

theorem run (spread : Text) (trimmed : Trimmed (spread ++ name)) (rest : Collapsed pattern name) :
    Collapsed ('*' :: pattern) (spread ++ name) := by
  have star : isSeparator '*' = false := by decide
  have low : Char.toLower '*' = '*' := by decide
  have tail : ∀ run, Reads '*' ('*' :: collapse false pattern) (collapse run (spread ++ name)) := by
    intro run
    rw [collapse_append]
    exact (rest.starred _).absorb _
  have owed : spread ++ name ≠ [] → starsThenSeparator pattern = false →
      Reads '*' ('-' :: '*' :: collapse false pattern) (collapse true (spread ++ name)) := by
    intro some_ clear
    rw [collapse_append]
    rcases collapse_true_cases spread with ⟨nothing, opened, all⟩ | ⟨more, dash⟩
    · -- the star stands for separators alone, and the run goes on in what follows it
      have following : name ≠ [] := by
        rintro rfl
        rw [List.append_nil] at trimmed some_
        exact some_ (trimmed.eq_nil all)
      rw [nothing, opened]
      exact rest.owed following clear
    · rw [dash]
      exact .letter (by decide) ((rest.starred _).absorb more)
  refine ⟨fun run => ?_, ?_, fun some_ clear => ?_, fun some_ clear => ?_⟩
  · rw [collapse_plain star, low]
    exact (tail run).skip
  · rw [collapse_plain star, low]
    exact tail false
  · rw [collapse_plain_run star, low]
    exact owed some_ (by simpa [starsThenSeparator] using clear rfl)
  · rw [collapse_plain star, low]
    obtain ⟨after, split, starred⟩ :=
      (owed some_ (by simpa [starsThenSeparator] using clear)).letter_inv (by decide)
    rw [split]
    exact .letter (by decide) starred.skip

end Collapsed

theorem collapsed_of_reads {pattern name : Text} (reads : Reads '*' pattern name)
    (trimmed : Trimmed name) (free : pinched pattern = false) : Collapsed pattern name := by
  induction reads with
  | done => exact .done
  | @letter c pattern name letter _ ih =>
      have after : Trimmed name := Trimmed.of_append (show Trimmed ([c] ++ name) from trimmed)
      have rest := ih after (pinched_cons_eq_false free).1
      cases sep : isSeparator c with
      | true => exact .separator sep trimmed free rest
      | false => exact .plain letter sep rest
  | run spread _ ih =>
      exact .run spread trimmed (ih trimmed.of_append (pinched_cons_eq_false free).1)

/-! ### The names PyPI reads -/

/-- What `isValidName` says of a name. -/
structure Wellformed (name : Text) : Prop where
  nonempty : name ≠ []
  bounded : Keys.byteLength name ≤ 200
  first : ∀ c ∈ name.head?, isSeparator c = false
  trimmed : Trimmed name
  letters : ∀ c ∈ name, c.isAlphanum = true ∨ isSeparator c = true

theorem isValidName_iff {name : Text} : isValidName name = true ↔ Wellformed name := by
  simp only [isValidName, Bool.and_eq_true, Bool.not_eq_true', List.isEmpty_eq_false_iff,
    decide_eq_true_eq, List.all_eq_true, Bool.or_eq_true]
  constructor
  · intro valid
    obtain ⟨⟨⟨⟨nonempty, bounded⟩, first⟩, last⟩, letters⟩ := valid
    refine ⟨nonempty, bounded, fun c there => ?_, fun c there => ?_, letters⟩
    · rw [Option.mem_def.mp there] at first
      exact not_separator_of_isAlphanum first
    · rw [Option.mem_def.mp there] at last
      exact not_separator_of_isAlphanum last
  · intro wellformed
    have word : ∀ c ∈ name, isSeparator c = false → c.isAlphanum = true := by
      intro c there plain
      simpa [plain] using wellformed.letters c there
    refine ⟨⟨⟨⟨wellformed.nonempty, wellformed.bounded⟩, ?_⟩, ?_⟩, wellformed.letters⟩
    · rw [List.head?_eq_some_head wellformed.nonempty]
      exact word _ (List.head_mem _) (wellformed.first _ (List.head?_eq_some_head _))
    · rw [List.getLast?_eq_some_getLast wellformed.nonempty]
      exact word _ (List.getLast_mem _)
        (wellformed.trimmed _ (List.getLast?_eq_some_getLast _))

theorem normalize_of_first {name : Text} (first : ∀ c ∈ name.head?, isSeparator c = false) :
    normalize name = collapse false name := by
  rw [normalize_eq_collapse]
  cases name with
  | nil => rfl
  | cons c rest => rw [List.dropWhile_cons_of_neg (by simp [first c rfl])]

theorem Wellformed.first_of_reads {pattern name : Text} (wellformed : Wellformed name)
    (reads : Reads '*' pattern name) : ∀ c ∈ pattern.head?, isSeparator c = false := by
  intro c there
  cases reads with
  | done => cases there
  | letter _ _ =>
      cases there
      exact wellformed.first c rfl
  | run _ _ =>
      cases there
      decide

theorem reads_normalize {pattern name : Text} (valid : isValidName name = true)
    (reads : Reads '*' pattern name) (free : pinched pattern = false) :
    Reads '*' (normalize pattern) (normalize name) := by
  have wellformed := isValidName_iff.mp valid
  rw [normalize_of_first wellformed.first, normalize_of_first (wellformed.first_of_reads reads)]
  exact (collapsed_of_reads reads wellformed.trimmed free).closed

/-! ### A pinched pattern -/

/-- The dashes a fold pushes. -/
abbrev dashes (run : Bool) (name : Text) : Nat := (collapse run name).count '-'

theorem dashes_separator {c : Char} {rest : Text} (sep : isSeparator c = true) (run : Bool) :
    dashes run (c :: rest) = dashes true rest := by
  rw [dashes, collapse_separator sep]

theorem dashes_plain {c : Char} {rest : Text} (word : isSeparator c = false) :
    dashes false (c :: rest) = dashes false rest := by
  have kept : c.toLower ≠ '-' := by
    intro same
    rw [(toLower_eq_iff (by decide) (by decide)).mp same] at word
    cases word
  rw [dashes, collapse_plain word, List.count_cons_of_ne kept]

theorem dashes_plain_run {c : Char} {rest : Text} (word : isSeparator c = false) :
    dashes true (c :: rest) = dashes false rest + 1 := by
  rw [← dashes_plain word, dashes, collapse_plain_run word, List.count_cons_self,
    ← collapse_plain word]

theorem dashes_true_le (name : Text) : dashes true name ≤ dashes false name + 1 := by
  cases name with
  | nil => exact Nat.zero_le _
  | cons c rest =>
      cases sep : isSeparator c with
      | true =>
          rw [dashes_separator sep, dashes_separator sep]
          exact Nat.le_succ _
      | false => rw [dashes_plain_run sep, dashes_plain sep]

/-- The pattern with every star standing for nothing. -/
def squeeze (pattern : Text) : Text := pattern.filter fun c => c != '*'

theorem squeeze_star (pattern : Text) : squeeze ('*' :: pattern) = squeeze pattern := rfl

theorem squeeze_letter {c : Char} (letter : c ≠ '*') (pattern : Text) :
    squeeze (c :: pattern) = c :: squeeze pattern := by
  rw [squeeze, List.filter_cons_of_pos (by simpa using letter)]
  rfl

theorem reads_squeeze (pattern : Text) : Reads '*' pattern (squeeze pattern) := by
  induction pattern with
  | nil => exact .done
  | cons c pattern ih =>
      by_cases starred : c = '*'
      · rw [starred, squeeze_star]
        exact ih.skip
      · rw [squeeze_letter starred]
        exact .letter starred ih

theorem squeeze_sublist {pattern name : Text} (reads : Reads '*' pattern name) :
    (squeeze pattern).Sublist name := by
  induction reads with
  | done => exact .slnil
  | letter letter _ ih =>
      rw [squeeze_letter letter]
      exact ih.cons_cons _
  | run spread _ ih =>
      rw [squeeze_star]
      exact ih.trans (List.sublist_append_right spread _)

theorem starsThenSeparator_squeeze {pattern : Text} (next : starsThenSeparator pattern = true) :
    ∃ c rest, isSeparator c = true ∧ squeeze pattern = c :: rest := by
  induction pattern with
  | nil => cases next
  | cons c pattern ih =>
      by_cases starred : c = '*'
      · rw [starred, squeeze_star]
        exact ih (by simpa [starsThenSeparator, starred] using next)
      · refine ⟨c, squeeze pattern, ?_, squeeze_letter starred pattern⟩
        simpa [starsThenSeparator, starred] using next

theorem pinched_plain {c : Char} {rest : Text} (word : isSeparator c = false) :
    pinched (c :: rest) = pinched rest := by
  rw [pinched, word, Bool.false_and, Bool.false_and, Bool.false_or]

/-- Before stars that a separator follows, an open run is the run that goes on after them. -/
theorem dashes_before_pinch {pattern back : Text} (next : starsThenSeparator pattern = true) :
    dashes true (squeeze pattern ++ back) = dashes false (squeeze pattern ++ back) := by
  obtain ⟨c, rest, sep, split⟩ := starsThenSeparator_squeeze next
  rw [split, List.cons_append, dashes_separator sep, dashes_separator sep]

/-- Squeezing pushes no dash more, and a pinched pattern loses one: two runs become one. -/
theorem dashes_squeeze (run : Bool) (pattern back : Text) :
    dashes run (squeeze pattern ++ back) + (pinched pattern).toNat ≤ dashes run (pattern ++ back) := by
  induction pattern generalizing run with
  | nil => exact le_rfl
  | cons c pattern ih =>
      have shut := ih false
      by_cases starred : c = '*'
      · subst starred
        rw [squeeze_star, List.cons_append, pinched_plain (by decide)]
        cases run with
        | false =>
            rw [dashes_plain (by decide)]
            exact shut
        | true =>
            rw [dashes_plain_run (by decide)]
            have opened := dashes_true_le (squeeze pattern ++ back)
            omega
      · rw [squeeze_letter starred, List.cons_append, List.cons_append]
        cases sep : isSeparator c with
        | true =>
            rw [dashes_separator sep, dashes_separator sep, pinched, sep, Bool.true_and]
            cases here : pattern.head? == some '*' && starsThenSeparator pattern with
            | false =>
                rw [Bool.false_or]
                exact ih true
            | true =>
                rw [Bool.and_eq_true, beq_iff_eq] at here
                obtain ⟨rest, rfl⟩ : ∃ rest, pattern = '*' :: rest := List.head?_eq_some_iff.mp here.1
                rw [dashes_before_pinch here.2]
                rw [List.cons_append, dashes_plain (by decide)] at shut
                rw [List.cons_append, dashes_plain_run (by decide)]
                simp only [Bool.true_or, Bool.toNat_true]
                omega
        | false =>
            rw [pinched_plain sep]
            cases run with
            | false =>
                rw [dashes_plain sep, dashes_plain sep]
                exact shut
            | true =>
                rw [dashes_plain_run sep, dashes_plain_run sep]
                omega

theorem exists_separator_of_pinched {pattern : Text} (tight : pinched pattern = true) :
    ∃ c ∈ pattern, isSeparator c = true := by
  induction pattern with
  | nil => cases tight
  | cons c pattern ih =>
      rw [pinched, Bool.or_eq_true, Bool.and_eq_true, Bool.and_eq_true] at tight
      rcases tight with here | later
      · exact ⟨c, List.mem_cons_self .., here.1.1⟩
      · obtain ⟨d, there, sep⟩ := ih later
        exact ⟨d, List.mem_cons_of_mem c there, sep⟩

theorem squeeze_ne_nil {pattern : Text} (tight : pinched pattern = true) : squeeze pattern ≠ [] := by
  obtain ⟨c, there, sep⟩ := exists_separator_of_pinched tight
  have letter : c ≠ '*' := by
    rintro rfl
    cases sep
  exact List.ne_nil_of_mem (List.mem_filter.mpr ⟨there, by simpa using letter⟩)

/-- A text put before or after a word so that no separator stands at its end: nothing, or one letter
that a star at that end of the pattern takes in. -/
def Mends (mend : Text) (end_ : Option Char) : Prop :=
  mend = [] ∨ ∃ c, mend = [c] ∧ isSeparator c = false ∧ end_ = some '*'

/-- A word that reads as the pattern and is part of a name that does is mended with the name's first
letter. -/
theorem mend_front {pattern name word : Text} (first : ∀ c ∈ name.head?, isSeparator c = false)
    (reads : Reads '*' pattern name) (reads' : Reads '*' pattern word) (part : word.Sublist name) :
    ∃ front, Mends front pattern.head? ∧ Reads '*' pattern (front ++ word) ∧
      (front ++ word).Sublist name ∧ ∀ c ∈ (front ++ word).head?, isSeparator c = false := by
  cases word with
  | nil => exact ⟨[], .inl rfl, reads', part, fun c none_ => nomatch none_⟩
  | cons c rest =>
      cases sep : isSeparator c with
      | false =>
          refine ⟨[], .inl rfl, reads', part, fun d there => ?_⟩
          cases there
          exact sep
      | true =>
          cases name with
          | nil => cases part
          | cons a name =>
              have word : isSeparator a = false := first a rfl
              have differ : c ≠ a := by
                rintro rfl
                rw [sep] at word
                cases word
              cases pattern with
              | nil => cases reads'
              | cons d pattern =>
                  obtain rfl : d = '*' := by
                    by_contra letter
                    obtain ⟨_, here, _⟩ := reads'.letter_inv letter
                    obtain ⟨_, there, _⟩ := reads.letter_inv letter
                    cases here
                    cases there
                    exact differ rfl
                  refine ⟨[a], .inr ⟨a, rfl, word, rfl⟩, reads'.absorb [a], ?_, fun d there => ?_⟩
                  · exact (List.Sublist.of_cons_of_ne differ part).cons_cons a
                  · cases there
                    exact word

theorem mend_back {pattern name word : Text} (trimmed : Trimmed name)
    (reads : Reads '*' pattern name) (reads' : Reads '*' pattern word) (part : word.Sublist name) :
    ∃ back, Mends back pattern.getLast? ∧ Reads '*' pattern (word ++ back) ∧
      (word ++ back).Sublist name ∧ Trimmed (word ++ back) := by
  have first : ∀ c ∈ name.reverse.head?, isSeparator c = false := by
    rw [List.head?_reverse]
    exact trimmed
  obtain ⟨front, mends, reading, sub, head⟩ :=
    mend_front first reads.reverse reads'.reverse part.reverse
  have turned : (front ++ word.reverse).reverse = word ++ front.reverse := by simp
  refine ⟨front.reverse, ?_, ?_, ?_, ?_⟩
  · rw [List.head?_reverse] at mends
    rcases mends with rfl | ⟨c, rfl, plain, starred⟩
    · exact .inl rfl
    · exact .inr ⟨c, rfl, plain, starred⟩
  · rw [← turned, ← List.reverse_reverse pattern]
    exact reading.reverse
  · rw [← turned, ← List.reverse_reverse name]
    exact sub.reverse
  · intro c last
    rw [← turned, List.getLast?_reverse] at last
    exact head c last

theorem dashes_mended_front {front : Text} {end_ : Option Char} (mends : Mends front end_)
    (rest : Text) : dashes false (front ++ rest) = dashes false rest := by
  rcases mends with rfl | ⟨c, rfl, plain, _⟩
  · rfl
  · exact dashes_plain plain

theorem dashes_mended_back {pattern back : Text} (mends : Mends back pattern.getLast?) :
    dashes false (pattern ++ back) = dashes false pattern := by
  rcases mends with rfl | ⟨c, rfl, plain, starred⟩
  · rw [List.append_nil]
  · obtain ⟨rest, rfl⟩ := List.getLast?_eq_some_iff.mp starred
    have after : runAfter false (rest ++ ['*']) = false := by
      have last : ∀ run, runAfter run (rest ++ ['*']) = false := by
        induction rest with
        | nil => exact fun _ => rfl
        | cons d rest ih => exact fun _ => ih (by simp) (isSeparator d)
      exact last false
    rw [dashes, collapse_append, after, List.count_append]
    exact congrArg _ (dashes_plain plain)

theorem byteLength_le_of_sublist {part name : Text} (sub : part.Sublist name) :
    Keys.byteLength part ≤ Keys.byteLength name :=
  (sub.map Char.utf8Size).sum_le_sum fun _ _ => Nat.zero_le _

/-- Of the names that read as a pinched pattern one is not matched: the one that spells the pattern
with nothing for its stars, mended at its ends. -/
theorem pinched_escapes {pattern name : Text} (tight : pinched pattern = true)
    (valid : isValidName name = true) (reads : Reads '*' pattern name) :
    ∃ word, isValidName word = true ∧ Reads '*' pattern word ∧
      ¬ Reads '*' (normalize pattern) (normalize word) := by
  have wellformed := isValidName_iff.mp valid
  obtain ⟨front, mends, reading, sub, first⟩ :=
    mend_front wellformed.first reads (reads_squeeze pattern) (squeeze_sublist reads)
  obtain ⟨back, mends', reading', sub', trimmed⟩ :=
    mend_back wellformed.trimmed reads reading sub
  have nonempty : front ++ squeeze pattern ≠ [] := by
    intro none_
    exact squeeze_ne_nil tight (List.append_eq_nil_iff.mp none_).2
  have first' : ∀ c ∈ (front ++ squeeze pattern ++ back).head?, isSeparator c = false := by
    intro c there
    rw [List.head?_append_of_ne_nil _ nonempty] at there
    exact first c there
  have wellformed' : Wellformed (front ++ squeeze pattern ++ back) :=
    { nonempty := List.append_ne_nil_of_left_ne_nil nonempty back
      bounded := (byteLength_le_of_sublist sub').trans wellformed.bounded
      first := first'
      trimmed := trimmed
      letters := fun c there => wellformed.letters c (sub'.subset there) }
  refine ⟨_, isValidName_iff.mpr wellformed', reading', fun kept => ?_⟩
  rw [normalize_of_first first', normalize_of_first (wellformed.first_of_reads reads)] at kept
  have enough : dashes false pattern ≤ dashes false (front ++ squeeze pattern ++ back) :=
    kept.count_le (by decide)
  have fewer := dashes_squeeze false pattern back
  rw [List.append_assoc, dashes_mended_front mends] at enough
  rw [dashes_mended_back mends', tight, Bool.toNat_true] at fewer
  omega

/-! ### No spelling escapes, but for pinched patterns -/

/-- A name that reads as an accepted pattern, each star standing for any text, is matched by the
compiled pattern, whatever its spelling, unless the format is PyPI, the pattern is pinched and some
name PyPI admits reads as it. A PyPI name is one its read path admits. -/
theorem no_spelling_escapes_iff {format : Format} {pattern : Text} {compiled : Pattern}
    (accepted : canonicalPattern format pattern = .ok compiled) :
    (∀ name, (format = .pypi → isValidName name = true) → Reads '*' pattern name →
        compiled.matches (matchKey format name) = true) ↔
      ¬ (format = .pypi ∧ pinched pattern = true ∧
        ∃ name, isValidName name = true ∧ Reads '*' pattern name) := by
  simp only [matches_iff_reads accepted]
  by_cases letterwise : format = .pypi
  · subst letterwise
    constructor
    · intro caught escape
      obtain ⟨_, tight, name, valid, reads⟩ := escape
      obtain ⟨word, valid', reads', missed⟩ := pinched_escapes tight valid reads
      exact missed (caught word (fun _ => valid') reads')
    · intro free name valid reads
      refine reads_normalize (valid rfl) reads ?_
      by_contra tight
      rw [Bool.not_eq_false] at tight
      exact free ⟨rfl, tight, name, valid rfl, reads⟩
  · obtain ⟨f, key, spares⟩ := matchKey_letterwise letterwise
    simp only [letterwise, false_and, not_false_eq_true, iff_true, false_implies, true_implies, key]
    intro name reads
    exact reads.map f ((spares.star '*').mpr rfl) fun c _ same => (spares.star c).mp same

/-- The rule written `Acme_*` catches every spelling. -/
theorem trailing_star_catches_every_spelling :
    ∃ compiled, canonicalPattern .pypi "Acme_*".toList = .ok compiled ∧
      ∀ name, isValidName name = true → Reads '*' "Acme_*".toList name →
        compiled.matches (matchKey .pypi name) = true := by
  obtain ⟨compiled, accepted⟩ : ∃ compiled, canonicalPattern .pypi "Acme_*".toList = .ok compiled :=
    ⟨{ literals := ["acme-".toList, []], source := "Acme_*".toList }, by decide⟩
  have free : pinched "Acme_*".toList = false := by decide
  refine ⟨compiled, accepted, fun name valid reads => ?_⟩
  refine (no_spelling_escapes_iff accepted).mpr ?_ name (fun _ => valid) reads
  intro escape
  rw [free] at escape
  cases escape.2.1

/-- `acme-.-lib` reads as `acme-*-lib`, the star standing for the dot, and its key is `acme-lib`. -/
theorem pinched_star_lets_a_spelling_through :
    ∃ compiled, canonicalPattern .pypi "acme-*-lib".toList = .ok compiled ∧
      isValidName "acme-.-lib".toList = true ∧
      Reads '*' "acme-*-lib".toList "acme-.-lib".toList ∧
      compiled.matches (matchKey .pypi "acme-.-lib".toList) = false := by
  refine ⟨{ literals := ["acme-".toList, "-lib".toList], source := "acme-*-lib".toList }, ?_⟩
  refine ⟨by decide, by decide, ?_, by decide⟩
  exact reads_iff_fits.mpr (greedy_iff_fits.mp (by decide))

end OpenCargo.Routing
