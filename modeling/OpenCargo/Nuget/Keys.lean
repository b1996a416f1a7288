/-
Module: OpenCargo.Nuget.Keys
Purpose: The key of a NuGet version against its precedence (`registry/nuget/version.rs`): precedence is a total
  preorder, also on keys; a key reads back as the version it is of unless it is too long; and two versions of one
  precedence have one key unless a numeric label is padded differently in them.
Trusted boundary: none
Main exports: keyLength, parse_key_iff, PaddedApart, key_and_precedence_agree_iff
-/
import OpenCargo.Nuget.Model
import OpenCargo.Lib.Fallible
import OpenCargo.Lib.Numerals
import OpenCargo.Lib.Orders

namespace OpenCargo.Nuget

open OpenCargo.Lib (byReading digit_of_mem_toDigits digit_toLower mapM_eq_some_iff map_intercalate
  mem_intercalate_iff splitOnce splitOnce_append splitOnce_eq_none toLower_digit transCmp_of_part unpadded
  unpadded_inj)

/-! ### Precedence -/

def numeric (label : Text) : Bool := label.all Char.isDigit

def lower (label : Text) : Text := label.map Char.toLower

/-- What a label is compared by: numeric or not, how many digits, and its letters. -/
def significant (label : Text) : Text := if numeric label then unpadded label else lower label

def digits (label : Text) : Nat := if numeric label then (unpadded label).length else 0

theorem compareLabel_eq (a b : Text) : NuGetVersion.compareLabel a b =
    compareLex (compareOn fun label => !numeric label)
      (compareLex (compareOn digits) (compareOn significant)) a b := by
  rw [NuGetVersion.compareLabel]
  split <;> rename_i one two <;> simp [compareLex, compareOn, digits, significant, numeric, one, two]
  all_goals rfl

instance : Std.TransCmp NuGetVersion.compareLabel := by
  have codes : NuGetVersion.compareLabel = compareLex (compareOn fun label => !numeric label)
      (compareLex (compareOn digits) (compareOn significant)) := funext fun a => funext
          fun b => compareLabel_eq a b
  rw [codes]
  infer_instance

/-- Labels that sort alike: numbers of one value, or one text up to case. -/
def Alike (a b : Text) : Prop := numeric a = numeric b ∧ significant a = significant b

instance (a b : Text) : Decidable (Alike a b) := inferInstanceAs (Decidable (_ ∧ _))

theorem compareLabel_eq_iff {a b : Text} : NuGetVersion.compareLabel a b = .eq ↔ Alike a b := by
  rw [compareLabel_eq, compareLex_eq_eq, compareLex_eq_eq]
  simp only [compareOn, Std.LawfulEqCmp.compare_eq_iff_eq, Alike]
  constructor
  · rintro ⟨kind, _, same⟩
    exact ⟨by simpa using kind, same⟩
  · rintro ⟨kind, same⟩
    refine ⟨by rw [kind], ?_, same⟩
    rw [significant, significant, kind] at same
    rw [digits, digits, kind]
    split
    · rename_i counts
      rw [if_pos counts, if_pos counts] at same
      rw [same]
    · rfl

theorem compareRelease_eq (as bs : List Text) :
    NuGetVersion.compareRelease as bs = List.compareLex NuGetVersion.compareLabel as bs := by
  induction as generalizing bs with
  | nil => cases bs <;> rfl
  | cons a as ih =>
      cases bs with
      | nil => rfl
      | cons b bs => rw [NuGetVersion.compareRelease, List.compareLex_cons_cons, ih]

theorem cmp_eq (x y : NuGetVersion) : x.cmp y = compareLex (compareOn NuGetVersion.numbers)
    (compareLex (compareOn fun v : NuGetVersion => v.release.isEmpty)
      fun a b => List.compareLex NuGetVersion.compareLabel a.release b.release) x y := by
  rw [NuGetVersion.cmp, compareLex, compareLex, compareOn]
  congr 1
  obtain ⟨_, releaseX, _⟩ := x
  obtain ⟨_, releaseY, _⟩ := y
  cases releaseX with
  | nil => cases releaseY <;> rfl
  | cons a as =>
      cases releaseY with
      | nil => rfl
      | cons b bs => exact compareRelease_eq _ _

instance : Std.TransCmp NuGetVersion.cmp := by
  have codes : NuGetVersion.cmp = compareLex (compareOn NuGetVersion.numbers)
      (compareLex (compareOn fun v : NuGetVersion => v.release.isEmpty)
        fun a b => List.compareLex NuGetVersion.compareLabel a.release b.release) :=
    funext fun x => funext fun y => cmp_eq x y
  have releases : Std.TransCmp fun a b : NuGetVersion =>
      List.compareLex NuGetVersion.compareLabel a.release b.release := transCmp_of_part NuGetVersion.release
  rw [codes]
  infer_instance

theorem compareLex_eq_iff {as bs : List Text} :
    List.compareLex NuGetVersion.compareLabel as bs = .eq ↔ List.Forall₂ Alike as bs := by
  induction as generalizing bs with
  | nil => cases bs <;> simp [List.compareLex_nil_nil, List.compareLex_nil_cons]
  | cons a as ih =>
      cases bs with
      | nil => simp [List.compareLex_cons_nil]
      | cons b bs => rw [List.compareLex_cons_cons, Ordering.then_eq_eq, compareLabel_eq_iff, ih,
          List.forall₂_cons]

theorem cmp_eq_iff {x y : NuGetVersion} :
    x.cmp y = .eq ↔ x.numbers = y.numbers ∧ List.Forall₂ Alike x.release y.release := by
  rw [cmp_eq, compareLex_eq_eq, compareLex_eq_eq, compareLex_eq_iff]
  simp only [compareOn, Std.LawfulEqCmp.compare_eq_iff_eq]
  refine and_congr_right fun _ => ⟨And.right, fun alike => ⟨?_, alike⟩⟩
  rw [Bool.eq_iff_iff, List.isEmpty_iff_length_eq_zero, List.isEmpty_iff_length_eq_zero, alike.length_eq]

theorem compareKeys_eq : compareKeys = byReading NuGetVersion.parse NuGetVersion.cmp compare := by
  funext a b
  rw [compareKeys, byReading]
  cases NuGetVersion.parse a <;> cases NuGetVersion.parse b <;> rfl

instance : Std.TransCmp compareKeys := by
  rw [compareKeys_eq]
  infer_instance

/-! ### What a version that parses is made of -/

/-- Four numbers of 64 bits, and labels of letters, digits and dashes. -/
structure Parsed (x : NuGetVersion) : Prop where
  four : x.numbers.length = 4
  small : ∀ n ∈ x.numbers, n < 2 ^ 64
  labels : ∀ label ∈ x.release, isLabel label = true

theorem parseNumber_some {s : Text} {n : Nat} (read : parseNumber s = some n) : n < 2 ^ 64 := by
  rw [parseNumber] at read
  split at read
  · cases read
  · dsimp only at read
    split at read
    · cases read
      assumption
    · cases read

/-- Build metadata, told from what stands before it. -/
def cutMetadata (raw : Text) : Option (Text × Option Text) :=
  match splitOnce '+' raw with
  | some (rest, label) => if (label.splitOn '.').all isLabel then some (rest, some label) else none
  | none => some (raw, none)

/-- The release labels, told from the numbers. -/
def cutRelease (rest : Text) : Option (Text × List Text) :=
  match splitOnce '-' rest with
  | some (core, labels) => if (labels.splitOn '.').all isLabel then some (core, labels.splitOn '.') else none
  | none => some (rest, [])

def readNumbers (core : Text) : Option (List Nat) :=
  let parts := core.splitOn '.'
  if parts.length < 2 || 4 < parts.length then none
  else (parts.mapM parseNumber).map fun numbers => numbers ++ List.replicate (4 - numbers.length) 0

/-- What is read of the text before the build metadata. -/
def parseRest (rest : Text) (metadata : Option Text) : Option NuGetVersion := do
  let (core, release) ← match splitOnce '-' rest with
    | some (core, labels) => if (labels.splitOn '.').all isLabel then some (core, labels.splitOn '.') else none
    | none => some (rest, [])
  let parts := core.splitOn '.'
  if parts.length < 2 || 4 < parts.length then none
  let numbers ← parts.mapM parseNumber
  return ⟨numbers ++ List.replicate (4 - numbers.length) 0, release, metadata⟩

theorem parseRest_eq (rest : Text) (metadata : Option Text) : parseRest rest metadata =
    (cutRelease rest).bind fun cut => (readNumbers cut.1).map fun numbers => ⟨numbers, cut.2, metadata⟩ := by
  have numbered (core : Text) (release : List Text) :
      (do if (core.splitOn '.').length < 2 || 4 < (core.splitOn '.').length then none
          let numbers ← (core.splitOn '.').mapM parseNumber
          return (⟨numbers ++ List.replicate (4 - numbers.length) 0, release, metadata⟩ : NuGetVersion)) =
        (readNumbers core).map fun numbers => ⟨numbers, release, metadata⟩ := by
    rw [readNumbers]
    dsimp only
    split
    · rfl
    · cases (core.splitOn '.').mapM parseNumber <;> rfl
  rw [parseRest, cutRelease]
  split
  · split
    · exact numbered _ _
    · rfl
  · exact numbered _ _

theorem parse_eq (raw : Text) : NuGetVersion.parse raw =
    if raw.isEmpty || decide (maxLen < raw.length) then none
    else (cutMetadata raw).bind fun cut => (cutRelease cut.1).bind fun core =>
      (readNumbers core.1).map fun numbers => ⟨numbers, core.2, cut.2⟩ := by
  rw [NuGetVersion.parse]
  split
  · rfl
  · rw [cutMetadata]
    cases splitOnce '+' raw with
    | none => exact parseRest_eq _ _
    | some cut =>
        dsimp only
        split
        · exact parseRest_eq _ _
        · rfl

theorem readNumbers_some {core : Text} {numbers : List Nat} (read : readNumbers core = some numbers) :
    numbers.length = 4 ∧ ∀ n ∈ numbers, n < 2 ^ 64 := by
  rw [readNumbers] at read
  split at read
  · cases read
  · rename_i few
    obtain ⟨shown, listed, rfl⟩ := Option.map_eq_some_iff.mp read
    have each := mapM_eq_some_iff.mp listed
    have long := each.length_eq
    simp only [Bool.or_eq_true, decide_eq_true_eq, not_or, Nat.not_lt] at few
    have small : ∀ n ∈ shown, n < 2 ^ 64 := by
      clear read listed long few
      generalize core.splitOn '.' = parts at each
      induction each with
      | nil => exact fun n mem => absurd mem List.not_mem_nil
      | cons first _ ih => exact List.forall_mem_cons.mpr ⟨parseNumber_some first, ih⟩
    refine ⟨by simp; omega, fun n mem => ?_⟩
    rcases List.mem_append.mp mem with mem | mem
    · exact small n mem
    · rw [List.eq_of_mem_replicate mem]
      exact Nat.two_pow_pos 64

theorem parsed {raw : Text} {x : NuGetVersion} (read : NuGetVersion.parse raw = some x) : Parsed x := by
  rw [parse_eq] at read
  split at read
  · cases read
  · obtain ⟨⟨rest, metadata⟩, _, read⟩ := Option.bind_eq_some_iff.mp read
    obtain ⟨⟨core, release⟩, released, read⟩ := Option.bind_eq_some_iff.mp read
    obtain ⟨numbers, numbered, rfl⟩ := Option.map_eq_some_iff.mp read
    obtain ⟨four, small⟩ := readNumbers_some numbered
    refine ⟨four, small, ?_⟩
    rw [cutRelease] at released
    split at released
    · split at released
      · rename_i all
        cases released
        exact fun label mem => List.all_eq_true.mp all label mem
      · cases released
    · cases released
      exact fun label mem => absurd mem List.not_mem_nil

/-! ### The key, and what it reads as -/

/-- The numbers that a key shows. -/
def shown (x : NuGetVersion) : List Nat := if x.numbers.getD 3 0 = 0 then x.numbers.take 3 else x.numbers

def joined (numbers : List Nat) : Text := ['.'].intercalate (numbers.map (Nat.toDigits 10))

/-- Numbers and labels as a text. -/
def spelled (numbers : List Nat) (labels : List Text) : Text :=
  joined numbers ++ if labels.isEmpty then [] else '-' :: ['.'].intercalate labels

theorem normal_eq (x : NuGetVersion) : x.normal = spelled (shown x) x.release := by
  rw [NuGetVersion.normal, spelled, NuGetVersion.isPrerelease, joined, shown]
  cases x.release <;> rfl

theorem lower_number (n : Nat) : lower (Nat.toDigits 10 n) = Nat.toDigits 10 n := by
  rw [lower, List.map_congr_left fun c mem => toLower_digit (digit_of_mem_toDigits mem), List.map_id']

theorem lower_spelled (numbers : List Nat) (labels : List Text) :
    lower (spelled numbers labels) = spelled numbers (labels.map lower) := by
  have digits : (numbers.map (Nat.toDigits 10)).map lower = numbers.map (Nat.toDigits 10) := by
    rw [List.map_map]
    exact List.map_congr_left fun n _ => lower_number n
  rw [spelled, spelled, joined, lower, List.map_append, map_intercalate]
  change ['.'].intercalate ((numbers.map (Nat.toDigits 10)).map lower) ++ _ = _
  rw [digits]
  congr 1
  cases labels with
  | nil => rfl
  | cons label rest =>
      change '-'.toLower :: (['.'].intercalate (label :: rest)).map Char.toLower = _
      rw [map_intercalate]
      rfl

theorem key_eq (x : NuGetVersion) : x.key = spelled (shown x) (x.release.map lower) := by
  rw [NuGetVersion.key, normal_eq]
  exact lower_spelled _ _

theorem isLabel_iff {s : Text} :
    isLabel s = true ↔ s ≠ [] ∧ ∀ c ∈ s, c.isAlphanum = true ∨ c = '-' := by
  simp [isLabel, List.all_eq_true]

theorem isLabel_lower {s : Text} (label : isLabel s = true) : isLabel (lower s) = true := by
  obtain ⟨nonempty, plain⟩ := isLabel_iff.mp label
  refine isLabel_iff.mpr ⟨by simpa [lower] using nonempty, fun c mem => ?_⟩
  obtain ⟨d, inside, rfl⟩ := List.mem_map.mp mem
  rcases plain d inside with alphanum | rfl
  · left
    rw [Char.isAlphanum, Char.isAlpha_toLower_eq_isAlpha]
    rcases Bool.or_eq_true _ _ ▸ alphanum with alpha | digit
    · rw [alpha, Bool.true_or]
    · rw [toLower_digit digit, digit, Bool.or_true]
  · exact .inr rfl

theorem not_mem_joined {numbers : List Nat} {c : Char} (other : c ≠ '.') (sign : c.isDigit = false) :
    c ∉ joined numbers := by
  intro mem
  obtain ⟨part, mem, inside⟩ := (mem_intercalate_iff other).mp mem
  obtain ⟨n, _, rfl⟩ := List.mem_map.mp mem
  rw [digit_of_mem_toDigits inside] at sign
  cases sign

theorem not_mem_label {s : Text} {c : Char} (label : isLabel s = true) (other : c ≠ '-')
    (sign : c.isAlphanum = false) : c ∉ s := by
  intro mem
  rcases (isLabel_iff.mp label).2 c mem with alphanum | dash
  · rw [alphanum] at sign
    cases sign
  · exact other dash

section Spelled

variable {numbers : List Nat} {labels : List Text}

theorem cutMetadata_spelled (plain : ∀ label ∈ labels, isLabel label = true) :
    cutMetadata (spelled numbers labels) = some (spelled numbers labels, none) := by
  have clear : '+' ∉ spelled numbers labels := by
    intro mem
    rcases List.mem_append.mp mem with mem | mem
    · exact not_mem_joined (by decide) (by decide) mem
    · split at mem
      · cases mem
      · rcases List.mem_cons.mp mem with same | mem
        · cases same
        · obtain ⟨label, listed, mem⟩ := (mem_intercalate_iff (by decide)).mp mem
          exact not_mem_label (plain label listed) (by decide) (by decide) mem
  rw [cutMetadata, splitOnce_eq_none clear]

theorem cutRelease_spelled (plain : ∀ label ∈ labels, isLabel label = true) :
    cutRelease (spelled numbers labels) = some (joined numbers, labels) := by
  have dashless : '-' ∉ joined numbers := not_mem_joined (by decide) (by decide)
  rw [cutRelease, spelled]
  cases labels with
  | nil =>
      rw [List.isEmpty_nil, if_pos rfl, List.append_nil, splitOnce_eq_none dashless]
  | cons label rest =>
      have dotless : ∀ part ∈ label :: rest, '.' ∉ part := fun part mem =>
        not_mem_label (plain part mem) (by decide) (by decide)
      have apart := List.splitOn_intercalate '.' dotless (List.cons_ne_nil _ _)
      rw [List.isEmpty_cons, if_neg Bool.false_ne_true, splitOnce_append dashless]
      dsimp only
      rw [apart, if_pos (List.all_eq_true.mpr plain)]

theorem parseNumber_digits {n : Nat} (small : n < 2 ^ 64) : parseNumber (Nat.toDigits 10 n) = some n := by
  have nonempty : (Nat.toDigits 10 n).isEmpty = false := List.isEmpty_eq_false_iff.mpr Nat.toDigits_ne_nil
  have counts : (Nat.toDigits 10 n).all Char.isDigit = true := List.all_eq_true.mpr
      fun c mem => digit_of_mem_toDigits mem
  rw [parseNumber, nonempty, counts, Bool.not_true, Bool.or_false, if_neg Bool.false_ne_true]
  dsimp only
  rw [Nat.ofDigitChars_toDigits (by decide) (by decide), if_pos small]

theorem readNumbers_joined (least : 2 ≤ numbers.length) (most : numbers.length ≤ 4)
    (small : ∀ n ∈ numbers, n < 2 ^ 64) :
    readNumbers (joined numbers) = some (numbers ++ List.replicate (4 - numbers.length) 0) := by
  have dotless : ∀ part ∈ numbers.map (Nat.toDigits 10), '.' ∉ part := by
    intro part mem inside
    obtain ⟨n, _, rfl⟩ := List.mem_map.mp mem
    exact absurd (digit_of_mem_toDigits inside) (by decide)
  have some_ : numbers.map (Nat.toDigits 10) ≠ [] := by
    intro empty
    rw [List.map_eq_nil_iff.mp empty] at least
    exact absurd least (by decide)
  have each : (numbers.map (Nat.toDigits 10)).mapM parseNumber = some numbers := by
    rw [mapM_eq_some_iff, List.forall₂_map_left_iff, List.forall₂_same]
    exact fun n mem => parseNumber_digits (small n mem)
  rw [readNumbers, joined, List.splitOn_intercalate '.' dotless some_, each]
  simp
  omega

theorem parse_spelled (least : 2 ≤ numbers.length) (most : numbers.length ≤ 4) (small : ∀ n ∈ numbers, n < 2 ^ 64)
    (plain : ∀ label ∈ labels, isLabel label = true) : NuGetVersion.parse (spelled numbers labels) =
      if maxLen < (spelled numbers labels).length then none
      else some ⟨numbers ++ List.replicate (4 - numbers.length) 0, labels, none⟩ := by
  have nonempty : (spelled numbers labels).isEmpty = false := by
    rw [List.isEmpty_eq_false_iff]
    intro empty
    have read := readNumbers_joined least most small
    rw [(List.append_eq_nil_iff.mp empty).1] at read
    cases read
  rw [parse_eq, nonempty, Bool.false_or, cutMetadata_spelled plain]
  simp only [decide_eq_true_eq, Option.bind_some]
  rw [cutRelease_spelled plain]
  simp only [Option.bind_some]
  rw [readNumbers_joined least most small, Option.map_some]

end Spelled

section Key

variable {x y : NuGetVersion}

theorem Parsed.shown (parsed : Parsed x) : 2 ≤ (shown x).length ∧ (shown x).length ≤ 4 ∧
    (∀ n ∈ shown x, n < 2 ^ 64) ∧ shown x ++ List.replicate (4 - (shown x).length) 0 = x.numbers := by
  obtain ⟨major, minor, patch, revision, same⟩ :
      ∃ major minor patch revision, x.numbers = [major, minor, patch, revision] := by
    obtain ⟨four, _, _⟩ := parsed
    match x.numbers, four with
    | [major, minor, patch, revision], _ => exact ⟨major, minor, patch, revision, rfl⟩
  have small := parsed.small
  rw [Nuget.shown]
  rw [same] at small ⊢
  split
  · rename_i zero
    obtain rfl : revision = 0 := zero
    exact ⟨by simp, by simp, fun n mem => small n (List.mem_of_mem_take mem), rfl⟩
  · exact ⟨by simp, by simp, small, rfl⟩

theorem Parsed.lower (parsed : Parsed x) : ∀ label ∈ x.release.map lower, isLabel label = true := by
  intro label mem
  obtain ⟨word, listed, rfl⟩ := List.mem_map.mp mem
  exact isLabel_lower (parsed.labels word listed)

/-- Unless it is too long, a key reads as the version it is of, in lower case and without metadata. -/
theorem parse_key (parsed : Parsed x) : NuGetVersion.parse x.key =
    if maxLen < x.key.length then none else some ⟨x.numbers, x.release.map lower, none⟩ := by
  obtain ⟨least, most, small, filled⟩ := parsed.shown
  rw [key_eq, parse_spelled least most small parsed.lower, filled]

theorem key_eq_iff (parsedX : Parsed x) (parsedY : Parsed y) :
    x.key = y.key ↔ x.numbers = y.numbers ∧ x.release.map lower = y.release.map lower := by
  rw [key_eq, key_eq]
  constructor
  · intro same
    obtain ⟨leastX, mostX, smallX, filledX⟩ := parsedX.shown
    obtain ⟨leastY, mostY, smallY, filledY⟩ := parsedY.shown
    have cut := congrArg cutRelease same
    rw [cutRelease_spelled parsedX.lower, cutRelease_spelled parsedY.lower, Option.some_inj, Prod.mk.injEq] at cut
    have numbers := congrArg readNumbers cut.1
    rw [readNumbers_joined leastX mostX smallX, readNumbers_joined leastY mostY smallY, filledX,
      filledY] at numbers
    exact ⟨Option.some_inj.mp numbers, cut.2⟩
  · rintro ⟨numbers, labels⟩
    rw [shown, shown, numbers, labels]

/-- The characters of a key, each number and each label with the sign before the next one. -/
def keyLength (x : NuGetVersion) : Nat :=
  ((shown x).map fun n => (Nat.toDigits 10 n).length + 1).sum + (x.release.map
      fun label => label.length + 1).sum - 1

theorem length_key (parsed : Parsed x) : x.key.length = keyLength x := by
  have some_ : (shown x).map (Nat.toDigits 10) ≠ [] := by
    intro empty
    have least := parsed.shown.1
    rw [List.map_eq_nil_iff.mp empty] at least
    exact absurd least (by decide)
  have numbers : (['.'].intercalate ((shown x).map (Nat.toDigits 10))).length + 1 = _ := Lib.length_intercalate some_
  rw [List.map_map, Function.comp_def] at numbers
  rw [NuGetVersion.key, List.length_map, normal_eq, spelled, keyLength, joined, List.length_append, ← numbers]
  cases x.release with
  | nil => rfl
  | cons label rest =>
      rw [List.isEmpty_cons, if_neg Bool.false_ne_true, List.length_cons,
        Lib.length_intercalate (List.cons_ne_nil label rest), Nat.add_right_comm _ 1,
        Nat.add_sub_cancel]

theorem lower_lower (labels : List Text) : (labels.map lower).map lower = labels.map lower := by
  rw [List.map_map]
  refine List.map_congr_left fun label _ => ?_
  rw [Function.comp_apply, lower, lower, List.map_map]
  exact List.map_congr_left fun c _ => Char.toLower_toLower_eq_toLower c

theorem parse_key_iff (parsed : Parsed x) :
    (∃ z, NuGetVersion.parse x.key = some z ∧ z.key = x.key) ↔ keyLength x ≤ maxLen := by
  rw [parse_key parsed, length_key parsed]
  constructor
  · rintro ⟨z, read, _⟩
    split at read
    · cases read
    · exact Nat.le_of_not_lt ‹_›
  · intro fits
    rw [if_neg (Nat.not_lt.mpr fits)]
    refine ⟨_, rfl, ?_⟩
    rw [key_eq, key_eq, lower_lower]
    rfl

/-! ### Labels padded apart -/

theorem numeric_lower (label : Text) : numeric (lower label) = numeric label := by
  rw [numeric, lower, List.all_map, numeric]
  exact congrArg label.all (funext digit_toLower)

theorem lower_numeric {label : Text} (counts : numeric label = true) : lower label = label := by
  rw [lower, List.map_congr_left fun c mem => toLower_digit (List.all_eq_true.mp counts c mem), List.map_id']

/-- Labels that sort alike differ in a key when they are numbers, padded to different lengths. -/
theorem Alike.lower_iff {a b : Text} (alike : Alike a b) :
    lower a = lower b ↔ (numeric a = true → a.length = b.length) := by
  obtain ⟨kind, same⟩ := alike
  rw [significant, significant, ← kind] at same
  by_cases counts : numeric a = true
  · rw [if_pos counts, if_pos counts] at same
    rw [lower_numeric counts, lower_numeric (kind ▸ counts)]
    exact ⟨fun same _ => congrArg List.length same, fun long => unpadded_inj same (long counts)⟩
  · rw [if_neg counts, if_neg counts] at same
    exact ⟨fun _ yes => absurd yes counts, fun _ => same⟩

theorem alike_of_lower {a b : Text} (same : lower a = lower b) : Alike a b := by
  have kind : numeric a = numeric b := by rw [← numeric_lower, same, numeric_lower]
  refine ⟨kind, ?_⟩
  rw [significant, significant, ← kind]
  split
  · rename_i counts
    rw [lower_numeric counts, lower_numeric (kind ▸ counts)] at same
    rw [same]
  · exact same

/-- Versions that differ only in the zeros before their numeric labels, and do differ there. -/
def PaddedApart (x y : NuGetVersion) : Prop :=
  x.numbers = y.numbers ∧ List.Forall₂ Alike x.release y.release ∧
    ∃ pair ∈ x.release.zip y.release, numeric pair.1 = true ∧ pair.1.length ≠ pair.2.length

instance (x y : NuGetVersion) : Decidable (PaddedApart x y) := inferInstanceAs (Decidable (_ ∧ _ ∧ _))

theorem map_lower_iff {as bs : List Text} (alike : List.Forall₂ Alike as bs) :
    as.map lower = bs.map lower ↔ ¬∃ pair ∈ as.zip bs, numeric pair.1 = true ∧ pair.1.length ≠ pair.2.length := by
  induction alike with
  | nil => simp
  | cons first _ ih =>
      rw [List.map_cons, List.map_cons, List.cons.injEq, ih, first.lower_iff]
      simp [List.zip_cons_cons]

theorem forall₂_alike_of_lower {as bs : List Text} (same : as.map lower = bs.map lower) :
    List.Forall₂ Alike as bs := by
  have all : List.Forall₂ (fun a b => lower a = lower b) as bs := by
    rw [← List.forall₂_eq_eq_eq, List.forall₂_map_left_iff, List.forall₂_map_right_iff] at same
    exact same
  exact all.imp fun _ _ => alike_of_lower

/-- A key tells versions apart as precedence does, unless numeric labels are padded apart; a key is a version of
that key, unless it is too long; and precedence is a total preorder on keys. -/
theorem key_and_precedence_agree_iff {a b : Text} (readA : NuGetVersion.parse a = some x)
    (readB : NuGetVersion.parse b = some y) :
    ((x.key = y.key ↔ x.cmp y = .eq) ∧ (∃ z, NuGetVersion.parse x.key = some z ∧ z.key = x.key) ∧
        Std.TransCmp compareKeys) ↔ ¬PaddedApart x y ∧ keyLength x ≤ maxLen := by
  have parsedX := parsed readA
  have parsedY := parsed readB
  have agree : (x.key = y.key ↔ x.cmp y = .eq) ↔ ¬PaddedApart x y := by
    rw [key_eq_iff parsedX parsedY, cmp_eq_iff, PaddedApart]
    constructor
    · rintro same ⟨numbers, alike, apart⟩
      exact (map_lower_iff alike).mp (same.mpr ⟨numbers, alike⟩).2 apart
    · intro together
      constructor
      · rintro ⟨numbers, labels⟩
        exact ⟨numbers, forall₂_alike_of_lower labels⟩
      · rintro ⟨numbers, alike⟩
        exact ⟨numbers, (map_lower_iff alike).mpr fun apart => together ⟨numbers, alike, apart⟩⟩
  rw [agree, parse_key_iff parsedX]
  exact and_congr_right fun _ => and_iff_left inferInstance

theorem key_and_precedence_agree_on_releases :
    (NuGetVersion.key ⟨[1, 0, 0, 0], ["RC".toList], none⟩ = NuGetVersion.key ⟨[1, 0, 0, 0], ["rc".toList], none⟩ ↔
        NuGetVersion.cmp ⟨[1, 0, 0, 0], ["RC".toList], none⟩ ⟨[1, 0, 0, 0], ["rc".toList], none⟩ = .eq) ∧
      (∃ z, NuGetVersion.parse (NuGetVersion.key ⟨[1, 0, 0, 0], ["RC".toList], none⟩) = some z ∧
        z.key = NuGetVersion.key ⟨[1, 0, 0, 0], ["RC".toList], none⟩) ∧ Std.TransCmp compareKeys :=
  (key_and_precedence_agree_iff (a := "1.0-RC".toList) (b := "1.0.0-rc".toList) (by decide) (by decide)).mpr
    ⟨by decide, by decide⟩

/-- One precedence with two keys: a zero before a numeric label. -/
theorem padded_label_has_another_key :
    ∃ x y, NuGetVersion.parse "1.0.0-01".toList = some x ∧ NuGetVersion.parse "1.0.0-1".toList = some y ∧
      ¬(x.key = y.key ↔ x.cmp y = .eq) :=
  ⟨⟨[1, 0, 0, 0], ["01".toList], none⟩, ⟨[1, 0, 0, 0], ["1".toList], none⟩, by decide, by decide, by decide⟩

end Key

end OpenCargo.Nuget
