/-
Module: OpenCargo.Maven.Nulls
Purpose: Which null components of a Maven version the comparison (`registry/maven/version.rs`) ignores: those a
  version ends with, and of the zeros in front of a dash none, unless nothing but null components follows it.
Trusted boundary: none
Main exports: Numeric, zeros, parse_eq_nil_iff, zeros_ignored_iff
-/
import OpenCargo.Maven.Order
import OpenCargo.Maven.Scans
import OpenCargo.Lib.Numerals
import OpenCargo.Lib.Segments

namespace OpenCargo.Maven.Version

open OpenCargo.Lib (intercalate_append_cons toLower_digit)

/-! ### Texts that come to nothing -/

def letter (c : Char) : Prop := c ≠ '.' ∧ c ≠ '-' ∧ c.isDigit = false

/-- The qualifiers of the release itself. -/
def releaseNames : List Text := ["ga".toList, "final".toList, "release".toList]

/-- A text of separators, zeros and names of the release. -/
inductive Null : Text → Prop where
  | nil : Null []
  | separator {c : Char} {rest : Text} (cuts : c = '.' ∨ c = '-') (null : Null rest) : Null (c :: rest)
  | zero {rest : Text} (null : Null rest) : Null ('0' :: rest)
  | release {word rest : Text} (named : word.map Char.toLower ∈ releaseNames) (ends : ∀ c ∈ rest.head?, ¬letter c)
      (null : Null rest) : Null (word ++ rest)

theorem letters_of_named {word : Text} (named : word.map Char.toLower ∈ releaseNames) :
    word ≠ [] ∧ ∀ c ∈ word, letter c := by
  have spelled : ∀ name ∈ releaseNames, name ≠ [] ∧ ∀ c ∈ name, c ≠ '.' ∧ c ≠ '-' ∧ c.isDigit = false := by
    simp [releaseNames, Char.isDigit]
  obtain ⟨some_, plain⟩ := spelled _ named
  refine ⟨fun empty => some_ (by rw [empty]; rfl), fun c mem => ?_⟩
  have lowered := plain _ (List.mem_map_of_mem mem)
  refine ⟨?_, ?_, ?_⟩
  · rintro rfl
    exact lowered.1 rfl
  · rintro rfl
    exact lowered.2.1 rfl
  · by_contra digit
    have digit : c.isDigit = true := by simpa using digit
    rw [toLower_digit digit, digit] at lowered
    cases lowered.2.2

theorem null_separator_iff {c : Char} {rest : Text} (cuts : c = '.' ∨ c = '-') : Null (c :: rest) ↔ Null rest := by
  refine ⟨fun null => ?_, .separator cuts⟩
  generalize whole : c :: rest = text at null
  cases null with
  | nil => cases whole
  | separator _ null =>
      cases whole
      exact null
  | zero null =>
      cases whole
      rcases cuts with same | same <;> cases same
  | @release word rest' named _ _ =>
      obtain ⟨some_, plain⟩ := letters_of_named named
      obtain ⟨d, word, rfl⟩ := List.exists_cons_of_ne_nil some_
      obtain ⟨rfl, _⟩ := List.cons.inj whole
      have own := plain c List.mem_cons_self
      rcases cuts with rfl | rfl
      · exact absurd rfl own.1
      · exact absurd rfl own.2.1

theorem null_digit_iff {c : Char} {rest : Text} (digit : c.isDigit = true) :
    Null (c :: rest) ↔ c = '0' ∧ Null rest := by
  constructor
  · intro null
    generalize whole : c :: rest = text at null
    cases null with
    | nil => cases whole
    | separator cuts null =>
        cases whole
        rcases cuts with rfl | rfl <;> cases digit
    | zero null =>
        cases whole
        exact ⟨rfl, null⟩
    | @release word rest' named _ _ =>
        obtain ⟨some_, plain⟩ := letters_of_named named
        obtain ⟨d, word, rfl⟩ := List.exists_cons_of_ne_nil some_
        obtain ⟨rfl, _⟩ := List.cons.inj whole
        have own := plain c List.mem_cons_self
        rw [own.2.2] at digit
        cases digit
  · rintro ⟨rfl, null⟩
    exact .zero null

theorem letters_inj {word word' rest rest' : Text} (letters : ∀ c ∈ word, letter c) (letters' : ∀ c ∈ word', letter c)
    (ends : ∀ c ∈ rest.head?, ¬letter c) (ends' : ∀ c ∈ rest'.head?, ¬letter c)
    (same : word ++ rest = word' ++ rest') : word = word' ∧ rest = rest' := by
  induction word generalizing word' with
  | nil =>
      cases word' with
      | nil => exact ⟨rfl, same⟩
      | cons c word' =>
          have first : c ∈ rest.head? := by
            rw [show rest = c :: (word' ++ rest') from same]
            rfl
          exact absurd (letters' c List.mem_cons_self) (ends c first)
  | cons c word ih =>
      cases word' with
      | nil =>
          have first : c ∈ rest'.head? := by
            rw [← show c :: (word ++ rest) = rest' from same]
            rfl
          exact absurd (letters c List.mem_cons_self) (ends' c first)
      | cons d word' =>
          obtain ⟨rfl, tails⟩ := List.cons.inj same
          obtain ⟨rfl, rests⟩ := ih (fun e mem => letters e (List.mem_cons_of_mem c mem))
            (fun e mem => letters' e (List.mem_cons_of_mem c mem)) tails
          exact ⟨rfl, rests⟩

theorem null_word_iff {word rest : Text} (some_ : word ≠ []) (letters : ∀ c ∈ word, letter c)
    (ends : ∀ c ∈ rest.head?, ¬letter c) :
    Null (word ++ rest) ↔ word.map Char.toLower ∈ releaseNames ∧ Null rest := by
  constructor
  · intro null
    obtain ⟨c, word, rfl⟩ := List.exists_cons_of_ne_nil some_
    have own := letters c List.mem_cons_self
    generalize whole : c :: word ++ rest = text at null
    cases null with
    | nil => cases whole
    | separator cuts null =>
        cases whole
        rcases cuts with rfl | rfl
        · exact absurd rfl own.1
        · exact absurd rfl own.2.1
    | zero null =>
        cases whole
        cases own.2.2
    | release named ends' null =>
        obtain ⟨rfl, rfl⟩ := letters_inj letters (letters_of_named named).2 ends ends' whole
        exact ⟨named, null⟩
  · rintro ⟨named, null⟩
    exact .release named ends null

/-! ### Versions that come to nothing -/

theorem isNull_stringItem {s : Text} {nextDigit : Bool} (some_ : s ≠ []) :
    isNull (stringItem s nextDigit) = true ↔ s.map Char.toLower ∈ releaseNames := by
  have lowered : s.map Char.toLower ≠ [] := by simpa using some_
  simp only [stringItem]
  generalize s.map Char.toLower = w at lowered
  cases nextDigit <;> split_ifs <;> simp_all [isNull, releaseNames]

theorem isNull_intItem {s : Text} : isNull (intItem s) = true ↔ ∀ c ∈ s, c = '0' := by
  simp [isNull, intItem, List.isEmpty_iff, List.dropWhile_eq_nil_iff]

theorem null_digits_iff {token rest : Text} (digits : ∀ c ∈ token, c.isDigit = true) :
    Null (token ++ rest) ↔ (∀ c ∈ token, c = '0') ∧ Null rest := by
  induction token with
  | nil => simp
  | cons c token ih =>
      rw [List.cons_append, null_digit_iff (digits c List.mem_cons_self),
        ih fun d mem => digits d (List.mem_cons_of_mem c mem), List.forall_mem_cons, and_assoc]

/-- The token is made of digits, or of letters. -/
def Scan.Whole (s : Scan) : Prop := ∀ c ∈ s.token, if s.digit then c.isDigit = true else letter c

/-- What comes next is not a part of the token. -/
def Scan.Cut (s : Scan) (rest : Text) : Prop := ∀ c ∈ rest.head?, s.digit = true ∨ ¬letter c

theorem null_token_iff {s : Scan} {rest : Text} {nextDigit : Bool} (whole : s.Whole) (cut : s.Cut rest) :
    Null (s.token ++ rest) ↔ isNull (component s.token s.digit nextDigit) = true ∧ Null rest := by
  obtain ⟨top, below, token, digit⟩ := s
  cases token with
  | nil => simp [component, isNull]
  | cons c token =>
      cases digit with
      | true =>
          rw [null_digits_iff whole, show component (c :: token) true nextDigit = intItem (c :: token) from rfl,
            isNull_intItem]
      | false =>
          have ends : ∀ d ∈ rest.head?, ¬letter d := fun d mem => (cut d mem).resolve_left Bool.false_ne_true
          rw [null_word_iff (List.cons_ne_nil c token) whole ends,
            show component (c :: token) false nextDigit = stringItem (c :: token) nextDigit from rfl,
            isNull_stringItem (List.cons_ne_nil c token)]

/-- Everything the scan has put into its lists is null. -/
def Scan.Void (s : Scan) : Prop :=
  (∀ item ∈ s.top, isNull item = true) ∧ ∀ items ∈ s.below, ∀ item ∈ items, isNull item = true

theorem normalize_eq_nil {items : List Item} : normalize items = [] ↔ ∀ item ∈ items, isNull item = true :=
  List.rdropWhile_eq_nil_iff

theorem closing_null_iff {below : List (List Item)} {top : List Item} :
    (∀ item ∈ closing below top, isNull item = true) ↔
      (∀ item ∈ top, isNull item = true) ∧ ∀ items ∈ below, ∀ item ∈ items, isNull item = true := by
  induction below generalizing top with
  | nil => simp [closing]
  | cons items below ih =>
      have inner : isNull (.list (normalize top)) = true ↔ ∀ item ∈ top, isNull item = true := by
        rw [isNull, List.isEmpty_iff, normalize_eq_nil]
      rw [closing, List.foldl_cons, ← closing, ih, List.forall_mem_append, List.forall_mem_singleton, inner,
        List.forall_mem_cons]
      tauto

theorem void_push {s : Scan} {nextDigit : Bool} :
    (s.push s.digit nextDigit).Void ↔ s.Void ∧ isNull (component s.token s.digit nextDigit) = true := by
  show (∀ item ∈ s.top ++ [component s.token s.digit nextDigit], _) ∧ _ ↔ _
  rw [List.forall_mem_append, List.forall_mem_singleton, Scan.Void]
  tauto

theorem void_nest {s : Scan} : s.nest.Void ↔ s.Void := by
  show (∀ item ∈ [], _) ∧ (∀ items ∈ s.top :: s.below, _) ↔ _
  rw [List.forall_mem_cons, Scan.Void]
  simp

theorem null_cut_iff {s : Scan} {rest : Text} {nextDigit : Bool} (whole : s.Whole) (cut : s.Cut rest) :
    (s.push s.digit nextDigit).Void ∧ Null rest ↔ s.Void ∧ Null (s.token ++ rest) := by
  rw [void_push, null_token_iff whole cut, and_assoc]

theorem Scan.whole_of_empty {s : Scan} (empty : s.token = []) : s.Whole := by
  intro c mem
  rw [empty] at mem
  cases mem

theorem Scan.Whole.concat {s : Scan} {c : Char} {digit : Bool} (whole : s.Whole)
    (own : if digit then c.isDigit = true else letter c) (same : s.digit = digit ∨ s.token = []) :
    Scan.Whole { s with token := s.token ++ [c], digit := digit } := by
  intro d mem
  rcases List.mem_append.mp mem with old | new
  · rcases same with rfl | empty
    · exact whole d old
    · rw [empty] at old
      cases old
  · rw [List.mem_singleton.mp new]
    exact own

theorem not_letter_of_digit {c : Char} (digit : c.isDigit = true) : ¬letter c := by
  rintro ⟨_, _, plain⟩
  rw [digit] at plain
  cases plain

theorem null_filled_iff {s : Scan} (whole : s.Whole) :
    (∀ item ∈ closing s.below s.filled, isNull item = true) ↔ s.Void ∧ Null s.token := by
  have own : (s.push s.digit false).Void ∧ Null [] ↔ s.Void ∧ Null (s.token ++ []) := null_cut_iff whole nofun
  rw [List.append_nil] at own
  rw [closing_null_iff, ← own, Scan.filled]
  split
  · rename_i empty
    have zero : isNull (component s.token s.digit false) = true := by
      rw [component, if_pos empty]
      rfl
    exact ⟨fun void => ⟨void_push.mpr ⟨void, zero⟩, .nil⟩, fun void => (void_push.mp void.1).1⟩
  · exact ⟨fun void => ⟨void, .nil⟩, fun void => void.1⟩

theorem close_eq_nil_iff {s : Scan} {rest : Text} (whole : s.Whole) :
    (rest.foldl Scan.char s).close = [] ↔ s.Void ∧ Null (s.token ++ rest) := by
  induction rest generalizing s with
  | nil => rw [List.foldl_nil, close_eq, normalize_eq_nil, null_filled_iff whole, List.append_nil]
  | cons c rest ih =>
      rw [List.foldl_cons]
      by_cases dot : c = '.'
      · subst dot
        have cut : s.Cut ('.' :: rest) := by
          intro c mem
          cases mem
          exact .inr fun letter => letter.1 rfl
        have stepped : s.char '.' = s.push s.digit false := rfl
        rw [stepped, ih (Scan.whole_of_empty rfl), ← null_cut_iff whole cut, null_separator_iff (.inl rfl)]
        rfl
      by_cases dash : c = '-'
      · subst dash
        have cut : s.Cut ('-' :: rest) := by
          intro c mem
          cases mem
          exact .inr fun letter => letter.2.1 rfl
        have stepped : s.char '-' = (s.push s.digit false).nest := rfl
        rw [stepped, ih (Scan.whole_of_empty rfl), void_nest, ← null_cut_iff whole cut, null_separator_iff (.inr rfl)]
        rfl
      have joined : s.token ++ c :: rest = s.token ++ [c] ++ rest := by simp
      rw [Scan.char, if_neg dot, if_neg dash]
      by_cases digit : c.isDigit = true
      · rw [if_pos digit]
        split
        · -- a word ends here
          rename_i ends
          obtain ⟨word, _⟩ : s.digit = false ∧ s.token.isEmpty = false := by simpa using ends
          have cut : s.Cut (c :: rest) := by
            intro d mem
            cases mem
            exact .inr (not_letter_of_digit digit)
          have first : Scan.Whole { (s.push false true).nest with token := [] ++ [c], digit := true } :=
            (Scan.whole_of_empty rfl).concat (by simpa using digit) (.inr rfl)
          refine (ih first).trans ?_
          rw [← null_cut_iff whole cut, word]
          exact and_congr_left' void_nest
        · rename_i goes
          have same : s.digit = true ∨ s.token = [] := by simpa [or_iff_not_imp_left] using goes
          rw [ih (whole.concat (by simpa using digit) same), joined]
          rfl
      · have spelled : letter c := ⟨dot, dash, by simpa using digit⟩
        rw [if_neg digit]
        split
        · -- a number ends here
          rename_i ends
          obtain ⟨number, _⟩ : s.digit = true ∧ s.token.isEmpty = false := by simpa using ends
          have cut : s.Cut (c :: rest) := fun d mem => .inl number
          have first : Scan.Whole { (s.push true false).nest with token := [] ++ [c], digit := false } :=
            (Scan.whole_of_empty rfl).concat (by simpa using spelled) (.inr rfl)
          refine (ih first).trans ?_
          rw [← null_cut_iff whole cut, number]
          exact and_congr_left' void_nest
        · rename_i goes
          have same : s.digit = false ∨ s.token = [] := by simpa [or_iff_not_imp_left] using goes
          rw [ih (whole.concat (by simpa using spelled) same), joined]
          rfl

/-- A version is no components at all exactly when it is made of separators, zeros and names of the release. -/
theorem parse_eq_nil_iff {version : Text} : parse version = [] ↔ Null version := by
  have start : Scan.start.Void := by simp [Scan.start, Scan.Void]
  rw [parse, close_eq_nil_iff (Scan.whole_of_empty rfl)]
  exact ⟨And.right, fun null => ⟨start, null⟩⟩

/-! ### Zeros in front of a dash -/

/-- Numbers with dots between them. -/
def Numeric (text : Text) : Prop := ∃ parts, parts ≠ [] ∧ (∀ part ∈ parts, Digits part) ∧ text = dotted parts

/-- So many times `.0`. -/
def zeros (n : Nat) : Text := (List.replicate n ".0".toList).flatten

theorem dotted_zeros {parts : List Text} (some_ : parts ≠ []) (n : Nat) :
    dotted parts ++ zeros n = dotted (parts ++ List.replicate n ['0']) := by
  induction n generalizing parts with
  | zero => simp [zeros]
  | succ n ih =>
      have one : dotted (parts ++ [['0']]) = dotted parts ++ ".0".toList := intercalate_append_cons some_
      calc dotted parts ++ zeros (n + 1)
          = dotted (parts ++ [['0']]) ++ zeros n := by
            rw [one, List.append_assoc]
            rfl
        _ = dotted (parts ++ [['0']] ++ List.replicate n ['0']) := ih (by simp)
        _ = dotted (parts ++ List.replicate (n + 1) ['0']) := by
            rw [List.append_assoc]
            rfl

theorem normalize_concat_null {items : List Item} {item : Item} (null : isNull item = true) :
    normalize (items ++ [item]) = normalize items := List.rdropWhile_concat_pos _ _ _ null

theorem normalize_concat_some {items : List Item} {item : Item} (some_ : ¬isNull item = true) :
    normalize (items ++ [item]) = items ++ [item] := List.rdropWhile_concat_neg _ _ _ some_

theorem normalize_zeros (items : List Item) (n : Nat) :
    normalize (items ++ List.replicate n (.int [])) = normalize items := by
  induction n with
  | zero => simp
  | succ n ih => rw [List.replicate_succ', ← List.append_assoc, normalize_concat_null rfl, ih]

theorem cmpItem_self (item : Item) : cmpItem item item = .eq := by
  have self := cmpLists_self [item]
  rw [cmpLists] at self
  exact (Ordering.then_eq_eq.mp self).1

theorem cmpLists_append (items xs ys : List Item) : cmpLists (items ++ xs) (items ++ ys) = cmpLists xs ys := by
  induction items with
  | nil => rfl
  | cons item items ih =>
      rw [List.cons_append, List.cons_append, cmpLists, cmpItem_self, ih]
      rfl

/-- Zeros are ignored at the end of a version; in front of a dash they are exactly when there are none, or what
follows the dash comes to nothing. -/
theorem zeros_ignored_iff {numbers : Text} (numeric : Numeric numbers) (n : Nat) (suffix : Text) :
    compare (numbers ++ zeros n ++ '-' :: suffix) (numbers ++ '-' :: suffix) = .eq ∧
      compare (numbers ++ zeros n) numbers = .eq ↔ n = 0 ∨ Null suffix := by
  obtain ⟨parts, some_, digits, rfl⟩ := numeric
  have longer : parts ++ List.replicate n ['0'] ≠ [] := by simp [some_]
  have digits' : ∀ part ∈ parts ++ List.replicate n ['0'], Digits part := by
    intro part mem
    rcases List.mem_append.mp mem with old | zero
    · exact digits part old
    · rw [List.eq_of_mem_replicate zero]
      exact ⟨List.cons_ne_nil _ _, by simp⟩
  have items : (parts ++ List.replicate n ['0']).map intItem =
      parts.map intItem ++ List.replicate n (.int []) := by
    rw [List.map_append, List.map_replicate]
    rfl
  rw [dotted_zeros some_, compare, compare, parse_dotted_dash longer digits', parse_dotted_dash some_ digits,
    parse_dotted longer digits', parse_dotted some_ digits, items, normalize_zeros, cmpLists_self,
    and_iff_left rfl, ← parse_eq_nil_iff]
  by_cases nothing : parse suffix = []
  · have null : isNull (.list (parse suffix)) = true := by
      rw [nothing]
      rfl
    rw [normalize_concat_null null, normalize_concat_null null, normalize_zeros, cmpLists_self]
    exact ⟨fun _ => .inr nothing, fun _ => rfl⟩
  · have some_ : ¬isNull (.list (parse suffix)) = true := by simpa [isNull] using nothing
    rw [normalize_concat_some some_, normalize_concat_some some_, List.append_assoc, cmpLists_append]
    cases n with
    | zero => exact ⟨fun _ => .inl rfl, fun _ => cmpLists_self _⟩
    | succ n =>
        -- a zero stands against what follows the dash
        constructor
        · intro same
          cases same
        · rintro (absurd_ | null)
          · cases absurd_
          · exact absurd null nothing

theorem numeric_one : Numeric "1".toList := ⟨["1".toList], by simp, by simp [Digits], rfl⟩

/-- `1.0-Final` is `1-Final`. -/
theorem zeros_before_final :
    compare ("1".toList ++ zeros 1 ++ '-' :: "Final".toList) ("1".toList ++ '-' :: "Final".toList) = .eq ∧
      compare ("1".toList ++ zeros 1) "1".toList = .eq := by
  have named : "Final".toList.map Char.toLower ∈ releaseNames := by decide
  have final : Null ("Final".toList ++ []) := .release named nofun .nil
  exact (zeros_ignored_iff numeric_one 1 "Final".toList).mpr (.inr final)

/-- `1.0-alpha` is above `1-alpha`. -/
theorem zero_before_qualifier : ¬∀ numbers, Numeric numbers → ∀ n suffix,
    compare (numbers ++ zeros n ++ '-' :: suffix) (numbers ++ '-' :: suffix) = .eq ∧
      compare (numbers ++ zeros n) numbers = .eq := by
  intro ignored
  have same := (ignored "1".toList numeric_one 1 "alpha".toList).1
  have above : compare ("1".toList ++ zeros 1 ++ '-' :: "alpha".toList) ("1".toList ++ '-' :: "alpha".toList) = .gt := rfl
  rw [above] at same
  cases same

end OpenCargo.Maven.Version
