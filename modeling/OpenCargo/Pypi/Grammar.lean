/-
Module: OpenCargo.Pypi.Grammar
Purpose: What the cursor over a PEP 440 version reads, against the grammar of PEP 440, Appendix B: a text that
  is accepted is a version of the grammar with the values that were read, unless a dash stands right before a
  number that is no `u64`.
Trusted boundary: none
Main exports: Labelled, Grammar, dashed, parse_reads_grammar_iff
-/
import OpenCargo.Pypi.Version
import OpenCargo.Lib.Numerals

namespace OpenCargo.Pypi

open OpenCargo.Lib (not_digit_of_alpha toNat_of_alpha)
open Scan (value isSeparator isSegment preWords postWords devWords preOf goesOn)

/-! ### The grammar -/

/-- A run of digits and its value. -/
structure Numeral (digits : Text) (n : Nat) : Prop where
  nonempty : digits ≠ []
  digit : ∀ c ∈ digits, c.isDigit = true
  value : value digits = n

inductive Separator : Text → Prop where
  | absent : Separator []
  | sign {c : Char} (separates : isSeparator c = true) : Separator [c]

/-- A label with what separates it, and its number. -/
inductive Labelled (words : List Text) : Text → Text → Option Nat → Prop where
  | bare {before word after : Text} (front : Separator before) (listed : word ∈ words) (back : Separator after) :
      Labelled words (before ++ (word ++ after)) word none
  | numbered {before word after digits : Text} {n : Nat} (front : Separator before) (listed : word ∈ words)
      (back : Separator after) (number : Numeral digits n) :
      Labelled words (before ++ (word ++ (after ++ digits))) word (some n)

inductive Epoch : Text → Nat → Prop where
  | absent : Epoch [] 0
  | written {digits : Text} {n : Nat} (number : Numeral digits n) : Epoch (digits ++ ['!']) n

/-- The numbers of a release after its first. -/
inductive More : Text → List Nat → Prop where
  | nil : More [] []
  | cons {digits rest : Text} {n : Nat} {ns : List Nat} (number : Numeral digits n) (more : More rest ns) :
      More ('.' :: (digits ++ rest)) (n :: ns)

inductive PreRelease : Text → Option Pre → Prop where
  | absent : PreRelease [] none
  | labelled {text word : Text} {n : Option Nat} (label : Labelled preWords text word n) :
      PreRelease text (some (preOf word (n.getD 0)))

inductive PostRelease : Text → Option Nat → Prop where
  | absent : PostRelease [] none
  | implicit {digits : Text} {n : Nat} (number : Numeral digits n) : PostRelease ('-' :: digits) (some n)
  | labelled {text word : Text} {n : Option Nat} (label : Labelled postWords text word n) :
      PostRelease text (some (n.getD 0))

inductive DevRelease : Text → Option Nat → Prop where
  | absent : DevRelease [] none
  | labelled {text word : Text} {n : Option Nat} (label : Labelled devWords text word n) :
      DevRelease text (some (n.getD 0))

inductive Segments : Text → List Text → Prop where
  | one {part : Text} (segment : isSegment part = true) : Segments part [part]
  | more {part rest : Text} {c : Char} {parts : List Text} (segment : isSegment part = true)
      (separates : isSeparator c = true) (others : Segments rest parts) :
      Segments (part ++ c :: rest) (part :: parts)

inductive LocalVersion : Text → List Text → Prop where
  | absent : LocalVersion [] []
  | written {text : Text} {parts : List Text} (segments : Segments text parts) : LocalVersion ('+' :: text) parts

/-- A text in lower case and the version it denotes. -/
inductive Grammar : Text → Pep440 → Prop where
  | mk {v epoch first more pre post dev local_ : Text} {e n : Nat} {ns : List Nat} {p : Option Pre}
      {q d : Option Nat} {parts : List Text} (vee : v = [] ∨ v = ['v']) (epoched : Epoch epoch e)
      (number : Numeral first n) (released : More more ns) (preReleased : PreRelease pre p)
      (postReleased : PostRelease post q) (devReleased : DevRelease dev d) (localized : LocalVersion local_ parts)
      -- the pattern is greedy: a number with a dash after a label is the number of the label
      (greedy : (∃ c ∈ pre.getLast?, c.isAlpha = true) → goesOn '-' post = false) :
      Grammar (v ++ (epoch ++ (first ++ (more ++ (pre ++ (post ++ (dev ++ local_)))))))
        ⟨e, n :: ns, p, q, d, parts⟩

/-! ### What the cursor reads -/

/-- The text does not go on with a digit. -/
def Halts (s : Text) : Prop := ∀ c ∈ s.head?, c.isDigit = false

theorem halts_nil : Halts [] := fun _ mem => by cases mem

theorem halts_cons {c : Char} {s : Text} : Halts (c :: s) ↔ c.isDigit = false := by
  simp [Halts]

theorem halts_dropWhile (s : Text) : Halts (s.dropWhile Char.isDigit) := by
  intro c mem
  have stops := List.head?_dropWhile_not Char.isDigit s
  rw [Option.mem_def.mp mem] at stops
  exact stops

theorem number_halts {s : Text} (halts : Halts s) : Scan.number s = (none, s) := by
  cases s with
  | nil => rfl
  | cons c rest =>
      have stops := halts_cons.mp halts
      rw [Scan.number, List.takeWhile_cons_of_neg (by simp [stops]), List.dropWhile_cons_of_neg (by simp [stops])]
      rfl

theorem number_append {digits rest : Text} {n : Nat} (number : Numeral digits n) (halts : Halts rest) :
    Scan.number (digits ++ rest) = (if n < 2 ^ 64 then some n else none, rest) := by
  have drop : rest.dropWhile Char.isDigit = rest := by
    cases rest with
    | nil => rfl
    | cons c rest => exact List.dropWhile_cons_of_neg (by simp [halts_cons.mp halts])
  have take : rest.takeWhile Char.isDigit = [] := by
    cases rest with
    | nil => rfl
    | cons c rest => exact List.takeWhile_cons_of_neg (by simp [halts_cons.mp halts])
  have nonempty : digits.isEmpty = false := List.isEmpty_eq_false_iff.mpr number.nonempty
  rw [Scan.number, List.takeWhile_append_of_pos number.digit, List.dropWhile_append_of_pos number.digit, drop,
    take, List.append_nil, nonempty, if_neg Bool.false_ne_true, number.value]

theorem number_cases (s : Text) : Halts s ∨
    ∃ digits rest n, Numeral digits n ∧ Halts rest ∧ s = digits ++ rest := by
  by_cases empty : s.takeWhile Char.isDigit = []
  · left
    have whole := List.takeWhile_append_dropWhile (p := Char.isDigit) (l := s)
    rw [empty, List.nil_append] at whole
    rw [← whole]
    exact halts_dropWhile s
  · right
    refine ⟨_, _, _, ⟨empty, ?_, rfl⟩, halts_dropWhile s, List.takeWhile_append_dropWhile.symm⟩
    exact fun c mem => List.mem_takeWhile_imp mem

theorem number_some {s rest : Text} {n : Nat} (read : Scan.number s = (some n, rest)) :
    ∃ digits, s = digits ++ rest ∧ Numeral digits n ∧ n < 2 ^ 64 ∧ Halts rest := by
  rcases number_cases s with halts | ⟨digits, after, m, number, halts, rfl⟩
  · rw [number_halts halts] at read
    cases read
  · rw [number_append number halts] at read
    split at read
    · rename_i small
      cases read
      exact ⟨digits, rfl, number, small, halts⟩
    · cases read

theorem separator_cut (s : Text) : ∃ before, Separator before ∧ s = before ++ Scan.separator s := by
  cases s with
  | nil => exact ⟨[], .absent, rfl⟩
  | cons c rest =>
      rw [Scan.separator]
      split
      · rename_i separates
        exact ⟨[c], .sign separates, rfl⟩
      · exact ⟨[], .absent, rfl⟩

theorem word_some {words : List Text} {s word rest : Text} (read : Scan.word words s = some (word, rest)) :
    word ∈ words ∧ s = word ++ rest := by
  obtain ⟨w, best, same⟩ := Option.map_eq_some_iff.mp read
  cases same
  obtain ⟨listed, starts⟩ := List.mem_filter.mp (List.argmax_mem best)
  obtain ⟨tail, rfl⟩ := List.isPrefixOf_iff_prefix.mp starts
  exact ⟨listed, by rw [List.drop_left]⟩

theorem labelled_some {words : List Text} {s label rest : Text} {n : Option Nat}
    (read : Scan.labelled words s = (some (label, n), rest)) : ∃ text, s = text ++ rest ∧
      Labelled words text label n ∧ (∀ k ∈ n, k < 2 ^ 64 ∧ ∃ c ∈ text.getLast?, c.isDigit = true) ∧
      (n = none → (Scan.number (Scan.separator rest)).1 = none) := by
  obtain ⟨before, front, cut⟩ := separator_cut s
  rw [Scan.labelled] at read
  split at read
  · cases read
  · rename_i word after found
    obtain ⟨listed, spelled⟩ := word_some found
    split at read
    · rename_i k tail numbered
      cases read
      obtain ⟨sign, back, parted⟩ := separator_cut after
      obtain ⟨digits, counted, number, small, _⟩ := number_some numbered
      have last := List.getLast?_eq_some_getLast number.nonempty
      refine ⟨before ++ (label ++ (sign ++ digits)), ?_, .numbered front listed back number, ?_, ?_⟩
      · rw [cut, spelled, parted, counted]
        simp only [List.append_assoc]
      · intro m mem
        cases mem
        refine ⟨small, digits.getLast number.nonempty, ?_, number.digit _ (List.getLast_mem _)⟩
        simp [List.getLast?_append, last]
      · intro absent
        cases absent
    · rename_i left numbered
      cases read
      refine ⟨before ++ (label ++ []), ?_, .bare front listed .absent, ?_, fun _ => ?_⟩
      · rw [cut, spelled, List.append_nil, List.append_assoc]
      · intro k mem
        cases mem
      · rw [numbered]

theorem labelled_none {words : List Text} {s rest : Text} (read : Scan.labelled words s = (none, rest)) :
    rest = s := by
  rw [Scan.labelled] at read
  split at read
  · cases read
    rfl
  · split at read <;> cases read

theorem separator_cases (text : Text) : (∀ c ∈ text, isSeparator c = false) ∨
    ∃ front c rest, text = front ++ c :: rest ∧ (∀ c ∈ front, isSeparator c = false) ∧ isSeparator c = true := by
  induction text with
  | nil => exact .inl fun c mem => absurd mem List.not_mem_nil
  | cons c rest ih =>
      by_cases separates : isSeparator c = true
      · exact .inr ⟨[], c, rest, rfl, fun c mem => absurd mem List.not_mem_nil, separates⟩
      · have first : isSeparator c = false := by simpa using separates
        rcases ih with flat | ⟨front, d, more, rfl, flat, separates⟩
        · exact .inl (List.forall_mem_cons.mpr ⟨first, flat⟩)
        · exact .inr ⟨c :: front, d, more, rfl, List.forall_mem_cons.mpr ⟨first, flat⟩, separates⟩

theorem segments_of_split (text : Text) (segments : (text.splitOnP isSeparator).all isSegment = true) :
    Segments text (text.splitOnP isSeparator) := by
  induction length : text.length using Nat.strong_induction_on generalizing text with
  | _ n ih =>
      rcases separator_cases text with flat | ⟨front, c, rest, rfl, flat, separates⟩
      · rw [List.splitOnP_eq_singleton flat] at segments ⊢
        exact .one (by simpa using segments)
      · rw [List.splitOnP_append_cons_of_forall_mem flat c separates rest] at segments ⊢
        rw [List.all_cons, Bool.and_eq_true] at segments
        have less : rest.length < n := by simp [← length]; omega
        exact .more segments.1 separates (ih _ less rest segments.2 rfl)

/-! ### Numbers that a dash stands before -/

/-- The values of the numbers that a dash stands right before, up to the local part. -/
def dashed : Text → List Nat
  | [] => []
  | c :: rest =>
      if c = '+' then []
      else if goesOn '-' (c :: rest) then value (rest.takeWhile Char.isDigit) :: dashed rest
      else dashed rest

section Dashed

variable {front rest digits text word : Text} {n : Nat}

theorem mem_dashed_append (clear : '+' ∉ front) (mem : n ∈ dashed rest) : n ∈ dashed (front ++ rest) := by
  induction front with
  | nil => exact mem
  | cons c front ih =>
      have other : c ≠ '+' := fun same => clear (same ▸ List.mem_cons_self)
      have later := ih fun mem => clear (List.mem_cons_of_mem _ mem)
      rw [List.cons_append, dashed, if_neg other]
      split
      · exact List.mem_cons_of_mem _ later
      · exact later

theorem goesOn_cons {sign c : Char} (other : c ≠ sign) : goesOn sign (c :: rest) = false := by
  cases rest with
  | nil => rfl
  | cons d rest => simp [goesOn, other]

theorem goesOn_halts {sign c : Char} (halts : Halts rest) : goesOn sign (c :: rest) = false := by
  cases rest with
  | nil => rfl
  | cons d rest => simp [goesOn, halts_cons.mp halts]

theorem goesOn_separator {s : Text} (goes : goesOn '-' s = true) : Scan.separator s = s.drop 1 := by
  cases s with
  | nil => cases goes
  | cons c rest =>
      obtain rfl : c = '-' := by
        by_contra other
        rw [goesOn_cons other] at goes
        cases goes
      rfl

theorem dashed_plain (plain : ∀ c ∈ front, c ≠ '+' ∧ c ≠ '-') : dashed (front ++ rest) = dashed rest := by
  induction front with
  | nil => rfl
  | cons c front ih =>
      obtain ⟨⟨plus, dash⟩, more⟩ := List.forall_mem_cons.mp plain
      rw [List.cons_append, dashed, if_neg plus, goesOn_cons dash, if_neg Bool.false_ne_true, ih more]

theorem dashed_halts {c : Char} (other : c ≠ '+') (halts : Halts rest) : dashed (c :: rest) = dashed rest := by
  rw [dashed, if_neg other, goesOn_halts halts, if_neg Bool.false_ne_true]

theorem Numeral.plain (number : Numeral digits n) : ∀ c ∈ digits, c ≠ '+' ∧ c ≠ '-' := by
  intro c mem
  have digit := number.digit c mem
  constructor <;> rintro rfl <;> exact absurd digit (by decide)

theorem dashed_number (number : Numeral digits n) (halts : Halts rest) :
    dashed ('-' :: (digits ++ rest)) = n :: dashed rest := by
  have goes : goesOn '-' ('-' :: (digits ++ rest)) = true := by
    obtain ⟨d, more, rfl⟩ := List.exists_cons_of_ne_nil number.nonempty
    have digit := number.digit d List.mem_cons_self
    simp [goesOn, digit]
  have take : (digits ++ rest).takeWhile Char.isDigit = digits := by
    rw [List.takeWhile_append_of_pos number.digit]
    cases rest with
    | nil => simp
    | cons c rest => rw [List.takeWhile_cons_of_neg (by simp [halts_cons.mp halts]), List.append_nil]
  rw [dashed, if_neg (by decide), goes, if_pos rfl, take, number.value, dashed_plain number.plain]

theorem Separator.dashed (sep : Separator front) (halts : Halts rest) :
    Pypi.dashed (front ++ rest) = Pypi.dashed rest := by
  cases sep with
  | absent => rfl
  | sign separates =>
      refine dashed_halts ?_ halts
      rintro rfl
      exact absurd separates (by decide)

theorem Separator.halts (sep : Separator front) (halts : Halts rest) : Halts (front ++ rest) := by
  cases sep with
  | absent => exact halts
  | sign separates =>
      refine halts_cons.mpr ?_
      rw [isSeparator, Bool.or_eq_true, Bool.or_eq_true, beq_iff_eq, beq_iff_eq, beq_iff_eq] at separates
      rcases separates with (rfl | rfl) | rfl <;> decide

theorem Separator.dashed_number (sep : Separator front) (number : Numeral digits n) (halts : Halts rest) :
    ∀ k ∈ Pypi.dashed (front ++ (digits ++ rest)), k = n ∨ k ∈ Pypi.dashed rest := by
  intro k mem
  cases sep with
  | absent =>
      rw [List.nil_append, dashed_plain number.plain] at mem
      exact .inr mem
  | @sign c separates =>
      by_cases dash : c = '-'
      · subst dash
        rw [List.singleton_append, Pypi.dashed_number number halts] at mem
        exact List.mem_cons.mp mem
      · have plus : c ≠ '+' := by
          rintro rfl
          exact absurd separates (by decide)
        rw [List.singleton_append, ← List.cons_append, dashed_plain] at mem
        · exact .inr mem
        · exact List.forall_mem_cons.mpr ⟨⟨plus, dash⟩, number.plain⟩

/-- Words that start with no digit and have no sign. -/
def Lettered (words : List Text) : Prop := ∀ word ∈ words, word ≠ [] ∧ ∀ c ∈ word, c.isAlpha = true

theorem lettered : Lettered preWords ∧ Lettered postWords ∧ Lettered devWords := by
  simp [Lettered, preWords, postWords, devWords, Char.isAlpha, Char.isUpper, Char.isLower]

theorem alpha_plain {c : Char} (alpha : c.isAlpha = true) : c ≠ '+' ∧ c ≠ '-' := by
  have large := toNat_of_alpha alpha
  constructor <;> rintro rfl <;> exact absurd large (by decide)

theorem Lettered.plain {words : List Text} (lettered : Lettered words) (listed : word ∈ words) :
    (∀ c ∈ word, c ≠ '+' ∧ c ≠ '-') ∧ ∀ rest, Halts (word ++ rest) := by
  obtain ⟨nonempty, letters⟩ := lettered word listed
  refine ⟨fun c mem => alpha_plain (letters c mem), fun rest => ?_⟩
  obtain ⟨c, more, rfl⟩ := List.exists_cons_of_ne_nil nonempty
  exact halts_cons.mpr (not_digit_of_alpha (letters c List.mem_cons_self))

theorem Labelled.dashed {words : List Text} {number : Option Nat} (lettered : Lettered words)
    (label : Labelled words text word number) (halts : Halts rest) : Halts (text ++ rest) ∧
      ∀ k ∈ Pypi.dashed (text ++ rest), number = some k ∨ k ∈ Pypi.dashed rest := by
  cases label with
  | bare front listed back =>
      obtain ⟨plain, starts⟩ := lettered.plain listed
      rw [List.append_assoc, List.append_assoc]
      refine ⟨front.halts (starts _), fun k mem => ?_⟩
      rw [front.dashed (starts _), dashed_plain plain, back.dashed halts] at mem
      exact .inr mem
  | numbered front listed back number =>
      obtain ⟨plain, starts⟩ := lettered.plain listed
      rw [List.append_assoc, List.append_assoc, List.append_assoc]
      refine ⟨front.halts (starts _), fun k mem => ?_⟩
      rw [front.dashed (starts _), dashed_plain plain] at mem
      rcases back.dashed_number number halts k mem with rfl | mem
      · exact .inl rfl
      · exact .inr mem

end Dashed

/-! ### Every number behind a dash -/

def Pre.number : Pre → Nat
  | .alpha n | .beta n | .rc n => n

@[simp] theorem number_preOf (label : Text) (n : Nat) : (preOf label n).number = n := by
  rw [preOf]
  split
  · rfl
  · split <;> rfl

/-- The numbers of a version. -/
def Pep440.numbers (v : Pep440) : List Nat :=
  v.epoch :: (v.release ++ (v.pre.map Pre.number).toList ++ v.post.toList ++ v.dev.toList)

section Pieces

variable {text rest : Text}

theorem More.plain {ns : List Nat} (more : More text ns) : ∀ c ∈ text, c ≠ '+' ∧ c ≠ '-' := by
  induction more with
  | nil => exact fun c mem => absurd mem List.not_mem_nil
  | cons number _ ih =>
      refine List.forall_mem_cons.mpr ⟨by decide, fun c mem => ?_⟩
      rcases List.mem_append.mp mem with mem | mem
      · exact number.plain c mem
      · exact ih c mem

theorem Epoch.plain {n : Nat} (epoch : Epoch text n) : ∀ c ∈ text, c ≠ '+' ∧ c ≠ '-' := by
  cases epoch with
  | absent => exact fun c mem => absurd mem List.not_mem_nil
  | written number =>
      intro c mem
      rcases List.mem_append.mp mem with mem | mem
      · exact number.plain c mem
      · rw [List.mem_singleton.mp mem]
        decide

theorem vee_plain (start : text = [] ∨ text = ['v']) : ∀ c ∈ text, c ≠ '+' ∧ c ≠ '-' := by
  rcases start with rfl | rfl <;> simp

theorem LocalVersion.dashed {parts : List Text} (localized : LocalVersion text parts) :
    Halts text ∧ Pypi.dashed text = [] := by
  cases localized with
  | absent => exact ⟨halts_nil, rfl⟩
  | written => exact ⟨halts_cons.mpr (by decide), by rw [Pypi.dashed, if_pos rfl]⟩

theorem DevRelease.dashed {d : Option Nat} (dev : DevRelease text d) (halts : Halts rest) :
    Halts (text ++ rest) ∧ ∀ k ∈ Pypi.dashed (text ++ rest), d = some k ∨ k ∈ Pypi.dashed rest := by
  cases dev with
  | absent => exact ⟨halts, fun k mem => .inr mem⟩
  | labelled label =>
      obtain ⟨starts, shown⟩ := label.dashed lettered.2.2 halts
      refine ⟨starts, fun k mem => (shown k mem).imp_left ?_⟩
      rintro rfl
      rfl

theorem PostRelease.dashed {q : Option Nat} (post : PostRelease text q) (halts : Halts rest) :
    Halts (text ++ rest) ∧ ∀ k ∈ Pypi.dashed (text ++ rest), q = some k ∨ k ∈ Pypi.dashed rest := by
  cases post with
  | absent => exact ⟨halts, fun k mem => .inr mem⟩
  | implicit number =>
      refine ⟨halts_cons.mpr (by decide), fun k mem => ?_⟩
      rw [List.cons_append, dashed_number number halts] at mem
      exact (List.mem_cons.mp mem).imp_left fun same => congrArg some same.symm
  | labelled label =>
      obtain ⟨starts, shown⟩ := label.dashed lettered.2.1 halts
      refine ⟨starts, fun k mem => (shown k mem).imp_left ?_⟩
      rintro rfl
      rfl

theorem PreRelease.dashed {p : Option Pre} (pre : PreRelease text p) (halts : Halts rest) :
    ∀ k ∈ Pypi.dashed (text ++ rest), p.map Pre.number = some k ∨ k ∈ Pypi.dashed rest := by
  cases pre with
  | absent => exact fun k mem => .inr mem
  | labelled label =>
      refine fun k mem => ((label.dashed lettered.1 halts).2 k mem).imp_left ?_
      rintro rfl
      simp

end Pieces

theorem Grammar.dashed {text : Text} {v : Pep440} (grammar : Grammar text v) :
    ∀ n ∈ Pypi.dashed text, n ∈ v.numbers := by
  cases grammar with
  | @mk vee epoch first more pre post dev local_ e n ns p q d parts start epoched number released preReleased
      postReleased devReleased localized _ =>
      obtain ⟨localHalts, localShown⟩ := localized.dashed
      obtain ⟨devHalts, devShown⟩ := devReleased.dashed localHalts
      obtain ⟨postHalts, postShown⟩ := postReleased.dashed devHalts
      intro k mem
      rw [dashed_plain (vee_plain start), dashed_plain epoched.plain, dashed_plain number.plain,
        dashed_plain released.plain] at mem
      simp only [Pep440.numbers, List.mem_cons, List.mem_append, Option.mem_toList]
      rcases preReleased.dashed postHalts k mem with same | mem
      · exact .inr (.inl (.inl (.inr same)))
      · rcases postShown k mem with same | mem
        · exact .inr (.inl (.inr same))
        · rcases devShown k mem with same | mem
          · exact .inr (.inr same)
          · rw [localShown] at mem
            exact absurd mem List.not_mem_nil

/-! ### The parse -/

section Parse

variable {s rest text : Text}

theorem Labelled.goesOn {words : List Text} {word : Text} {n : Option Nat} (lettered : Lettered words)
    (label : Labelled words text word n) : goesOn '-' text = false := by
  have starts : ∀ {before word more : Text}, Separator before → word ∈ words →
      Scan.goesOn '-' (before ++ (word ++ more)) = false := by
    intro before word more front listed
    obtain ⟨plain, halts⟩ := lettered.plain listed
    cases front with
    | absent =>
        obtain ⟨c, letters, rfl⟩ := List.exists_cons_of_ne_nil (lettered word listed).1
        exact goesOn_cons (plain c List.mem_cons_self).2
    | sign => exact goesOn_halts (halts more)
  cases label with
  | bare front listed => exact starts front listed
  | numbered front listed => exact starts front listed

theorem Separator.clear (sep : Separator text) : '+' ∉ text := by
  cases sep with
  | absent => exact List.not_mem_nil
  | sign separates =>
      rw [List.mem_singleton]
      rintro rfl
      exact absurd separates (by decide)

theorem Labelled.clear {words : List Text} {word : Text} {n : Option Nat} (lettered : Lettered words)
    (label : Labelled words text word n) : '+' ∉ text := by
  cases label with
  | bare front listed back =>
      simp only [List.mem_append, not_or]
      exact ⟨front.clear, fun mem => ((lettered.plain listed).1 _ mem).1 rfl, back.clear⟩
  | numbered front listed back number =>
      simp only [List.mem_append, not_or]
      exact ⟨front.clear, fun mem => ((lettered.plain listed).1 _ mem).1 rfl, back.clear,
        fun mem => (number.plain _ mem).1 rfl⟩

theorem first_some {e n : Nat} (read : Scan.first s = some (e, n, rest)) : ∃ epoch digits,
    s = epoch ++ (digits ++ rest) ∧ Epoch epoch e ∧ Numeral digits n ∧ e < 2 ^ 64 ∧ n < 2 ^ 64 := by
  rw [Scan.first] at read
  split at read
  · rename_i epoch after written
    obtain ⟨front, rfl, fronted, smallE, _⟩ := number_some written
    split at read
    · rename_i numbered
      cases read
      obtain ⟨digits, rfl, number, small, _⟩ := number_some numbered
      exact ⟨front ++ ['!'], digits, by simp, .written fronted, number, smallE, small⟩
    · cases read
  · rename_i numbered
    cases read
    obtain ⟨digits, rfl, number, small, _⟩ := number_some numbered
    exact ⟨[], digits, rfl, .absent, number, Nat.two_pow_pos 64, small⟩
  · cases read

theorem release_some {turns : Nat} {ns : List Nat} (read : Scan.release turns s = some (ns, rest)) :
    ∃ text, s = text ++ rest ∧ More text ns ∧ ∀ n ∈ ns, n < 2 ^ 64 := by
  induction turns generalizing s ns with
  | zero =>
      cases read
      exact ⟨[], rfl, .nil, fun n mem => absurd mem List.not_mem_nil⟩
  | succ turns ih =>
      rw [Scan.release] at read
      split at read
      · rename_i goes
        split at read
        · rename_i n after numbered
          obtain ⟨⟨more, tail⟩, later, same⟩ := Option.map_eq_some_iff.mp read
          cases same
          obtain ⟨digits, cut, number, small, _⟩ := number_some numbered
          obtain ⟨text, rfl, released, smaller⟩ := ih later
          have dotted : s = '.' :: s.drop 1 := by
            match s, goes with
            | c :: d :: s, goes =>
                rw [goesOn, Bool.and_eq_true, beq_iff_eq] at goes
                rw [goes.1]
                rfl
          refine ⟨'.' :: (digits ++ text), ?_, .cons number released, List.forall_mem_cons.mpr ⟨small, smaller⟩⟩
          rw [dotted, cut]
          simp
        · cases read
      · cases read
        exact ⟨[], rfl, .nil, fun n mem => absurd mem List.not_mem_nil⟩

theorem getD_small {n : Option Nat} (small : ∀ k ∈ n, k < 2 ^ 64) : n.getD 0 < 2 ^ 64 := by
  cases n with
  | none => exact Nat.two_pow_pos 64
  | some n => exact small n rfl

theorem not_alpha_of_digit {c : Char} (digit : c.isDigit = true) : c.isAlpha = false := by
  rw [Bool.eq_false_iff]
  intro alpha
  rw [not_digit_of_alpha alpha] at digit
  cases digit

theorem pre_some {p : Option Pre} (read : Scan.pre s = (p, rest)) : ∃ text, s = text ++ rest ∧ PreRelease text p ∧
    '+' ∉ text ∧ (∀ pre ∈ p, pre.number < 2 ^ 64) ∧
    ((∃ c ∈ text.getLast?, c.isAlpha = true) → (Scan.number (Scan.separator rest)).1 = none) := by
  rw [Scan.pre] at read
  split at read
  · rename_i label n after found
    cases read
    obtain ⟨text, cut, label, numbered, bare⟩ := labelled_some found
    refine ⟨text, cut, .labelled label, label.clear lettered.1, ?_, ?_⟩
    · intro pre mem
      cases mem
      rw [number_preOf]
      exact getD_small fun k mem => (numbered k mem).1
    · rintro ⟨c, last, alpha⟩
      cases n with
      | none => exact bare rfl
      | some n =>
          obtain ⟨_, d, other, digit⟩ := numbered n rfl
          cases last.symm.trans other
          rw [not_alpha_of_digit digit] at alpha
          cases alpha
  · rename_i after absent
    cases read
    rw [labelled_none absent]
    refine ⟨[], rfl, .absent, List.not_mem_nil, ?_, ?_⟩
    · intro pre mem
      cases mem
    · rintro ⟨c, mem, _⟩
      cases mem

theorem dev_some {d : Option Nat} (read : Scan.dev s = (d, rest)) :
    ∃ text, s = text ++ rest ∧ DevRelease text d ∧ ∀ n ∈ d, n < 2 ^ 64 := by
  rw [Scan.dev] at read
  split at read
  · rename_i found
    cases read
    obtain ⟨text, cut, label, numbered, _⟩ := labelled_some found
    refine ⟨text, cut, .labelled label, fun k mem => ?_⟩
    cases mem
    exact getD_small fun k mem => (numbered k mem).1
  · rename_i absent
    cases read
    rw [labelled_none absent]
    refine ⟨[], rfl, .absent, fun n mem => ?_⟩
    cases mem

/-- A post-release, unless a dash stands right before a number that is none; the cursor then goes on after it. -/
theorem post_some {q : Option Nat} (read : Scan.post s = (q, rest)) : (∀ n ∈ q, n < 2 ^ 64) ∧
    ((∃ n ∈ dashed s, 2 ^ 64 ≤ n) ∨ ∃ text, s = text ++ rest ∧ PostRelease text q ∧
      (goesOn '-' text = true → goesOn '-' s = true ∧ (Scan.number (s.drop 1)).1 ≠ none)) := by
  rw [Scan.post] at read
  split at read
  · rename_i goes
    obtain ⟨c, tail, rfl⟩ : ∃ c tail, s = c :: tail := by
      cases s with
      | nil => cases goes
      | cons c tail => exact ⟨c, tail, rfl⟩
    obtain rfl : c = '-' := by
      by_contra other
      rw [goesOn_cons other] at goes
      cases goes
    rw [List.drop_one, List.tail_cons] at read ⊢
    rcases number_cases tail with halts | ⟨digits, after, n, number, halts, rfl⟩
    · rw [goesOn_halts halts] at goes
      cases goes
    · rw [number_append number halts] at read ⊢
      split at read
      · rename_i small
        cases read
        refine ⟨fun k mem => ?_, .inr ⟨'-' :: digits, rfl, .implicit number, fun _ => ⟨goes, ?_⟩⟩⟩
        · cases mem
          exact small
        · rw [if_pos small]
          exact Option.some_ne_none n
      · rename_i large
        cases read
        refine ⟨fun k mem => ?_, .inl ⟨n, ?_, Nat.le_of_not_lt large⟩⟩
        · cases mem
        · rw [dashed_number number halts]
          exact List.mem_cons_self
  · split at read
    · rename_i found
      cases read
      obtain ⟨text, cut, label, numbered, _⟩ := labelled_some found
      refine ⟨fun k mem => ?_, .inr ⟨text, cut, .labelled label, fun goes => ?_⟩⟩
      · cases mem
        exact getD_small fun k mem => (numbered k mem).1
      · rw [label.goesOn lettered.2.1] at goes
        cases goes
    · rename_i absent
      cases read
      rw [labelled_none absent]
      refine ⟨fun k mem => ?_, .inr ⟨[], rfl, .absent, fun goes => ?_⟩⟩
      · cases mem
      · cases goes

theorem local_some {parts : List Text} (read : Scan.localParts s = some (parts, [])) : LocalVersion s parts := by
  rw [Scan.localParts.eq_def] at read
  split at read
  · split at read
    · rename_i segments
      cases read
      exact .written (segments_of_split _ segments)
    · cases read
  · cases read
    exact .absent

end Parse

theorem parse_some_iff {raw : Text} {v : Pep440} : Pep440.parse raw = some v ↔
    ∃ e n ns s₁ s₂ s₃ s₄ s₅, Scan.first (unversioned (lowered raw)) = some (e, n, s₁) ∧
      Scan.release s₁.length s₁ = some (ns, s₂) ∧ Scan.pre s₂ = (v.pre, s₃) ∧ Scan.post s₃ = (v.post, s₄) ∧
      Scan.dev s₄ = (v.dev, s₅) ∧ Scan.localParts s₅ = some (v.local_, []) ∧ v.epoch = e ∧
      v.release = n :: ns := by
  constructor
  · intro read
    obtain ⟨⟨e, n, s₁⟩, started, read⟩ := Option.bind_eq_some_iff.mp read
    obtain ⟨⟨ns, s₂⟩, released, read⟩ := Option.bind_eq_some_iff.mp read
    obtain ⟨⟨parts, rest⟩, localized, read⟩ := Option.bind_eq_some_iff.mp read
    dsimp only at read
    split at read
    · rename_i ended
      cases read
      obtain rfl := List.isEmpty_iff.mp ended
      exact ⟨e, n, ns, s₁, s₂, _, _, _, started, released, rfl, rfl, rfl, localized, rfl, rfl⟩
    · cases read
  · rintro ⟨e, n, ns, s₁, s₂, s₃, s₄, s₅, started, released, pre, post, dev, localized, rfl, release⟩
    obtain ⟨e, release, p, q, d, parts⟩ := v
    cases release
    have left : Scan.dev (Scan.post (Scan.pre s₂).2).2 = (d, s₅) := by rw [pre, post, dev]
    refine Option.bind_eq_some_iff.mpr ⟨_, started, Option.bind_eq_some_iff.mpr ⟨_, released, ?_⟩⟩
    refine Option.bind_eq_some_iff.mpr ⟨(parts, []), ?_, ?_⟩
    · change Scan.localParts (Scan.dev (Scan.post (Scan.pre s₂).2).2).2 = _
      rw [left, localized]
    · change some (⟨e, n :: ns, (Scan.pre s₂).1, (Scan.post (Scan.pre s₂).2).1,
        (Scan.dev (Scan.post (Scan.pre s₂).2).2).1, parts⟩ : Pep440) = _
      rw [left, pre, post]

theorem unversioned_cut (s : Text) : ∃ v, (v = [] ∨ v = ['v']) ∧ s = v ++ unversioned s := by
  rw [unversioned.eq_def]
  split
  · exact ⟨['v'], .inr rfl, rfl⟩
  · exact ⟨[], .inl rfl, rfl⟩

theorem numbers_small {raw : Text} {v : Pep440} (read : Pep440.parse raw = some v) :
    ∀ n ∈ v.numbers, n < 2 ^ 64 := by
  obtain ⟨e, n, ns, s₁, s₂, s₃, s₄, s₅, started, released, pre, post, dev, _, rfl, release⟩ :=
    parse_some_iff.mp read
  obtain ⟨_, _, _, _, _, smallEpoch, smallFirst⟩ := first_some started
  obtain ⟨_, _, _, smallMore⟩ := release_some released
  obtain ⟨_, _, _, _, smallPre, _⟩ := pre_some pre
  obtain ⟨_, _, _, smallDev⟩ := dev_some dev
  intro k mem
  simp only [Pep440.numbers, release, List.mem_cons, List.mem_append, Option.mem_toList,
    Option.map_eq_some_iff] at mem
  rcases mem with rfl | (((rfl | mem) | ⟨p, mem, rfl⟩) | mem) | mem
  · exact smallEpoch
  · exact smallFirst
  · exact smallMore k mem
  · exact smallPre p mem
  · exact (post_some post).1 k mem
  · exact smallDev k mem

/-- What parses is a version of the grammar with the values that were read, unless a dash stands right before a
number that is no `u64`. -/
theorem parse_reads_grammar_iff {raw : Text} {v : Pep440} (read : Pep440.parse raw = some v) :
    Grammar (lowered raw) v ↔ ∀ n ∈ dashed (lowered raw), n < 2 ^ 64 := by
  refine ⟨fun grammar n mem => numbers_small read n (grammar.dashed n mem), fun small => ?_⟩
  obtain ⟨e, n, ns, s₁, s₂, s₃, s₄, s₅, started, released, pre, post, dev, localized, rfl, release⟩ :=
    parse_some_iff.mp read
  obtain ⟨vee, start, cut⟩ := unversioned_cut (lowered raw)
  obtain ⟨epoch, first, rfl', epoched, number, _⟩ := first_some started
  obtain ⟨more, rfl, moreRead, _⟩ := release_some released
  obtain ⟨preText, rfl, preRead, clear, _, bare⟩ := pre_some pre
  obtain ⟨devText, rfl, devRead, _⟩ := dev_some dev
  rw [rfl'] at cut
  have localRead := local_some localized
  have shown : ∀ n ∈ dashed s₃, n < 2 ^ 64 := by
    intro k mem
    apply small
    rw [cut, dashed_plain (vee_plain start), dashed_plain epoched.plain, dashed_plain number.plain,
      dashed_plain moreRead.plain]
    exact mem_dashed_append clear mem
  rcases (post_some post).2 with ⟨k, mem, large⟩ | ⟨postText, rfl, postRead, goes⟩
  · exact absurd (shown k mem) (Nat.not_lt.mpr large)
  · obtain ⟨_, _, p, q, d, parts⟩ := v
    cases release
    rw [cut]
    refine .mk start epoched number moreRead preRead postRead devRead localRead fun last => ?_
    by_contra on
    obtain ⟨before, read⟩ := goes (by simpa using on)
    rw [goesOn_separator before] at bare
    exact read (bare last)

theorem implicit_post_release_reads_grammar :
    Grammar (lowered " 1!1.0-Alpha.1-2.dev3+Ubuntu-1".toList)
      ⟨1, [1, 0], some (.alpha 1), some 2, some 3, ["ubuntu".toList, "1".toList]⟩ :=
  (parse_reads_grammar_iff (by decide)).mpr (by decide)

/-- A post-release that is no `u64` is left out. -/
theorem large_post_release_is_lost : ∃ v, Pep440.parse "1.0-99999999999999999999".toList = some v ∧
    ¬Grammar (lowered "1.0-99999999999999999999".toList) v := by
  refine ⟨⟨0, [1, 0], none, none, none, []⟩, by decide, fun grammar => ?_⟩
  have read := grammar.dashed 99999999999999999999 (by decide)
  exact absurd read (by decide)

end OpenCargo.Pypi
