/-
Module: OpenCargo.Pypi.Canonical
Purpose: The printed form of a PEP 440 version (`registry/pypi/version.rs`): it reads back as the version it is of;
  and versions that sort alike have one canonical form, unless a numeric local segment is padded differently.
Trusted boundary: none
Main exports: parse_render, canonical_eq_iff, PaddedApart, canonical_and_order_agree_iff
-/
import OpenCargo.Pypi.Grammar
import OpenCargo.Pypi.Order
import OpenCargo.Lib.Segments

namespace OpenCargo.Pypi

open OpenCargo.Lib (digit_of_mem_toDigits toLower_digit not_digit_of_alpha mem_intercalate_iff)
open Pep440 (number renderPre renderNumber)
open Scan (isSeparator isSegment goesOn preWords postWords devWords)

/-! ### Labels and numbers that are printed -/

section Printed

variable {words : List Text} {label before digits rest : Text} {n : Nat}

theorem numeral (n : Nat) : Numeral (number n) n where
  nonempty := Nat.toDigits_ne_nil
  digit _ mem := digit_of_mem_toDigits mem
  value := Nat.ofDigitChars_toDigits (by decide) (by decide)

theorem not_separator_of_digit {c : Char} (digit : c.isDigit = true) : isSeparator c = false := by
  rw [Bool.eq_false_iff]
  intro separates
  simp only [isSeparator, Bool.or_eq_true, beq_iff_eq] at separates
  rcases separates with (rfl | rfl) | rfl <;> exact absurd digit (by decide)

theorem not_separator_of_alpha {c : Char} (alpha : c.isAlpha = true) : isSeparator c = false := by
  rw [Bool.eq_false_iff]
  intro separates
  simp only [isSeparator, Bool.or_eq_true, beq_iff_eq] at separates
  rcases separates with (rfl | rfl) | rfl <;> exact absurd alpha (by decide)

theorem word_label (lettered : Lettered words) (listed : label ∈ words)
    (ends : ∀ c ∈ rest.head?, c.isAlpha = false) :
    Scan.word words (label ++ rest) = some (label, rest) := by
  have shorter : ∀ w ∈ words, w <+: label ++ rest → w <+: label := by
    intro w mem starts
    rcases List.prefix_or_prefix_of_prefix starts (List.prefix_append label rest) with within | ⟨more, rfl⟩
    · exact within
    · cases more with
      | nil => rw [List.append_nil]
      | cons c more =>
          obtain ⟨tail, same⟩ := (List.prefix_append_right_inj label).mp starts
          rw [← same] at ends
          have letter := (lettered _ mem).2 c (by simp)
          rw [ends c rfl] at letter
          cases letter
  have found : label ∈ words.filter fun w => w.isPrefixOf (label ++ rest) :=
    List.mem_filter.mpr ⟨listed, List.isPrefixOf_iff_prefix.mpr (List.prefix_append _ _)⟩
  rw [Scan.word]
  cases best : (words.filter fun w => w.isPrefixOf (label ++ rest)).argmax List.length with
  | none =>
      rw [List.argmax_eq_none.mp best] at found
      cases found
  | some w =>
      obtain ⟨mem, starts⟩ := List.mem_filter.mp (List.argmax_mem best)
      have within := shorter w mem (List.isPrefixOf_iff_prefix.mp starts)
      have long : label.length ≤ w.length := List.le_of_mem_argmax found best
      rw [within.eq_of_length (Nat.le_antisymm within.length_le long), Option.map_some, List.drop_left]

theorem labelled_absent {s : Text} (absent : Scan.word words (Scan.separator s) = none) :
    Scan.labelled words s = (none, s) := by
  rw [Scan.labelled, absent]

theorem labelled_number (lettered : Lettered words) (listed : label ∈ words) (front : Separator before)
    (counted : Numeral digits n) (small : n < 2 ^ 64) (halts : Halts rest) :
    Scan.labelled words (before ++ (label ++ (digits ++ rest))) = (some (label, some n), rest) := by
  obtain ⟨d, tail, rfl⟩ := List.exists_cons_of_ne_nil counted.nonempty
  have digit := counted.digit d List.mem_cons_self
  have cut : Scan.separator (before ++ (label ++ (d :: tail ++ rest))) = label ++ (d :: tail ++ rest) := by
    cases front with
    | absent =>
        obtain ⟨c, letters, rfl⟩ := List.exists_cons_of_ne_nil (lettered label listed).1
        have letter := (lettered _ listed).2 c List.mem_cons_self
        exact if_neg (by rw [not_separator_of_alpha letter]; decide)
    | sign separates => exact if_pos separates
  have ends : ∀ c ∈ (d :: tail ++ rest).head?, c.isAlpha = false := by
    intro c mem
    cases mem
    exact not_alpha_of_digit digit
  have still : Scan.separator (d :: tail ++ rest) = d :: tail ++ rest :=
    if_neg (by rw [not_separator_of_digit digit]; decide)
  rw [Scan.labelled, cut, word_label lettered listed ends]
  dsimp only
  rw [still, number_append counted halts, if_pos small]

end Printed

/-! ### The pieces of a printed version -/

/-- The numbers of a release after its first, each after a dot. -/
def tailed (ns : List Nat) : Text := (ns.map fun n => '.' :: number n).flatten

theorem intercalate_numbers (n : Nat) (ns : List Nat) :
    ['.'].intercalate ((n :: ns).map number) = number n ++ tailed ns := by
  induction ns generalizing n with
  | nil => simp [tailed]
  | cons m ns ih =>
      rw [List.map_cons, List.map_cons, List.intercalate_cons_cons, ← List.map_cons, ih]
      simp [tailed]

theorem halts_tailed (ns : List Nat) {rest : Text} (halts : Halts rest) : Halts (tailed ns ++ rest) := by
  cases ns with
  | nil => exact halts
  | cons n ns => exact halts_cons.mpr (by decide)

theorem release_tailed {turns : Nat} {ns : List Nat} {rest : Text} (enough : ns.length ≤ turns)
    (small : ∀ n ∈ ns, n < 2 ^ 64) (halts : Halts rest) (ends : goesOn '.' rest = false) :
    Scan.release turns (tailed ns ++ rest) = some (ns, rest) := by
  induction ns generalizing turns with
  | nil =>
      cases turns with
      | zero => rfl
      | succ turns =>
          change Scan.release (turns + 1) rest = _
          rw [Scan.release, ends, if_neg Bool.false_ne_true]
  | cons n ns ih =>
      cases turns with
      | zero => exact absurd enough (Nat.not_succ_le_zero _)
      | succ turns =>
          obtain ⟨smallN, smaller⟩ := List.forall_mem_cons.mp small
          have spelled : tailed (n :: ns) ++ rest = '.' :: (number n ++ (tailed ns ++ rest)) := by simp [tailed]
          have goes : goesOn '.' ('.' :: (number n ++ (tailed ns ++ rest))) = true := by
            obtain ⟨d, tail, same⟩ := List.exists_cons_of_ne_nil (numeral n).nonempty
            have digit := (numeral n).digit d (same ▸ List.mem_cons_self)
            rw [same]
            simp [goesOn, digit]
          rw [spelled, Scan.release, goes, if_pos rfl, List.drop_one, List.tail_cons,
            number_append (numeral n) (halts_tailed _ halts), if_pos smallN]
          dsimp only
          rw [ih (Nat.le_of_succ_le_succ enough) smaller]
          rfl

section Tails

variable (v : Pep440)

def localText : Text := if v.local_.isEmpty then [] else '+' :: ['.'].intercalate v.local_

def devText : Text := renderNumber ".dev".toList v.dev ++ localText v

def postText : Text := renderNumber ".post".toList v.post ++ devText v

def preText : Text := renderPre v.pre ++ postText v

variable {v}

theorem localText_cases : localText v = [] ∨ ∃ t, localText v = '+' :: t := by
  rw [localText]
  split
  · exact .inl rfl
  · exact .inr ⟨_, rfl⟩

theorem devText_cases : devText v = [] ∨ (∃ t, devText v = '+' :: t) ∨ ∃ t, devText v = '.' :: 'd' :: t := by
  rw [devText]
  cases v.dev with
  | none => exact localText_cases.imp_right .inl
  | some n => exact .inr (.inr ⟨_, rfl⟩)

theorem postText_cases : postText v = [] ∨ (∃ t, postText v = '+' :: t) ∨ (∃ t, postText v = '.' :: 'd' :: t) ∨
    ∃ t, postText v = '.' :: 'p' :: 'o' :: t := by
  rw [postText]
  cases v.post with
  | none => exact devText_cases.imp_right fun other => other.imp_right .inl
  | some n => exact .inr (.inr (.inr ⟨_, rfl⟩))

theorem localText_halts : Halts (localText v) := by
  rcases localText_cases (v := v) with same | ⟨t, same⟩ <;> rw [same]
  · exact halts_nil
  · exact halts_cons.mpr (by decide)

theorem devText_halts : Halts (devText v) := by
  rcases devText_cases (v := v) with same | ⟨t, same⟩ | ⟨t, same⟩ <;> rw [same]
  · exact halts_nil
  · exact halts_cons.mpr (by decide)
  · exact halts_cons.mpr (by decide)

theorem postText_halts : Halts (postText v) := by
  rcases postText_cases (v := v) with same | ⟨t, same⟩ | ⟨t, same⟩ | ⟨t, same⟩ <;> rw [same]
  · exact halts_nil
  · exact halts_cons.mpr (by decide)
  · exact halts_cons.mpr (by decide)
  · exact halts_cons.mpr (by decide)

theorem dev_devText (small : ∀ n ∈ v.dev, n < 2 ^ 64) : Scan.dev (devText v) = (v.dev, localText v) := by
  cases dev : v.dev with
  | none =>
      have absent : Scan.word devWords (Scan.separator (localText v)) = none := by
        rcases localText_cases (v := v) with same | ⟨t, same⟩ <;> rw [same] <;> rfl
      rw [devText, dev, renderNumber, List.nil_append, Scan.dev, labelled_absent absent]
  | some n =>
      have listed : "dev".toList ∈ devWords := List.mem_singleton.mpr rfl
      have read := labelled_number lettered.2.2 listed (.sign (c := '.') rfl) (numeral n) (small n dev)
        (localText_halts (v := v))
      have spelled : devText v = ['.'] ++ ("dev".toList ++ (number n ++ localText v)) := by
        rw [devText, dev]
        rfl
      rw [spelled, Scan.dev, read]
      rfl

theorem post_postText (small : ∀ n ∈ v.post, n < 2 ^ 64) : Scan.post (postText v) = (v.post, devText v) := by
  have undashed : goesOn '-' (postText v) = false := by
    rcases postText_cases (v := v) with same | ⟨t, same⟩ | ⟨t, same⟩ | ⟨t, same⟩ <;> rw [same]
    · rfl
    · exact goesOn_cons (by decide)
    · rfl
    · rfl
  cases post : v.post with
  | none =>
      have absent : Scan.word postWords (Scan.separator (devText v)) = none := by
        rcases devText_cases (v := v) with same | ⟨t, same⟩ | ⟨t, same⟩ <;> rw [same] <;> rfl
      have spelled : postText v = devText v := by
        rw [postText, post]
        rfl
      rw [Scan.post, undashed, if_neg Bool.false_ne_true, spelled, labelled_absent absent]
  | some n =>
      have listed : "post".toList ∈ postWords := List.mem_cons_self
      have read := labelled_number lettered.2.1 listed (.sign (c := '.') rfl) (numeral n) (small n post)
        (devText_halts (v := v))
      have spelled : postText v = ['.'] ++ ("post".toList ++ (number n ++ devText v)) := by
        rw [postText, post]
        rfl
      rw [Scan.post, undashed, if_neg Bool.false_ne_true, spelled, read]
      rfl

theorem renderPre_some (p : Pre) : ∃ label ∈ preWords, renderPre (some p) = label ++ number p.number ∧
    Scan.preOf label p.number = p := by
  cases p with
  | alpha n => exact ⟨"a".toList, by decide, rfl, rfl⟩
  | beta n => exact ⟨"b".toList, by decide, rfl, rfl⟩
  | rc n => exact ⟨"rc".toList, by decide, rfl, rfl⟩

theorem pre_preText (small : ∀ p ∈ v.pre, p.number < 2 ^ 64) : Scan.pre (preText v) = (v.pre, postText v) := by
  cases pre : v.pre with
  | none =>
      have absent : Scan.word preWords (Scan.separator (postText v)) = none := by
        rcases postText_cases (v := v) with same | ⟨t, same⟩ | ⟨t, same⟩ | ⟨t, same⟩ <;> rw [same] <;> rfl
      rw [preText, pre, renderPre, List.nil_append, Scan.pre, labelled_absent absent]
  | some p =>
      obtain ⟨label, listed, spelled, kind⟩ := renderPre_some p
      have read := labelled_number lettered.1 listed .absent (numeral p.number) (small p pre)
        (postText_halts (v := v))
      rw [List.nil_append] at read
      rw [preText, pre, spelled, List.append_assoc, Scan.pre, read]
      dsimp only
      rw [Option.getD_some, kind]

/-- What follows a release goes on neither with its numbers nor with the sign of an epoch. -/
theorem preText_starts : Halts (preText v) ∧ goesOn '.' (preText v) = false ∧ ∀ t, preText v ≠ '!' :: t := by
  rw [preText]
  cases v.pre with
  | none =>
      rw [renderPre, List.nil_append]
      refine ⟨postText_halts, ?_⟩
      rcases postText_cases (v := v) with same | ⟨t, same⟩ | ⟨t, same⟩ | ⟨t, same⟩ <;> rw [same]
      · exact ⟨rfl, fun t => List.cons_ne_nil _ _ |>.symm⟩
      · exact ⟨goesOn_cons (by decide), fun t => by simp⟩
      · exact ⟨rfl, fun t => by simp⟩
      · exact ⟨rfl, fun t => by simp⟩
  | some p =>
      cases p <;> exact ⟨halts_cons.mpr (by decide), goesOn_cons (by decide), fun t => by simp [renderPre]⟩

theorem splitOnP_intercalate {parts : List Text} (nonempty : parts ≠ [])
    (flat : ∀ part ∈ parts, ∀ c ∈ part, isSeparator c = false) :
    (['.'].intercalate parts).splitOnP isSeparator = parts := by
  induction parts with
  | nil => exact absurd rfl nonempty
  | cons part parts ih =>
      obtain ⟨flatFirst, flatRest⟩ := List.forall_mem_cons.mp flat
      cases parts with
      | nil => rw [List.intercalate_singleton, List.splitOnP_eq_singleton flatFirst]
      | cons next parts =>
          rw [List.intercalate_cons_cons, List.append_assoc, List.singleton_append,
            List.splitOnP_append_cons_of_forall_mem flatFirst '.' rfl, ih (List.cons_ne_nil _ _) flatRest]

theorem flat_of_segment {part : Text} (segment : isSegment part = true) : ∀ c ∈ part, isSeparator c = false := by
  intro c mem
  rw [isSegment, Bool.and_eq_true, List.all_eq_true] at segment
  have alphanum := segment.2 c mem
  rw [Char.isAlphanum, Bool.or_eq_true] at alphanum
  exact alphanum.elim not_separator_of_alpha not_separator_of_digit

theorem localParts_localText (segments : ∀ part ∈ v.local_, isSegment part = true) :
    Scan.localParts (localText v) = some (v.local_, []) := by
  rw [localText]
  cases parts : v.local_ with
  | nil => rfl
  | cons part others =>
      rw [parts] at segments
      have split := splitOnP_intercalate (List.cons_ne_nil part others) fun p mem =>
        flat_of_segment (segments p mem)
      rw [List.isEmpty_cons, if_neg Bool.false_ne_true, Scan.localParts, split,
        if_pos (List.all_eq_true.mpr segments)]

end Tails

/-! ### A printed version read -/

/-- What a version that parses is made of. -/
structure Parsed (v : Pep440) : Prop where
  released : v.release ≠ []
  small : ∀ n ∈ v.numbers, n < 2 ^ 64
  segments : ∀ part ∈ v.local_, isSegment part = true
  lower : ∀ part ∈ v.local_, ∀ c ∈ part, c.toLower = c

theorem first_number {digits rest : Text} {n : Nat} (counted : Numeral digits n) (small : n < 2 ^ 64)
    (halts : Halts rest) (ends : ∀ t, rest ≠ '!' :: t) : Scan.first (digits ++ rest) = some (0, n, rest) := by
  rw [Scan.first, number_append counted halts, if_pos small]
  split
  · rename_i same
    cases same
    exact absurd rfl (ends _)
  · rename_i same
    cases same
    rfl
  · rename_i same
    cases same

theorem first_epoch {front digits rest : Text} {e n : Nat} (epoch : Numeral front e) (smallEpoch : e < 2 ^ 64)
    (counted : Numeral digits n) (small : n < 2 ^ 64) (halts : Halts rest) :
    Scan.first (front ++ '!' :: (digits ++ rest)) = some (e, n, rest) := by
  have read : Scan.number (digits ++ rest) = (some n, rest) := by rw [number_append counted halts, if_pos small]
  rw [Scan.first, number_append epoch (halts_cons.mpr (by decide)), if_pos smallEpoch]
  simp [read]

theorem render_eq (v : Pep440) (n : Nat) (ns : List Nat) : v.render (n :: ns) =
    (if v.epoch = 0 then [] else number v.epoch ++ ['!']) ++ (number n ++ (tailed ns ++ preText v)) := by
  rw [Pep440.render, intercalate_numbers, List.append_assoc]
  rfl

theorem first_render {v : Pep440} {n : Nat} (ns : List Nat) (smallEpoch : v.epoch < 2 ^ 64) (small : n < 2 ^ 64) :
    Scan.first (v.render (n :: ns)) = some (v.epoch, n, tailed ns ++ preText v) := by
  have halts := halts_tailed ns (preText_starts (v := v)).1
  rw [render_eq]
  split
  · rename_i zero
    rw [List.nil_append, zero]
    refine first_number (numeral n) small halts fun t same => ?_
    cases ns with
    | nil => exact (preText_starts (v := v)).2.2 t same
    | cons m ns => cases same
  · rw [List.append_assoc, List.singleton_append]
    exact first_epoch (numeral _) smallEpoch (numeral n) small halts

/-- A character that neither trimming nor folding changes. -/
def Still (c : Char) : Prop := isWhitespace c = false ∧ c.toLower = c

instance (c : Char) : Decidable (Still c) := inferInstanceAs (Decidable (_ ∧ _))

theorem still_digit {c : Char} (digit : c.isDigit = true) : Still c := by
  refine ⟨?_, toLower_digit digit⟩
  have low : 48 ≤ c.toNat := by
    simp only [Char.isDigit, Bool.and_eq_true, decide_eq_true_eq, UInt32.le_iff_toNat_le] at digit
    exact digit.1
  have high := Lib.toNat_of_digit digit
  simp [isWhitespace]
  omega

theorem still_alpha {c : Char} (alpha : c.isAlpha = true) (lower : c.toLower = c) : Still c := by
  refine ⟨?_, lower⟩
  have low := Lib.toNat_of_alpha alpha
  have high : c.toNat ≤ 122 := by
    simp only [Char.isAlpha, Char.isUpper, Char.isLower, Bool.or_eq_true, Bool.and_eq_true, decide_eq_true_eq,
      UInt32.le_iff_toNat_le] at alpha
    exact alpha.elim (fun large => large.2.trans (by decide)) And.right
  simp [isWhitespace]
  omega

theorem lowered_still {s : Text} (still : ∀ c ∈ s, Still c) : lowered s = s := by
  have front : s.dropWhile isWhitespace = s := by
    cases s with
    | nil => rfl
    | cons c s => exact List.dropWhile_cons_of_neg (by simp [(still c List.mem_cons_self).1])
  have back : s.rdropWhile isWhitespace = s := by
    rw [List.rdropWhile_eq_self_iff]
    intro nonempty
    simp [(still _ (List.getLast_mem nonempty)).1]
  rw [lowered, front, back, List.map_congr_left fun _ mem => (still _ mem).2, List.map_id']

/-- The marks and the letters of the labels. -/
def marks : Text := ".!+abcdeoprstv".toList

/-- What a printed version is spelled with. -/
def Spelled (v : Pep440) (c : Char) : Prop := c.isDigit = true ∨ c ∈ marks ∨ ∃ part ∈ v.local_, c ∈ part

section Spelled

variable {v : Pep440} {s t : Text}

theorem spelled_append (front : ∀ c ∈ s, Spelled v c) (back : ∀ c ∈ t, Spelled v c) : ∀ c ∈ s ++ t, Spelled v c :=
  fun c mem => (List.mem_append.mp mem).elim (front c) (back c)

theorem spelled_number {n : Nat} : ∀ c ∈ number n, Spelled v c := fun _ mem => .inl (digit_of_mem_toDigits mem)

theorem spelled_of_all (all : (s.all fun c => decide (c ∈ marks)) = true) : ∀ c ∈ s, Spelled v c := fun c mem =>
  .inr (.inl (of_decide_eq_true (List.all_eq_true.mp all c mem)))

theorem spelled_renderNumber {label : Text} (spelled : ∀ c ∈ label, Spelled v c) (k : Option Nat) :
    ∀ c ∈ renderNumber label k, Spelled v c := by
  cases k with
  | none => exact fun c mem => absurd mem List.not_mem_nil
  | some k => exact spelled_append spelled spelled_number

theorem spelled_renderPre (pre : Option Pre) : ∀ c ∈ renderPre pre, Spelled v c := by
  cases pre with
  | none => exact fun c mem => absurd mem List.not_mem_nil
  | some p =>
      cases p with
      | alpha n => exact spelled_append (s := ['a']) (spelled_of_all (by decide)) spelled_number
      | beta n => exact spelled_append (s := ['b']) (spelled_of_all (by decide)) spelled_number
      | rc n => exact spelled_append (s := ['r', 'c']) (spelled_of_all (by decide)) spelled_number

theorem spelled_localText : ∀ c ∈ localText v, Spelled v c := by
  rw [localText]
  split
  · exact fun c mem => absurd mem List.not_mem_nil
  · refine List.forall_mem_cons.mpr ⟨.inr (.inl (by decide)), fun c mem => ?_⟩
    by_cases dot : c = '.'
    · exact dot ▸ .inr (.inl (by decide))
    · exact .inr (.inr ((mem_intercalate_iff dot).mp mem))

theorem spelled_tailed (ns : List Nat) : ∀ c ∈ tailed ns, Spelled v c := by
  intro c mem
  obtain ⟨piece, listed, inside⟩ := List.mem_flatten.mp mem
  obtain ⟨n, _, rfl⟩ := List.mem_map.mp listed
  rcases List.mem_cons.mp inside with rfl | inside
  · exact .inr (.inl (by decide))
  · exact spelled_number c inside

theorem spelled_render (n : Nat) (ns : List Nat) : ∀ c ∈ v.render (n :: ns), Spelled v c := by
  rw [render_eq]
  have epoch : ∀ c ∈ (if v.epoch = 0 then [] else number v.epoch ++ ['!'] : Text), Spelled v c := by
    split
    · exact fun c mem => absurd mem List.not_mem_nil
    · exact spelled_append spelled_number (spelled_of_all (by decide))
  have tails : ∀ c ∈ preText v, Spelled v c :=
    spelled_append (spelled_renderPre v.pre) (spelled_append (spelled_renderNumber (spelled_of_all (by decide)) _)
      (spelled_append (spelled_renderNumber (spelled_of_all (by decide)) _) spelled_localText))
  exact spelled_append epoch (spelled_append spelled_number (spelled_append (spelled_tailed ns) tails))

end Spelled

theorem still_render {v : Pep440} {n : Nat} {ns : List Nat} (parsed : Parsed v) :
    ∀ c ∈ v.render (n :: ns), Still c := by
  intro c mem
  rcases spelled_render n ns c mem with digit | mark | ⟨part, listed, inside⟩
  · exact still_digit digit
  · have all : (marks.all fun c => decide (Still c)) = true := by decide
    exact of_decide_eq_true (List.all_eq_true.mp all c mark)
  · have segment := parsed.segments part listed
    rw [isSegment, Bool.and_eq_true, List.all_eq_true] at segment
    have alphanum := segment.2 c inside
    rw [Char.isAlphanum, Bool.or_eq_true] at alphanum
    exact alphanum.elim (fun alpha => still_alpha alpha (parsed.lower part listed c inside)) still_digit

theorem unversioned_first {s rest : Text} {e n : Nat} (read : Scan.first s = some (e, n, rest)) :
    unversioned s = s := by
  obtain ⟨epoch, digits, rfl, epoched, counted, _⟩ := first_some read
  have starts : ∀ {digits more : Text} {k : Nat}, Numeral digits k →
      unversioned (digits ++ more) = digits ++ more := by
    intro digits more k counted
    obtain ⟨d, tail, rfl⟩ := List.exists_cons_of_ne_nil counted.nonempty
    have digit := counted.digit d List.mem_cons_self
    rw [unversioned.eq_def]
    split
    · rename_i same
      cases same
      exact absurd digit (by decide)
    · rfl
  cases epoched with
  | absent =>
      rw [List.nil_append]
      exact starts counted
  | written front =>
      rw [List.append_assoc]
      exact starts front

theorem length_tailed (ns : List Nat) : ns.length ≤ (tailed ns).length := by
  induction ns with
  | nil => exact Nat.le_refl 0
  | cons n ns ih =>
      have spelled : tailed (n :: ns) = '.' :: (number n ++ tailed ns) := by simp [tailed]
      rw [spelled, List.length_cons, List.length_cons, List.length_append]
      omega

theorem parse_render {v : Pep440} (parsed : Parsed v) {n : Nat} {ns : List Nat}
    (small : ∀ k ∈ n :: ns, k < 2 ^ 64) :
    Pep440.parse (v.render (n :: ns)) = some { v with release := n :: ns } := by
  have smallPre : ∀ p ∈ v.pre, p.number < 2 ^ 64 := fun p mem => parsed.small _ (by
    simp only [Pep440.numbers, List.mem_cons, List.mem_append, Option.mem_toList, Option.map_eq_some_iff]
    exact .inr (.inl (.inl (.inr ⟨p, mem, rfl⟩))))
  have smallPost : ∀ k ∈ v.post, k < 2 ^ 64 := fun k mem => parsed.small _ (by
    simp only [Pep440.numbers, List.mem_cons, List.mem_append, Option.mem_toList]
    exact .inr (.inl (.inr mem)))
  have smallDev : ∀ k ∈ v.dev, k < 2 ^ 64 := fun k mem => parsed.small _ (by
    simp only [Pep440.numbers, List.mem_cons, List.mem_append, Option.mem_toList]
    exact .inr (.inr mem))
  obtain ⟨smallN, smaller⟩ := List.forall_mem_cons.mp small
  have first := first_render ns (parsed.small _ List.mem_cons_self) smallN
  have unversed : unversioned (lowered (v.render (n :: ns))) = v.render (n :: ns) := by
    rw [lowered_still (still_render parsed), unversioned_first first]
  obtain ⟨halts, ends, _⟩ := preText_starts (v := v)
  have enough : ns.length ≤ (tailed ns ++ preText v).length := by
    rw [List.length_append]
    exact (length_tailed ns).trans (Nat.le_add_right _ _)
  exact parse_some_iff.mpr ⟨v.epoch, n, ns, _, _, _, _, _, by rw [unversed, first],
    release_tailed enough smaller halts ends, pre_preText smallPre, post_postText smallPost, dev_devText smallDev,
    localParts_localText parsed.segments, rfl, rfl⟩

/-! ### What a version that parses is made of -/

theorem Segments.inside {text : Text} {parts : List Text} (segments : Segments text parts) :
    ∀ part ∈ parts, isSegment part = true ∧ ∀ c ∈ part, c ∈ text := by
  induction segments with
  | one segment =>
      intro part mem
      rw [List.mem_singleton.mp mem]
      exact ⟨segment, fun c mem => mem⟩
  | more segment _ _ ih =>
      refine List.forall_mem_cons.mpr ⟨⟨segment, fun c mem => List.mem_append_left _ mem⟩, fun part mem => ?_⟩
      obtain ⟨other, within⟩ := ih part mem
      exact ⟨other, fun c inside => List.mem_append_right _ (List.mem_cons_of_mem _ (within c inside))⟩

theorem post_suffix {s rest : Text} {q : Option Nat} (read : Scan.post s = (q, rest)) : rest <:+ s := by
  rw [Scan.post] at read
  split at read
  · rw [Scan.number] at read
    cases read
    exact (List.dropWhile_suffix _).trans (List.drop_suffix 1 s)
  · split at read
    · rename_i found
      cases read
      obtain ⟨text, cut, _⟩ := labelled_some found
      exact ⟨text, cut.symm⟩
    · rename_i absent
      cases read
      rw [labelled_none absent]

theorem lower_lowered (raw : Text) : ∀ c ∈ lowered raw, c.toLower = c := by
  intro c mem
  obtain ⟨d, _, rfl⟩ := List.mem_map.mp mem
  exact d.toLower_toLower_eq_toLower

theorem parsed {raw : Text} {v : Pep440} (read : Pep440.parse raw = some v) : Parsed v := by
  obtain ⟨e, n, ns, s₁, s₂, s₃, s₄, s₅, started, released, pre, post, dev, localized, rfl, release⟩ :=
    parse_some_iff.mp read
  obtain ⟨vee, _, cut⟩ := unversioned_cut (lowered raw)
  obtain ⟨epoch, first, cutFirst, _⟩ := first_some started
  obtain ⟨more, cutMore, _⟩ := release_some released
  obtain ⟨preText, cutPre, _⟩ := pre_some pre
  obtain ⟨devText, cutDev, _⟩ := dev_some dev
  have suffix : s₅ <:+ lowered raw := by
    have toDev : s₅ <:+ s₄ := ⟨devText, cutDev.symm⟩
    have toPre : s₃ <:+ s₂ := ⟨preText, cutPre.symm⟩
    have toMore : s₂ <:+ s₁ := ⟨more, cutMore.symm⟩
    have toFirst : s₁ <:+ unversioned (lowered raw) := ⟨epoch ++ first, by rw [cutFirst, List.append_assoc]⟩
    have whole : unversioned (lowered raw) <:+ lowered raw := ⟨vee, cut.symm⟩
    exact (toDev.trans (post_suffix post)).trans (toPre.trans (toMore.trans (toFirst.trans whole)))
  have segments : ∀ part ∈ v.local_, isSegment part = true ∧ ∀ c ∈ part, c ∈ s₅ := by
    have inside := local_some localized
    generalize v.local_ = parts at inside ⊢
    cases inside with
    | absent => exact fun part mem => absurd mem List.not_mem_nil
    | written others =>
        intro part mem
        obtain ⟨segment, within⟩ := others.inside part mem
        exact ⟨segment, fun c mem => List.mem_cons_of_mem _ (within c mem)⟩
  exact ⟨by rw [release]; exact List.cons_ne_nil _ _, numbers_small read, fun part mem => (segments part mem).1,
    fun part mem c inside => lower_lowered raw c (suffix.mem ((segments part mem).2 c inside))⟩

/-! ### One canonical form -/

section Canonical

variable {x y : Pep440}

theorem parse_canonical (parsed : Parsed x) :
    Pep440.parse x.canonical = some { x with release := Pep440.trimmed x.release } := by
  obtain ⟨n, ns, release⟩ := List.exists_cons_of_ne_nil parsed.released
  rw [Pep440.canonical, release]
  refine parse_render parsed fun k mem => parsed.small k ?_
  have listed : k ∈ x.release := by
    rw [release]
    exact (List.mem_cons.mp mem).elim (fun same => same ▸ List.mem_cons_self)
      fun mem => List.mem_cons_of_mem _ ((List.rdropWhile_prefix _ _).subset mem)
  exact List.mem_cons_of_mem _ (List.mem_append_left _ (List.mem_append_left _ (List.mem_append_left _ listed)))

theorem canonical_eq_iff (parsedX : Parsed x) (parsedY : Parsed y) : x.canonical = y.canonical ↔
    x.epoch = y.epoch ∧ Pep440.trimmed x.release = Pep440.trimmed y.release ∧ x.pre = y.pre ∧ x.post = y.post ∧
      x.dev = y.dev ∧ x.local_ = y.local_ := by
  constructor
  · intro same
    have read := parse_canonical parsedX
    rw [same, parse_canonical parsedY] at read
    cases x
    cases y
    simp only [Option.some.injEq, Pep440.mk.injEq] at read ⊢
    obtain ⟨epoch, release, pre, post, dev, local_⟩ := read
    exact ⟨epoch.symm, release.symm, pre.symm, post.symm, dev.symm, local_.symm⟩
  · rintro ⟨epoch, release, pre, post, dev, local_⟩
    rw [Pep440.canonical, Pep440.canonical, Pep440.render, Pep440.render, epoch, release, pre, post, dev, local_]

theorem trimmed_eq_iff (parsedX : Parsed x) (parsedY : Parsed y) :
    Pep440.trimmed x.release = Pep440.trimmed y.release ↔
      x.release.rdropWhile (· == 0) = y.release.rdropWhile (· == 0) := by
  obtain ⟨n, ns, releaseX⟩ := List.exists_cons_of_ne_nil parsedX.released
  obtain ⟨m, ms, releaseY⟩ := List.exists_cons_of_ne_nil parsedY.released
  rw [releaseX, releaseY, Pep440.trimmed, Pep440.trimmed, Lib.rdropWhile_cons_inj, List.cons_eq_cons]

theorem trimmed_trimmed (release : List Nat) :
    Pep440.trimmed (Pep440.trimmed release) = Pep440.trimmed release := by
  cases release with
  | nil => rfl
  | cons n ns => rw [Pep440.trimmed, Pep440.trimmed, List.rdropWhile_idempotent]

theorem alike_refl (parts : List Text) : List.Forall₂ Pep440.Alike parts parts :=
  List.forall₂_same.mpr fun _ _ => .inl rfl

theorem parsed_trimmed (parsed : Parsed x) : Parsed { x with release := Pep440.trimmed x.release } :=
  Pypi.parsed (parse_canonical parsed)

/-- Versions that differ in nothing but the zeros that pad local segments, and do differ there. -/
def PaddedApart (x y : Pep440) : Prop :=
  x.epoch = y.epoch ∧ Pep440.trimmed x.release = Pep440.trimmed y.release ∧ x.pre = y.pre ∧ x.post = y.post ∧
    x.dev = y.dev ∧ List.Forall₂ Pep440.Alike x.local_ y.local_ ∧ x.local_ ≠ y.local_

instance (x y : Pep440) : Decidable (PaddedApart x y) := inferInstanceAs (Decidable (_ ∧ _ ∧ _ ∧ _ ∧ _ ∧ _ ∧ _))

/-- The canonical form tells versions apart as the order does, unless local segments are padded apart; the order is
a total preorder; and the canonical form is that of a version that sorts like the one it is of. -/
theorem canonical_and_order_agree_iff {a b : Text} (readA : Pep440.parse a = some x)
    (readB : Pep440.parse b = some y) :
    ((x.canonical = y.canonical ↔ compareVersions a b = .eq) ∧ Std.TransCmp compareVersions ∧
        ∃ z, Pep440.parse x.canonical = some z ∧ compareVersions x.canonical a = .eq ∧
          z.canonical = x.canonical) ↔ ¬PaddedApart x y := by
  have parsedX := parsed readA
  have parsedY := parsed readB
  have order : compareVersions a b = x.cmp y := by rw [compareVersions, readA, readB]
  have agree : (x.canonical = y.canonical ↔ compareVersions a b = .eq) ↔ ¬PaddedApart x y := by
    rw [order, canonical_eq_iff parsedX parsedY, Pep440.cmp_eq_iff, ← trimmed_eq_iff parsedX parsedY, PaddedApart]
    constructor
    · rintro same ⟨epoch, release, pre, post, dev, alike, apart⟩
      exact apart (same.mpr ⟨epoch, release, pre, post, dev, alike⟩).2.2.2.2.2
    · intro together
      constructor
      · rintro ⟨epoch, release, pre, post, dev, local_⟩
        exact ⟨epoch, release, pre, post, dev, local_ ▸ alike_refl _⟩
      · rintro ⟨epoch, release, pre, post, dev, alike⟩
        by_contra other
        refine together ⟨epoch, release, pre, post, dev, alike, fun local_ => ?_⟩
        exact other ⟨epoch, release, pre, post, dev, local_⟩
  rw [agree]
  refine and_iff_left ⟨inferInstance, _, parse_canonical parsedX, ?_, ?_⟩
  · rw [compareVersions, parse_canonical parsedX, readA]
    exact Pep440.cmp_eq_iff.mpr ⟨rfl, (trimmed_eq_iff (parsed_trimmed parsedX) parsedX).mp (trimmed_trimmed _),
      rfl, rfl, rfl, alike_refl _⟩
  · rw [Pep440.canonical, trimmed_trimmed]
    rfl

theorem canonical_and_order_agree_on_trailing_zeros :
    (Pep440.canonical ⟨0, [1, 0], none, none, none, ["01".toList]⟩ =
          Pep440.canonical ⟨0, [1], none, none, none, ["01".toList]⟩ ↔
        compareVersions "1.0+01".toList "v1+01".toList = .eq) ∧ Std.TransCmp compareVersions ∧
      ∃ z, Pep440.parse (Pep440.canonical ⟨0, [1, 0], none, none, none, ["01".toList]⟩) = some z ∧
        compareVersions (Pep440.canonical ⟨0, [1, 0], none, none, none, ["01".toList]⟩) "1.0+01".toList = .eq ∧
        z.canonical = Pep440.canonical ⟨0, [1, 0], none, none, none, ["01".toList]⟩ :=
  (canonical_and_order_agree_iff (by decide) (by decide)).mpr (by decide)

/-- Versions that sort alike with two canonical forms. -/
theorem padded_segment_has_another_form : ∃ x y, Pep440.parse "1.0+01".toList = some x ∧
    Pep440.parse "1.0+1".toList = some y ∧
      ¬(x.canonical = y.canonical ↔ compareVersions "1.0+01".toList "1.0+1".toList = .eq) :=
  ⟨⟨0, [1, 0], none, none, none, ["01".toList]⟩, ⟨0, [1, 0], none, none, none, ["1".toList]⟩, by decide, by decide,
    by decide⟩

end Canonical

end OpenCargo.Pypi
