/-
Module: OpenCargo.Import.Globs
Purpose: What the globs of an import mean: a pattern is cut into its wildcards and the bytes between them, each
  has a language of its own, and `glob_match` (`crates/domain/src/import.rs`) decides the words of their
  product.
Trusted boundary: none
Main exports: Wildcard.language, wildcards, globLanguage, glob_match_denotes
-/
import OpenCargo.Import.Plan
import Mathlib.Computability.Language

namespace OpenCargo.Import

/-! ### The language -/

inductive Wildcard where
  /-- `?` -/
  | one
  /-- `*` -/
  | segment
  /-- `**` -/
  | any
  /-- `**/` -/
  | folders
  | byte (c : UInt8)
deriving Repr, DecidableEq, Inhabited

/-- `*` and `?` stay inside one segment, `**` crosses them, and `**/` may be left out. -/
def Wildcard.language : Wildcard → Language UInt8
  | .one => {word | ∃ c, c ≠ slash ∧ word = [c]}
  | .segment => {word | slash ∉ word}
  | .any => ⊤
  | .folders => 1 + ⊤ * {[slash]}
  | .byte c => {[c]}

/-- What a byte that does not begin a `**` stands for. -/
def wildcard (c : UInt8) : Wildcard := if c = star then .segment else if c = question then .one else .byte c

/-- The pattern from left to right, each time the longest wildcard. -/
def wildcards : List UInt8 → List Wildcard
  | [] => []
  | [c] => [wildcard c]
  | [c, d] => if c = star ∧ d = star then [.any] else wildcard c :: wildcards [d]
  | c :: d :: e :: rest =>
      if c = star ∧ d = star then
        if e = slash then .folders :: wildcards rest else .any :: wildcards (e :: rest)
      else wildcard c :: wildcards (d :: e :: rest)

def languageOf (tokens : List Wildcard) : Language UInt8 := (tokens.map Wildcard.language).prod

/-- The paths a pattern stands for. -/
def globLanguage (pattern : List UInt8) : Language UInt8 := languageOf (wildcards pattern)

theorem mem_languageOf_nil {word : List UInt8} : word ∈ languageOf [] ↔ word = [] := Language.mem_one word

theorem mem_languageOf_cons {token : Wildcard} {tokens : List Wildcard} {word : List UInt8} :
    word ∈ languageOf (token :: tokens) ↔
      ∃ front ∈ token.language, ∃ rest ∈ languageOf tokens, front ++ rest = word := by
  rw [languageOf, List.map_cons, List.prod_cons]
  exact Language.mem_mul

/-! ### The matcher -/

theorem mem_withinSegment {t left : List UInt8} :
    left ∈ withinSegment t ↔ ∃ front, slash ∉ front ∧ front ++ left = t := by
  induction t with
  | nil =>
      simp only [withinSegment, List.mem_singleton, List.append_eq_nil_iff]
      constructor
      · rintro rfl
        exact ⟨[], List.not_mem_nil, rfl, rfl⟩
      · rintro ⟨_, _, _, empty⟩
        exact empty
  | cons c t ih =>
      rw [withinSegment, List.mem_cons]
      constructor
      · rintro (rfl | further)
        · exact ⟨[], List.not_mem_nil, rfl⟩
        · split at further
          · cases further
          · rename_i inside
            obtain ⟨front, plain, rfl⟩ := ih.mp further
            refine ⟨c :: front, ?_, rfl⟩
            rw [List.mem_cons, not_or]
            exact ⟨Ne.symm inside, plain⟩
      · rintro ⟨front, plain, split⟩
        cases front with
        | nil => exact .inl split
        | cons d front =>
            obtain ⟨rfl, rfl⟩ := List.cons.inj split
            rw [List.mem_cons, not_or] at plain
            rw [if_neg (Ne.symm plain.1)]
            exact .inr (ih.mpr ⟨front, plain.2, rfl⟩)

/-- What `go` does at a byte that does not begin a `**`. -/
def single (c : UInt8) (rest t : List UInt8) : Bool :=
  if c = star then (withinSegment t).any (globGo rest)
  else if c = question then t.head?.any (· ≠ slash) && globGo rest t.tail
  else t.head? = some c && globGo rest t.tail

theorem single_denotes {c : UInt8} {rest : List UInt8} {tokens : List Wildcard}
    (ih : ∀ t, globGo rest t = true ↔ t ∈ languageOf tokens) (t : List UInt8) :
    single c rest t = true ↔ t ∈ languageOf (wildcard c :: tokens) := by
  rw [mem_languageOf_cons, single, wildcard]
  split
  · simp only [List.any_eq_true, mem_withinSegment, ih]
    constructor
    · rintro ⟨left, ⟨front, plain, split⟩, reads⟩
      exact ⟨front, plain, left, reads, split⟩
    · rintro ⟨front, plain, left, reads, split⟩
      exact ⟨left, ⟨front, plain, split⟩, reads⟩
  · split
    · cases t with
      | nil =>
          simp only [List.head?_nil, Option.any_none, Bool.false_and, Bool.false_eq_true, false_iff]
          rintro ⟨_, ⟨_, _, rfl⟩, _, _, split⟩
          cases split
      | cons d t =>
          simp only [List.head?_cons, Option.any_some, List.tail_cons, Bool.and_eq_true, decide_eq_true_eq, ih]
          constructor
          · rintro ⟨inside, reads⟩
            exact ⟨[d], ⟨d, inside, rfl⟩, t, reads, rfl⟩
          · rintro ⟨_, ⟨_, inside, rfl⟩, _, reads, split⟩
            obtain ⟨rfl, rfl⟩ := List.cons.inj split
            exact ⟨inside, reads⟩
    · cases t with
      | nil =>
          simp only [List.head?_nil, reduceCtorEq, decide_false, Bool.false_and, Bool.false_eq_true, false_iff]
          rintro ⟨_, rfl, _, _, split⟩
          cases split
      | cons d t =>
          simp only [List.head?_cons, List.tail_cons, Bool.and_eq_true, ih]
          constructor
          · rintro ⟨same, reads⟩
            have same : d = c := by simpa using same
            subst same
            exact ⟨[d], rfl, t, reads, rfl⟩
          · rintro ⟨_, rfl, _, reads, split⟩
            obtain ⟨rfl, rfl⟩ := List.cons.inj split
            exact ⟨by simp, reads⟩

theorem tails_denote {rest : List UInt8} {tokens : List Wildcard}
    (ih : ∀ t, globGo rest t = true ↔ t ∈ languageOf tokens) (t : List UInt8) :
    t.tails.any (globGo rest) = true ↔ t ∈ languageOf (.any :: tokens) := by
  rw [mem_languageOf_cons]
  simp only [List.any_eq_true, List.mem_tails, ih]
  constructor
  · rintro ⟨left, ⟨front, split⟩, reads⟩
    exact ⟨front, trivial, left, reads, split⟩
  · rintro ⟨front, _, left, reads, split⟩
    exact ⟨left, ⟨front, split⟩, reads⟩

theorem mem_folders {word : List UInt8} :
    word ∈ Wildcard.folders.language ↔ word = [] ∨ ∃ front, front ++ [slash] = word := by
  rw [Wildcard.language, Language.mem_add, Language.mem_one, Language.mem_mul]
  refine or_congr_right ⟨?_, ?_⟩
  · rintro ⟨front, _, _, rfl, split⟩
    exact ⟨front, split⟩
  · rintro ⟨front, split⟩
    exact ⟨front, trivial, _, rfl, split⟩

theorem globGo_slash {rest t : List UInt8} :
    globGo (slash :: rest) t = true ↔ ∃ after, t = slash :: after ∧ globGo rest after = true := by
  have plain : ¬slash = star ∧ ¬slash = question := by decide
  have steps : globGo (slash :: rest) t = (decide (t.head? = some slash) && globGo rest t.tail) := by
    rcases rest with _ | ⟨d, _ | ⟨e, rest⟩⟩ <;> simp [globGo, plain]
  rw [steps]
  cases t with
  | nil => simp
  | cons d t => simp

theorem folders_denote {rest : List UInt8} {tokens : List Wildcard}
    (ih : ∀ t, globGo rest t = true ↔ t ∈ languageOf tokens) (t : List UInt8) :
    (globGo rest t || t.tails.any (globGo (slash :: rest))) = true ↔ t ∈ languageOf (.folders :: tokens) := by
  rw [mem_languageOf_cons]
  simp only [Bool.or_eq_true, List.any_eq_true, List.mem_tails, globGo_slash, ih, mem_folders]
  constructor
  · rintro (reads | ⟨_, ⟨front, split⟩, after, rfl, reads⟩)
    · exact ⟨[], .inl rfl, t, reads, rfl⟩
    · exact ⟨front ++ [slash], .inr ⟨front, rfl⟩, after, reads, by simpa using split⟩
  · rintro ⟨_, rfl | ⟨front, rfl⟩, after, reads, rfl⟩
    · exact .inl reads
    · exact .inr ⟨slash :: after, ⟨front, (List.append_cons front slash after).symm ▸ rfl⟩, after, rfl, reads⟩

theorem globGo_denotes (p t : List UInt8) : globGo p t = true ↔ t ∈ globLanguage p := by
  rw [globLanguage]
  induction p using wildcards.induct generalizing t with
  | case1 => rw [wildcards, mem_languageOf_nil, globGo, List.isEmpty_iff]
  | case2 c => exact single_denotes (fun t => by rw [mem_languageOf_nil, globGo, List.isEmpty_iff]) t
  | case3 c d stars =>
      rw [wildcards, if_pos stars, ← tails_denote fun t => by rw [mem_languageOf_nil, globGo, List.isEmpty_iff]]
      simp [globGo, stars]
  | case4 c d plain ih =>
      rw [wildcards, if_neg plain, ← single_denotes ih]
      simp [globGo, single, plain]
  | case5 c d rest stars ih =>
      rw [wildcards, if_pos stars, if_pos rfl, ← folders_denote ih]
      simp [globGo, stars]
  | case6 c d e rest stars other ih =>
      rw [wildcards, if_pos stars, if_neg other, ← tails_denote ih]
      simp [globGo, stars, other]
  | case7 c d e rest plain ih =>
      rw [wildcards, if_neg plain, ← single_denotes ih]
      simp [globGo, single, plain]

/-- A glob matches the paths of its language, and no other. -/
theorem glob_match_denotes (pattern path : Text) :
    globMatch pattern path = true ↔ bytes path ∈ globLanguage (bytes pattern) :=
  globGo_denotes _ _

example : globMatch "a/**/z".toList "a/z".toList = true := by decide +kernel

end OpenCargo.Import
