/-
Module: OpenCargo.Lib.Glob
Purpose: Words that read as a pattern with wildcards, over any alphabet: the relation, the pieces
  between the wildcards, the greedy matcher that looks each piece up from left to right, and the
  matcher that keeps one fallback mark.
Trusted boundary: none
Main exports: greedy, greedy_iff_fits, marked, marked_iff_reads
-/
import Mathlib.Data.List.Infix
import Mathlib.Data.List.Count

namespace OpenCargo.Lib

variable {α : Type*}

/-- `word` reads as `pattern`: a letter stands for itself, a `wild` for any word. -/
inductive Reads (wild : α) : List α → List α → Prop where
  | done : Reads wild [] []
  | letter {c : α} {pattern word : List α} (plain : c ≠ wild) (rest : Reads wild pattern word) :
      Reads wild (c :: pattern) (c :: word)
  | run (spread : List α) {pattern word : List α} (rest : Reads wild pattern word) :
      Reads wild (wild :: pattern) (spread ++ word)

namespace Reads

variable {wild : α} {pattern word : List α}

theorem nil_left (reads : Reads wild [] word) : word = [] := by
  cases reads
  rfl

theorem letter_inv {c : α} (plain : c ≠ wild) (reads : Reads wild (c :: pattern) word) :
    ∃ rest, word = c :: rest ∧ Reads wild pattern rest := by
  cases reads with
  | letter _ rest => exact ⟨_, rfl, rest⟩
  | run spread rest => exact absurd rfl plain

theorem run_inv (reads : Reads wild (wild :: pattern) word) :
    ∃ spread rest, word = spread ++ rest ∧ Reads wild pattern rest := by
  cases reads with
  | letter plain rest => exact absurd rfl plain
  | run spread rest => exact ⟨spread, _, rfl, rest⟩

/-- A leading wildcard takes in whatever is put in front of the word. -/
theorem absorb (front : List α) (reads : Reads wild (wild :: pattern) word) :
    Reads wild (wild :: pattern) (front ++ word) := by
  obtain ⟨spread, rest, rfl, tail⟩ := reads.run_inv
  rw [← List.append_assoc]
  exact .run _ tail

/-- A wildcard may stand for nothing. -/
theorem skip (reads : Reads wild pattern word) : Reads wild (wild :: pattern) word :=
  .run [] reads

theorem append {pattern' word' : List α} (front : Reads wild pattern word)
    (back : Reads wild pattern' word') : Reads wild (pattern ++ pattern') (word ++ word') := by
  induction front with
  | done => exact back
  | letter plain _ ih => exact .letter plain ih
  | run spread _ ih =>
      rw [List.append_assoc]
      exact .run spread ih

theorem reverse (reads : Reads wild pattern word) : Reads wild pattern.reverse word.reverse := by
  induction reads with
  | done => exact .done
  | letter plain _ ih =>
      rw [List.reverse_cons, List.reverse_cons]
      exact ih.append (.letter plain .done)
  | run spread _ ih =>
      rw [List.reverse_cons, List.reverse_append, ← List.append_nil spread.reverse]
      exact ih.append (.run spread.reverse .done)

/-- A map of the letters that moves no letter to or from the wildcard keeps the reading. -/
theorem map {β : Type*} {wild' : β} (f : α → β) (fixed : f wild = wild')
    (kept : ∀ c ∈ pattern, f c = wild' → c = wild) (reads : Reads wild pattern word) :
    Reads wild' (pattern.map f) (word.map f) := by
  induction reads with
  | done => exact .done
  | @letter c pattern word plain _ ih =>
      refine .letter (fun same => plain (kept c (List.mem_cons_self ..) same)) (ih ?_)
      exact fun d there => kept d (List.mem_cons_of_mem c there)
  | run spread _ ih =>
      rw [List.map_cons, List.map_append, fixed]
      exact .run _ (ih fun d there => kept d (List.mem_cons_of_mem wild there))

/-- The wildcard may be written as any letter the pattern does not hold. -/
theorem rename_iff [DecidableEq α] {wild' : α} (fresh : wild' ∉ pattern) :
    Reads wild' (pattern.map fun c => if c = wild then wild' else c) word ↔
      Reads wild pattern word := by
  induction pattern generalizing word with
  | nil =>
      constructor
      · intro reads
        rw [reads.nil_left]
        exact .done
      · intro reads
        rw [reads.nil_left]
        exact .done
  | cons c pattern ih =>
      rw [List.mem_cons, not_or] at fresh
      rw [List.map_cons]
      by_cases starred : c = wild
      · rw [if_pos starred, starred]
        constructor
        · intro reads
          obtain ⟨spread, rest, rfl, tail⟩ := reads.run_inv
          exact .run spread ((ih fresh.2).mp tail)
        · intro reads
          obtain ⟨spread, rest, rfl, tail⟩ := reads.run_inv
          exact .run spread ((ih fresh.2).mpr tail)
      · rw [if_neg starred]
        constructor
        · intro reads
          obtain ⟨rest, rfl, tail⟩ := reads.letter_inv (Ne.symm fresh.1)
          exact .letter starred ((ih fresh.2).mp tail)
        · intro reads
          obtain ⟨rest, rfl, tail⟩ := reads.letter_inv starred
          exact .letter (Ne.symm fresh.1) ((ih fresh.2).mpr tail)

/-- Every letter of the pattern is found in the word. -/
theorem count_le [DecidableEq α] {c : α} (plain : c ≠ wild) (reads : Reads wild pattern word) :
    pattern.count c ≤ word.count c := by
  induction reads with
  | done => exact le_rfl
  | letter _ _ ih =>
      rw [List.count_cons, List.count_cons]
      exact Nat.add_le_add_right ih _
  | run spread _ ih =>
      rw [List.count_cons_of_ne (Ne.symm plain), List.count_append]
      exact ih.trans (Nat.le_add_left _ _)

end Reads

/-- Letters that are read stand for themselves. -/
theorem reads_append_iff {wild : α} {front pattern word : List α} (plain : wild ∉ front) :
    Reads wild (front ++ pattern) (front ++ word) ↔ Reads wild pattern word := by
  induction front with
  | nil => rfl
  | cons c front ih =>
      rw [List.mem_cons, not_or] at plain
      rw [List.cons_append, List.cons_append, ← ih plain.2]
      constructor
      · intro reads
        obtain ⟨_, same, tail⟩ := reads.letter_inv (Ne.symm plain.1)
        cases same
        exact tail
      · exact .letter (Ne.symm plain.1)

/-! ### The pieces between the wildcards -/

/-- The pieces stand in the word one after the other: the first at its start, the last at its end. -/
def Fits : List (List α) → List α → Prop
  | [], _ => False
  | [last], word => word = last
  | piece :: next :: more, word =>
      ∃ spread rest, word = piece ++ (spread ++ rest) ∧ Fits (next :: more) rest

/-- The pieces stand in the word one after the other, the last at its end. -/
def Trails (pieces : List (List α)) (word : List α) : Prop :=
  ∃ spread rest, word = spread ++ rest ∧ Fits pieces rest

theorem Trails.absorb {pieces : List (List α)} {word : List α} (front : List α)
    (trails : Trails pieces word) : Trails pieces (front ++ word) := by
  obtain ⟨spread, rest, rfl, fits⟩ := trails
  exact ⟨front ++ spread, rest, (List.append_assoc ..).symm, fits⟩

theorem fits_cons_iff {piece next : List α} {more : List (List α)} {word : List α} :
    Fits (piece :: next :: more) word ↔ ∃ rest, word = piece ++ rest ∧ Trails (next :: more) rest := by
  constructor
  · intro fits
    obtain ⟨spread, rest, rfl, tail⟩ := fits
    exact ⟨_, rfl, spread, rest, rfl, tail⟩
  · intro split
    obtain ⟨_, rfl, spread, rest, rfl, tail⟩ := split
    exact ⟨spread, rest, rfl, tail⟩

theorem fits_modifyHead {c : α} {pieces : List (List α)} {word : List α} :
    Fits (pieces.modifyHead (List.cons c)) word ↔ ∃ rest, word = c :: rest ∧ Fits pieces rest := by
  match pieces with
  | [] => simp [Fits]
  | [last] => simp [Fits]
  | piece :: next :: more =>
      simp only [List.modifyHead_cons, fits_cons_iff]
      constructor
      · intro split
        obtain ⟨rest, rfl, trails⟩ := split
        exact ⟨piece ++ rest, rfl, rest, rfl, trails⟩
      · intro split
        obtain ⟨_, rfl, rest, rfl, trails⟩ := split
        exact ⟨rest, rfl, trails⟩

/-- A word reads as a pattern exactly when it holds the pieces between the wildcards. -/
theorem reads_iff_fits [DecidableEq α] {wild : α} {pattern word : List α} :
    Reads wild pattern word ↔ Fits (pattern.splitOn wild) word := by
  induction pattern generalizing word with
  | nil =>
      rw [List.splitOn_nil]
      constructor
      · exact Reads.nil_left
      · intro fits
        cases fits
        exact .done
  | cons c pattern ih =>
      rw [List.splitOn_cons_eq_if_modifyHead]
      by_cases starred : c = wild
      · subst starred
        rw [if_pos (beq_self_eq_true c)]
        obtain ⟨next, more, pieces⟩ := List.exists_cons_of_ne_nil (List.splitOn_ne_nil c pattern)
        rw [pieces, fits_cons_iff]
        constructor
        · intro reads
          obtain ⟨spread, rest, rfl, tail⟩ := reads.run_inv
          exact ⟨_, rfl, spread, rest, rfl, pieces ▸ ih.mp tail⟩
        · intro split
          obtain ⟨_, rfl, spread, rest, rfl, tail⟩ := split
          exact .run spread (ih.mpr (pieces ▸ tail))
      · rw [if_neg (by simpa using starred), fits_modifyHead]
        constructor
        · intro reads
          obtain ⟨rest, rfl, tail⟩ := reads.letter_inv starred
          exact ⟨rest, rfl, ih.mp tail⟩
        · intro split
          obtain ⟨rest, rfl, tail⟩ := split
          exact .letter starred (ih.mpr tail)

/-- The pieces with a spread between each two of them. -/
def weave : List (List α) → List (List α) → List α
  | [], _ => []
  | [last], _ => last
  | piece :: _ :: _, [] => piece
  | piece :: next :: more, spread :: spreads => piece ++ (spread ++ weave (next :: more) spreads)

/-- A word holds the pieces exactly when it is the pieces, one spread in each gap. -/
theorem fits_iff_weave {pieces : List (List α)} {word : List α} :
    Fits pieces word ↔ ∃ spreads, spreads.length + 1 = pieces.length ∧ weave pieces spreads = word := by
  induction pieces generalizing word with
  | nil => simp [Fits]
  | cons piece pieces ih =>
      cases pieces with
      | nil =>
          constructor
          · rintro rfl
            exact ⟨[], rfl, rfl⟩
          · rintro ⟨spreads, _, rfl⟩
            rfl
      | cons next more =>
          constructor
          · rintro ⟨spread, rest, rfl, fits⟩
            obtain ⟨spreads, gaps, rfl⟩ := ih.mp fits
            exact ⟨spread :: spreads, congrArg (· + 1) gaps, rfl⟩
          · rintro ⟨spreads, gaps, rfl⟩
            cases spreads with
            | nil => cases gaps
            | cons spread spreads => exact ⟨spread, _, rfl, ih.mpr ⟨spreads, Nat.succ.inj gaps, rfl⟩⟩

theorem trails_singleton_iff {last word : List α} : Trails [last] word ↔ last <:+ word := by
  constructor
  · intro trails
    obtain ⟨spread, rest, rfl, rfl⟩ := trails
    exact ⟨spread, rfl⟩
  · intro ends
    obtain ⟨spread, rfl⟩ := ends
    exact ⟨spread, last, rfl, rfl⟩

/-! ### The greedy matcher -/

section Greedy

variable [DecidableEq α]

/-- What is left of `word` after a piece it starts with. -/
def pastFront (piece word : List α) : Option (List α) :=
  if piece <+: word then some (word.drop piece.length) else none

/-- What is left of `word` after the leftmost occurrence of a piece. -/
def pastFirst (piece : List α) : List α → Option (List α)
  | [] => pastFront piece []
  | c :: word => (pastFront piece (c :: word)).orElse fun _ => pastFirst piece word

/-- Anchored at both ends: the first piece is cut off the front, each next one is looked up from
where the last one ended, and the last one is what the word ends with. -/
def greedy (pieces : List (List α)) (word : List α) : Bool :=
  match pieces with
  | [] => false
  | first :: tail =>
      match pastFront first word with
      | none => false
      | some rest =>
          match tail.getLast? with
          | none => rest.isEmpty
          | some last =>
              match tail.dropLast.foldlM (fun rest middle => pastFirst middle rest) rest with
              | none => false
              | some rest => last.isSuffixOf rest

theorem pastFront_eq_some {piece word rest : List α} :
    pastFront piece word = some rest ↔ word = piece ++ rest := by
  rw [pastFront]
  split
  · rename_i front
    obtain ⟨back, rfl⟩ := front
    simp [eq_comm]
  · rename_i front
    simp only [reduceCtorEq, false_iff]
    intro same
    exact front ⟨rest, same.symm⟩

theorem pastFirst_sound {piece word rest : List α} (found : pastFirst piece word = some rest) :
    ∃ spread, word = spread ++ (piece ++ rest) := by
  induction word with
  | nil =>
      have front : [] = piece ++ rest := pastFront_eq_some.mp found
      exact ⟨[], front⟩
  | cons c word ih =>
      rw [pastFirst] at found
      cases here : pastFront piece (c :: word) with
      | some left =>
          rw [here] at found
          cases found
          have front := pastFront_eq_some.mp here
          exact ⟨[], front⟩
      | none =>
          rw [here] at found
          obtain ⟨spread, same⟩ := ih found
          exact ⟨c :: spread, congrArg (List.cons c) same⟩

/-- The leftmost occurrence leaves the most: every other one ends further on. -/
theorem pastFirst_leaves_most (piece spread rest : List α) :
    ∃ more, pastFirst piece (spread ++ (piece ++ rest)) = some (more ++ rest) := by
  induction spread with
  | nil =>
      have front : pastFront piece (piece ++ rest) = some rest := pastFront_eq_some.mpr rfl
      refine ⟨[], ?_⟩
      cases whole : piece ++ rest with
      | nil => simpa only [List.nil_append, whole, pastFirst] using front
      | cons c word =>
          rw [whole] at front
          simp only [List.nil_append, pastFirst, front, Option.orElse_some]
  | cons c spread ih =>
      rw [List.cons_append, pastFirst]
      cases here : pastFront piece (c :: (spread ++ (piece ++ rest))) with
      | none => simpa only [Option.orElse_none] using ih
      | some left =>
          -- found further left: what is left then ends with the `rest` of the other occurrence
          have split := pastFront_eq_some.mp here
          have long : rest.length ≤ left.length := by
            have lengths := congrArg List.length split
            simp only [List.length_cons, List.length_append] at lengths
            omega
          have ends : rest <:+ c :: (spread ++ (piece ++ rest)) :=
            ⟨c :: (spread ++ piece), by simp⟩
          obtain ⟨more, rfl⟩ := List.suffix_of_suffix_length_le ends ⟨piece, split.symm⟩ long
          exact ⟨more, rfl⟩

theorem trails_cons_iff {piece next : List α} {more : List (List α)} {word : List α} :
    Trails (piece :: next :: more) word ↔
      ∃ rest, pastFirst piece word = some rest ∧ Trails (next :: more) rest := by
  constructor
  · intro trails
    obtain ⟨spread, _, rfl, fits⟩ := trails
    obtain ⟨rest, rfl, tail⟩ := fits_cons_iff.mp fits
    obtain ⟨front, found⟩ := pastFirst_leaves_most piece spread rest
    exact ⟨_, found, tail.absorb front⟩
  · intro split
    obtain ⟨rest, found, tail⟩ := split
    obtain ⟨spread, rfl⟩ := pastFirst_sound found
    exact ⟨spread, _, rfl, fits_cons_iff.mpr ⟨rest, rfl, tail⟩⟩

/-- Looking each piece up from left to right finds the pieces whenever they are there. -/
theorem trails_iff_lookup (middles : List (List α)) (last word : List α) :
    Trails (middles ++ [last]) word ↔
      ∃ rest, middles.foldlM (fun rest middle => pastFirst middle rest) word = some rest ∧
        last <:+ rest := by
  induction middles generalizing word with
  | nil => simpa [List.foldlM] using trails_singleton_iff
  | cons middle middles ih =>
      obtain ⟨next, more, tail⟩ : ∃ next more, middles ++ [last] = next :: more :=
        List.exists_cons_of_ne_nil (by simp)
      rw [List.cons_append, tail, trails_cons_iff, ← tail]
      simp only [ih, List.foldlM_cons, Option.bind_eq_bind, Option.bind_eq_some_iff]
      constructor
      · intro split
        obtain ⟨rest, found, left, looked, ends⟩ := split
        exact ⟨left, ⟨rest, found, looked⟩, ends⟩
      · intro split
        obtain ⟨left, ⟨rest, found, looked⟩, ends⟩ := split
        exact ⟨rest, found, left, looked, ends⟩

theorem greedy_iff_fits {pieces : List (List α)} {word : List α} :
    greedy pieces word = true ↔ Fits pieces word := by
  match pieces with
  | [] => simp [greedy, Fits]
  | [only] =>
      cases front : pastFront only word with
      | none =>
          simp only [greedy, front, Bool.false_eq_true, Fits, false_iff]
          intro same
          have found := pastFront_eq_some.mpr (same.trans (List.append_nil only).symm)
          rw [front] at found
          cases found
      | some rest =>
          have split := pastFront_eq_some.mp front
          simp only [greedy, front, List.getLast?_nil, List.isEmpty_iff, Fits]
          rw [split]
          exact List.append_right_eq_self.symm
  | first :: next :: more =>
      obtain ⟨middles, last, tail⟩ : ∃ middles last, next :: more = middles ++ [last] :=
        ⟨_, _, (List.dropLast_append_getLast (List.cons_ne_nil next more)).symm⟩
      rw [fits_cons_iff, tail]
      simp only [trails_iff_lookup]
      cases front : pastFront first word with
      | none =>
          simp only [greedy, front, Bool.false_eq_true, false_iff]
          intro split
          obtain ⟨rest, same, _⟩ := split
          rw [pastFront_eq_some.mpr same] at front
          cases front
      | some rest =>
          have split := pastFront_eq_some.mp front
          subst split
          simp only [greedy, front, List.getLast?_append, List.getLast?_singleton,
            Option.some_or, List.dropLast_concat]
          cases looked : middles.foldlM (fun rest middle => pastFirst middle rest) rest with
          | none => simp [looked]
          | some left => simp [looked]

end Greedy

/-! ### The matcher with one fallback mark -/

/-- The mark goes one letter on when the pattern does not read what is left. -/
theorem reads_tail_iff {wild : α} {pattern word after front : List α} {read : Nat} (plain : wild ∉ front)
    (split : after = front ++ pattern) (stands : word = front ++ word.drop read)
    (fails : ¬ Reads wild pattern (word.drop read)) :
    Reads wild (wild :: after) word.tail ↔ Reads wild (wild :: after) word := by
  constructor
  · intro reads
    cases word with
    | nil => exact reads
    | cons c word => exact reads.absorb [c]
  · intro reads
    obtain ⟨spread, rest, same, tail⟩ := reads.run_inv
    cases spread with
    | nil =>
        rw [split, show rest = front ++ word.drop read from same.symm.trans stands] at tail
        exact absurd ((reads_append_iff plain).mp tail) fails
    | cons c spread =>
        rw [same]
        exact .run spread tail

/-- A second wildcard: the first need not be moved again. -/
theorem reads_second_iff {wild : α} {word rest front : List α} {read : Nat} (plain : wild ∉ front)
    (stands : word = front ++ word.drop read) :
    Reads wild (wild :: rest) (word.drop read) ↔
      Reads wild (wild :: (front ++ wild :: rest)) word := by
  constructor
  · intro reads
    rw [stands]
    exact ((reads_append_iff plain).mpr reads).skip
  · intro reads
    obtain ⟨spread, tail, same, inner⟩ := reads.run_inv
    obtain ⟨back, split, outer⟩ : ∃ back, tail = front ++ back ∧ Reads wild (wild :: rest) back := by
      clear same stands reads
      induction front generalizing tail with
      | nil => exact ⟨tail, rfl, inner⟩
      | cons c front ih =>
          rw [List.mem_cons, not_or] at plain
          obtain ⟨more, rfl, after⟩ := inner.letter_inv (Ne.symm plain.1)
          obtain ⟨back, rfl, outer⟩ := ih plain.2 more after
          exact ⟨back, rfl, outer⟩
    -- both stand at the end of the word, and the one the mark leaves is the longer
    have ends : back <:+ word := ⟨spread ++ front, by rw [same, split, List.append_assoc]⟩
    have ends' : word.drop read <:+ word := List.drop_suffix read word
    have long : back.length ≤ (word.drop read).length := by
      have lengths := congrArg List.length same
      have lengths' := congrArg List.length stands
      rw [split] at lengths
      simp only [List.length_append] at lengths lengths'
      omega
    obtain ⟨more, more_eq⟩ := List.suffix_of_suffix_length_le ends ends' long
    rw [← more_eq]
    exact outer.absorb more

section Marked

variable [DecidableEq α]

/-- One pass over the word that remembers the last wildcard only: `star` is the pattern after it,
`word` what stands from its mark on (or the whole word), and `read` how much of that is read. A letter
that does not agree sends the mark one letter on. -/
def markedFrom (wild : α) (pattern word : List α) (read : Nat) (star : Option (List α)) : Bool :=
  match _left : word.drop read, pattern with
  | [], pattern => pattern.all fun c => c == wild
  | d :: _, c :: rest =>
      if c = wild then markedFrom wild rest (word.drop read) 0 (some rest)
      else if c = d then markedFrom wild rest word (read + 1) star
      else
        match star with
        | some after => markedFrom wild after word.tail 0 (some after)
        | none => false
  | _ :: _, [] =>
      match star with
      | some after => markedFrom wild after word.tail 0 (some after)
      | none => false
termination_by (word.length, pattern.length)
decreasing_by
  · have short : (word.drop read).length ≤ word.length := by simp
    rcases short.lt_or_eq with less | same
    · exact .left _ _ less
    · rw [same]
      exact .right _ (by simp)
  · exact .right _ (by simp)
  all_goals
    refine .left _ _ ?_
    cases word with
    | nil => simp at _left
    | cons => simp

def marked (wild : α) (pattern word : List α) : Bool := markedFrom wild pattern word 0 none

variable {wild : α} {pattern word : List α}

theorem reads_nil_iff : Reads wild pattern [] ↔ pattern.all (fun c => c == wild) = true := by
  induction pattern with
  | nil => exact ⟨fun _ => rfl, fun _ => .done⟩
  | cons c pattern ih =>
      rw [List.all_cons, Bool.and_eq_true, ← ih, beq_iff_eq]
      constructor
      · intro reads
        by_cases starred : c = wild
        · subst starred
          obtain ⟨spread, rest, split, tail⟩ := reads.run_inv
          rw [(List.append_eq_nil_iff.mp split.symm).2] at tail
          exact ⟨rfl, tail⟩
        · obtain ⟨rest, split, _⟩ := reads.letter_inv starred
          cases split
      · intro stars
        rw [stars.1]
        exact stars.2.skip

/-- The pattern after a wildcard is no longer than what it reads, stars apart. -/
theorem Reads.letters_le (reads : Reads wild pattern word) :
    (pattern.filter fun c => c != wild).length ≤ word.length := by
  induction reads with
  | done => exact le_rfl
  | letter plain _ ih =>
      rw [List.filter_cons_of_pos (by simpa using plain)]
      exact Nat.succ_le_succ ih
  | run spread _ ih =>
      rw [List.filter_cons_of_neg (by simp), List.length_append]
      exact ih.trans (Nat.le_add_left _ _)

/-- What the marks promise: the letters between the last wildcard and the pattern are those read. -/
def Marks (wild : α) (pattern word : List α) (read : Nat) : Option (List α) → Prop
  | none => True
  | some after => ∃ front, wild ∉ front ∧ after = front ++ pattern ∧ word = front ++ word.drop read

/-- What is still to be decided. -/
def Owed (wild : α) (pattern word : List α) (read : Nat) : Option (List α) → Prop
  | none => Reads wild pattern (word.drop read)
  | some after => Reads wild (wild :: after) word

theorem markedFrom_iff {read : Nat} {star : Option (List α)} (marks : Marks wild pattern word read star) :
    markedFrom wild pattern word read star = true ↔ Owed wild pattern word read star := by
  fun_induction markedFrom wild pattern word read star with
  | case1 word read star pattern left =>
      cases star with
      | none => rw [Owed, left, reads_nil_iff]
      | some after =>
          obtain ⟨front, plain, rfl, stands⟩ := marks
          rw [left, List.append_nil] at stands
          subst stands
          constructor
          · intro stars
            have tail := (reads_append_iff plain).mpr (reads_nil_iff.mpr stars)
            rw [List.append_nil] at tail
            exact tail.skip
          · intro reads
            have letters := reads.letters_le
            have kept : (word.filter fun c => c != wild) = word := by
              refine List.filter_eq_self.mpr fun c there => bne_iff_ne.mpr ?_
              rintro rfl
              exact plain there
            rw [List.filter_cons_of_neg (by simp), List.filter_append, List.length_append,
              kept] at letters
            have none_ : (pattern.filter fun c => c != wild) = [] :=
              List.length_eq_zero_iff.mp (by omega)
            simpa using List.filter_eq_nil_iff.mp none_
  | case2 word read star d tail rest left ih =>
      rw [ih ⟨[], List.not_mem_nil, rfl, rfl⟩, Owed]
      cases star with
      | none => rfl
      | some after =>
          obtain ⟨front, plain, rfl, stands⟩ := marks
          exact reads_second_iff plain stands
  | case3 word read star tail c rest letter left ih =>
      have next : word.drop (read + 1) = tail := by
        rw [← List.drop_drop, left]
        rfl
      cases star with
      | none =>
          rw [ih trivial, Owed, Owed, next, left]
          constructor
          · exact .letter letter
          · intro reads
            obtain ⟨_, same, inner⟩ := reads.letter_inv letter
            cases same
            exact inner
      | some after =>
          obtain ⟨front, plain, split, stands⟩ := marks
          refine ih ⟨front ++ [c], ?_, ?_, ?_⟩
          · simpa using ⟨plain, Ne.symm letter⟩
          · rw [split, List.append_assoc]
            rfl
          · rw [next, List.append_assoc]
            exact stands.trans (by rw [left]; rfl)
  | case4 word read d tail c rest left letter differ after ih =>
      obtain ⟨front, plain, split, stands⟩ := marks
      rw [ih ⟨[], List.not_mem_nil, rfl, rfl⟩, Owed, Owed]
      refine reads_tail_iff plain split stands fun reads => ?_
      obtain ⟨_, same, _⟩ := reads.letter_inv letter
      rw [left] at same
      exact differ (List.cons.inj same).1.symm
  | case5 word read d tail c rest left letter differ =>
      rw [Owed, left]
      simp only [Bool.false_eq_true, false_iff]
      intro reads
      obtain ⟨_, same, _⟩ := reads.letter_inv letter
      exact differ (List.cons.inj same).1.symm
  | case6 word read d tail left after ih =>
      obtain ⟨front, plain, split, stands⟩ := marks
      rw [ih ⟨[], List.not_mem_nil, rfl, rfl⟩, Owed, Owed]
      refine reads_tail_iff plain split stands fun reads => ?_
      rw [reads.nil_left] at left
      cases left
  | case7 word read d tail left =>
      rw [Owed, left]
      simp only [Bool.false_eq_true, false_iff]
      intro reads
      cases reads.nil_left

/-- One mark is enough: the matcher never has to move an earlier wildcard. -/
theorem marked_iff_reads : marked wild pattern word = true ↔ Reads wild pattern word :=
  markedFrom_iff trivial

end Marked

end OpenCargo.Lib
