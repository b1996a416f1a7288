/-
Module: OpenCargo.Access.Globs
Purpose: The loop of a scope's name pattern (`crates/domain/src/scope.rs`), index by index: it ends on every
  input, with what the pattern denotes, and with what the compiled form of the routing rules
  (`crates/domain/src/routing.rs`) says of the same text.
Trusted boundary: none
Main exports: Cursor.step, Cursor.run, run_start, globs_agree
-/
import OpenCargo.Access.Scope

namespace OpenCargo.Access

open OpenCargo.Lib

/-! ### The loop -/

/-- Where the loop stands in the pattern and in the subject, the last star it passed, and the mark it falls
back to. -/
structure Cursor where
  pi : Nat
  si : Nat
  star : Option Nat
  mark : Nat
deriving Repr, DecidableEq, Inhabited

namespace Cursor

def start : Cursor := ⟨0, 0, none, 0⟩

variable (pattern subject : Text)

/-- One turn of the loop, or the answer. -/
def step (cursor : Cursor) : Cursor ⊕ Bool :=
  if cursor.si < subject.length then
    if pattern[cursor.pi]? = some '*' then
      .inl { cursor with star := some cursor.pi, pi := cursor.pi + 1, mark := cursor.si }
    else if cursor.pi < pattern.length ∧ pattern[cursor.pi]? = subject[cursor.si]? then
      .inl { cursor with pi := cursor.pi + 1, si := cursor.si + 1 }
    else
      match cursor.star with
      | some starred =>
          .inl { cursor with pi := starred + 1, mark := cursor.mark + 1, si := cursor.mark + 1 }
      | none => .inr false
  else .inr ((pattern.drop cursor.pi).all fun c => c == '*')

/-- The loop, for as many turns. -/
def run : Nat → Cursor → Option Bool
  | 0, _ => none
  | turns + 1, cursor =>
      match cursor.step pattern subject with
      | .inl next => run turns next
      | .inr answer => some answer

/-- The loop ends with an answer. -/
def Ends (cursor : Cursor) (answer : Bool) : Prop := ∃ turns, run pattern subject turns cursor = some answer

variable {pattern subject} {cursor next : Cursor} {answer : Bool}

theorem Ends.inl (steps : cursor.step pattern subject = .inl next) (ends : next.Ends pattern subject answer) :
    cursor.Ends pattern subject answer := by
  obtain ⟨turns, ran⟩ := ends
  refine ⟨turns + 1, ?_⟩
  rw [run, steps]
  exact ran

theorem Ends.inr (steps : cursor.step pattern subject = .inr answer) : cursor.Ends pattern subject answer := by
  refine ⟨1, ?_⟩
  rw [run, steps]

/-- What the indices stand for: the pattern that is left, the subject from the mark on, how much of that is
read, and the pattern after the star. -/
structure Stands (pattern subject : Text) (cursor : Cursor) (left word : Text) (read : Nat)
    (star : Option Text) : Prop where
  left : left = pattern.drop cursor.pi
  word : word = subject.drop cursor.mark
  read : cursor.si = cursor.mark + read
  star : star = cursor.star.map fun starred => pattern.drop (starred + 1)

namespace Stands

variable {left word : Text} {read : Nat} {star : Option Text}

theorem unread (stands : cursor.Stands pattern subject left word read star) :
    word.drop read = subject.drop cursor.si := by
  rw [stands.word, List.drop_drop, stands.read]

end Stands

theorem drop_eq_cons {text rest : Text} {i : Nat} {c : Char} (left : text.drop i = c :: rest) :
    text[i]? = some c ∧ i < text.length ∧ text.drop (i + 1) = rest := by
  have found : text[i]? = some c := by
    rw [← List.head?_drop, left]
    rfl
  refine ⟨found, (List.getElem?_eq_some_iff.mp found).1, ?_⟩
  rw [← List.tail_drop, left]
  rfl

/-- Neither a star nor the letter of the subject stands at the cursor. -/
def Blocked (pattern subject : Text) (cursor : Cursor) : Prop :=
  pattern[cursor.pi]? ≠ some '*' ∧ ¬(cursor.pi < pattern.length ∧ pattern[cursor.pi]? = subject[cursor.si]?)

theorem blocked_of_letter {c d : Char} (reads : pattern[cursor.pi]? = some c) (found : subject[cursor.si]? = some d)
    (letter : c ≠ '*') (differ : c ≠ d) : Blocked pattern subject cursor := by
  rw [Blocked, reads, found]
  exact ⟨fun same => letter (Option.some.inj same), fun same => differ (Option.some.inj same.2)⟩

theorem blocked_of_end (past : pattern.length ≤ cursor.pi) : Blocked pattern subject cursor := by
  rw [Blocked, List.getElem?_eq_none past]
  exact ⟨nofun, fun same => absurd same.1 (by omega)⟩

theorem step_blocked {starred : Nat} (inside : cursor.si < subject.length) (blocked : Blocked pattern subject cursor)
    (marked : cursor.star = some starred) : cursor.step pattern subject =
      .inl ⟨starred + 1, cursor.mark + 1, some starred, cursor.mark + 1⟩ := by
  rw [step, if_pos inside, if_neg blocked.1, if_neg blocked.2, marked]

theorem step_lost (inside : cursor.si < subject.length) (blocked : Blocked pattern subject cursor)
    (unmarked : cursor.star = none) : cursor.step pattern subject = .inr false := by
  rw [step, if_pos inside, if_neg blocked.1, if_neg blocked.2, unmarked]

theorem step_letter {c : Char} (inside : cursor.si < subject.length) (reads : pattern[cursor.pi]? = some c)
    (found : subject[cursor.si]? = some c) (letter : c ≠ '*') (within : cursor.pi < pattern.length) :
    cursor.step pattern subject = .inl ⟨cursor.pi + 1, cursor.si + 1, cursor.star, cursor.mark⟩ := by
  have plain : pattern[cursor.pi]? ≠ some '*' := by
    rw [reads]
    exact fun same => letter (Option.some.inj same)
  rw [step, if_pos inside, if_neg plain, if_pos ⟨within, reads.trans found.symm⟩]

theorem Stands.back {left word : Text} {read : Nat} {after : Text}
    (stands : cursor.Stands pattern subject left word read (some after)) :
    ∃ starred, cursor.star = some starred ∧
      Stands pattern subject ⟨starred + 1, cursor.mark + 1, some starred, cursor.mark + 1⟩ after word.tail 0
        (some after) := by
  obtain ⟨starred, marked, rfl⟩ := Option.map_eq_some_iff.mp stands.star.symm
  refine ⟨starred, marked, rfl, ?_, rfl, rfl⟩
  rw [stands.word, List.tail_drop]

theorem ends_marked {left word : Text} {read : Nat} {star : Option Text}
    (stands : cursor.Stands pattern subject left word read star) :
    cursor.Ends pattern subject (markedFrom '*' left word read star) := by
  fun_induction markedFrom '*' left word read star generalizing cursor with
  | case1 word read star left done =>
      rw [stands.unread, List.drop_eq_nil_iff] at done
      refine .inr ?_
      rw [step, if_neg (by omega), stands.left]
  | case2 word read star d tail rest here ih =>
      rw [stands.unread] at here
      obtain ⟨_, inside, _⟩ := drop_eq_cons here
      obtain ⟨starred, _, after⟩ := drop_eq_cons stands.left.symm
      refine .inl (by rw [step, if_pos inside, if_pos starred]) (ih ⟨after.symm, stands.unread, rfl, ?_⟩)
      exact congrArg some after.symm
  | case3 word read star tail c rest letter here ih =>
      rw [stands.unread] at here
      obtain ⟨found, inside, _⟩ := drop_eq_cons here
      obtain ⟨reads, within, after⟩ := drop_eq_cons stands.left.symm
      refine .inl (step_letter inside reads found letter within) (ih ⟨after.symm, stands.word, ?_, stands.star⟩)
      exact congrArg (· + 1) stands.read
  | case4 word read d tail c rest here letter differ after ih =>
      rw [stands.unread] at here
      obtain ⟨found, inside, _⟩ := drop_eq_cons here
      obtain ⟨reads, _, _⟩ := drop_eq_cons stands.left.symm
      obtain ⟨starred, marked, next⟩ := stands.back
      exact .inl (step_blocked inside (blocked_of_letter reads found letter differ) marked) (ih next)
  | case5 word read d tail c rest here letter differ =>
      rw [stands.unread] at here
      obtain ⟨found, inside, _⟩ := drop_eq_cons here
      obtain ⟨reads, _, _⟩ := drop_eq_cons stands.left.symm
      have unmarked := Option.map_eq_none_iff.mp stands.star.symm
      exact .inr (step_lost inside (blocked_of_letter reads found letter differ) unmarked)
  | case6 word read d tail here after ih =>
      rw [stands.unread] at here
      obtain ⟨_, inside, _⟩ := drop_eq_cons here
      obtain ⟨starred, marked, next⟩ := stands.back
      have past := List.drop_eq_nil_iff.mp stands.left.symm
      exact .inl (step_blocked inside (blocked_of_end past) marked) (ih next)
  | case7 word read d tail here =>
      rw [stands.unread] at here
      obtain ⟨_, inside, _⟩ := drop_eq_cons here
      have past := List.drop_eq_nil_iff.mp stands.left.symm
      have unmarked := Option.map_eq_none_iff.mp stands.star.symm
      exact .inr (step_lost inside (blocked_of_end past) unmarked)

end Cursor

theorem run_start (pattern : NamePattern) (subject : Text) :
    Cursor.start.Ends pattern.raw subject (pattern.matches subject) :=
  Cursor.ends_marked ⟨rfl, rfl, rfl, rfl⟩

/-! ### The two engines -/

/-- The literal pieces of a pattern, in order, with a text of any kind in each gap. -/
def Spells (pattern name : Text) : Prop :=
  ∃ spreads : List Text, spreads.length + 1 = (pattern.splitOn '*').length ∧
    weave (pattern.splitOn '*') spreads = name

theorem spells_iff_reads {pattern name : Text} : Spells pattern name ↔ Reads '*' pattern name :=
  fits_iff_weave.symm.trans reads_iff_fits.symm

theorem parse_ok {text : Text} {pattern : NamePattern} (parsed : NamePattern.parse text = .ok pattern) :
    pattern = ⟨text⟩ := by
  rw [NamePattern.parse] at parsed
  iterate 4
    split at parsed
    · cases parsed
  exact (Except.ok.inj parsed).symm

/-- A scope's pattern matches what it spells, its loop ends with that answer on every name, and the compiled
form of the same text, taken as it is, answers the same. -/
theorem globs_agree {text : Text} {pattern : NamePattern} {routed : Routing.Pattern}
    (parsed : NamePattern.parse text = .ok pattern) (compiled : Routing.compilePattern text id = .ok routed)
    (name : Text) :
    (pattern.matches name = true ↔ Spells text name) ∧ routed.matches name = pattern.matches name ∧
      Cursor.start.Ends text name (pattern.matches name) := by
  obtain rfl := parse_ok parsed
  have spelled : NamePattern.matches ⟨text⟩ name = true ↔ Spells text name :=
    marked_iff_reads.trans spells_iff_reads.symm
  obtain ⟨_, fresh, cut⟩ := Routing.compilePattern_ok compiled
  have routes : routed.matches name = true ↔ Spells text name := by
    rw [cut]
    calc greedy ((id (text.map Routing.veil)).splitOn Routing.placeholder) name = true
        ↔ Fits ((text.map Routing.veil).splitOn Routing.placeholder) name := greedy_iff_fits
      _ ↔ Reads Routing.placeholder (text.map Routing.veil) name := reads_iff_fits.symm
      _ ↔ Reads '*' text name := Reads.rename_iff fresh
      _ ↔ Spells text name := spells_iff_reads.symm
  exact ⟨spelled, Bool.eq_iff_iff.mpr (routes.trans spelled.symm), run_start ⟨text⟩ name⟩

/-- Overlapping ends, and a piece that has to be looked up twice. -/
theorem globs_agree_on_repeats :
    (NamePattern.matches ⟨"a*ba*a".toList⟩ "abba".toList = true ↔ Spells "a*ba*a".toList "abba".toList) ∧
      Routing.Pattern.matches ⟨["a".toList, "ba".toList, "a".toList], "a*ba*a".toList⟩ "abba".toList =
        NamePattern.matches ⟨"a*ba*a".toList⟩ "abba".toList ∧
      Cursor.start.Ends "a*ba*a".toList "abba".toList (NamePattern.matches ⟨"a*ba*a".toList⟩ "abba".toList) := by
  refine globs_agree ?_ ?_ _
  · rfl
  · rfl

end OpenCargo.Access
