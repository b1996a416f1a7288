/-
Module: OpenCargo.Lib.Lines
Purpose: A text cut into its lines, and the lines written out again; and a text without the blanks at its
  ends.
Trusted boundary: none
Main exports: lines_flatMap, isWhitespace, trim, trim_eq_self
-/
import Mathlib.Data.List.Basic
import Mathlib.Data.List.DropRight

namespace OpenCargo.Lib

/-- A line without the carriage return before its end. -/
def stripCr (line : List Char) : List Char := if line.getLast? = some '\r' then line.dropLast else line

/-- `str::lines`. -/
def lines (text : List Char) : List (List Char) :=
  let pieces := text.splitOn '\n'
  pieces.dropLast.map stripCr ++ pieces.getLast?.toList.filter (!·.isEmpty)

theorem splitOn_flatMap {α : Type*} [DecidableEq α] {sep : α} {ls : List (List α)} (flat : ∀ l ∈ ls, sep ∉ l) :
    (ls.flatMap (· ++ [sep])).splitOn sep = ls ++ [[]] := by
  induction ls with
  | nil => simp
  | cons l ls ih =>
      have rest := ih fun other mem => flat other (List.mem_cons_of_mem _ mem)
      rw [List.flatMap_cons, List.append_assoc, List.singleton_append,
        List.splitOn_append_cons_self_of_not_mem (flat l List.mem_cons_self), rest, List.cons_append]

/-- Lines that were written out are read back. -/
theorem lines_flatMap {ls : List (List Char)} (flat : ∀ l ∈ ls, '\n' ∉ l) (plain : ∀ l ∈ ls, '\r' ∉ l) :
    lines (ls.flatMap (· ++ ['\n'])) = ls := by
  have kept : ls.map stripCr = ls := by
    refine List.map_congr_left (g := id) (fun l mem => ?_) |>.trans (List.map_id _)
    rw [stripCr, if_neg fun last => plain l mem (List.mem_of_getLast? last)]
    rfl
  rw [lines, splitOn_flatMap flat]
  simp [kept]

/-! ### Blanks -/

/-- `char::is_whitespace`: the characters with Unicode's `White_Space`. -/
def isWhitespace (c : Char) : Bool :=
  let n := c.toNat
  (9 ≤ n && n ≤ 13) || n = 0x20 || n = 0x85 || n = 0xA0 || n = 0x1680 || (0x2000 ≤ n && n ≤ 0x200A) ||
    n = 0x2028 || n = 0x2029 || n = 0x202F || n = 0x205F || n = 0x3000

/-- `str::trim`. -/
def trim (text : List Char) : List Char := (text.dropWhile isWhitespace).rdropWhile isWhitespace

section Ends

variable {text blanks : List Char}

theorem trim_append (blank : blanks.all isWhitespace = true) : trim (text ++ blanks) = trim text := by
  have each : ∀ c ∈ blanks, isWhitespace c = true := List.all_eq_true.mp blank
  rw [trim, trim, List.dropWhile_append]
  split
  · rename_i empty
    rw [List.isEmpty_iff.mp empty, List.dropWhile_eq_nil_iff.mpr each]
  · rw [List.rdropWhile, List.rdropWhile, List.reverse_append, List.dropWhile_append_of_pos]
    exact fun c mem => each c (List.mem_reverse.mp mem)

theorem trim_prepend (blank : blanks.all isWhitespace = true) : trim (blanks ++ text) = trim text := by
  rw [trim, List.dropWhile_append_of_pos (List.all_eq_true.mp blank), trim]

end Ends

/-- A text that neither begins nor ends with a blank is kept. -/
theorem trim_eq_self {text : List Char} (first : ∀ c ∈ text.head?, isWhitespace c = false)
    (last : ∀ c ∈ text.getLast?, isWhitespace c = false) : trim text = text := by
  have front : text.dropWhile isWhitespace = text := by
    cases text with
    | nil => rfl
    | cons c text => exact List.dropWhile_cons_of_neg (by simp [first c rfl])
  have back : text.rdropWhile isWhitespace = text := by
    rw [List.rdropWhile_eq_self_iff]
    intro some_
    simp [last _ (List.getLast?_eq_some_getLast some_)]
  rw [trim, front, back]

end OpenCargo.Lib
