/-
Module: OpenCargo.Lib.Numerals
Purpose: Decimal numerals as texts: which characters they are made of, what folding letters does to them, the
  zeros that pad one, and those that a machine reads.
Trusted boundary: none
Main exports: unpadded, unpadded_inj, parseU64, parseU64_toDigits
-/
import Mathlib

namespace OpenCargo.Lib

variable {c : Char}

theorem digit_of_mem_toDigits {n : Nat} (mem : c ∈ Nat.toDigits 10 n) : c.isDigit = true :=
  Nat.isDigit_of_mem_toDigits (by decide) (by decide) mem

theorem toNat_of_alpha (alpha : c.isAlpha = true) : 65 ≤ c.toNat := by
  simp only [Char.isAlpha, Char.isUpper, Char.isLower, Bool.or_eq_true, Bool.and_eq_true, decide_eq_true_eq,
    UInt32.le_iff_toNat_le] at alpha
  exact alpha.elim And.left fun small => Nat.le_trans (by decide) small.1

theorem toNat_of_digit (digit : c.isDigit = true) : c.toNat ≤ 57 := by
  simp only [Char.isDigit, Bool.and_eq_true, decide_eq_true_eq, UInt32.le_iff_toNat_le] at digit
  exact digit.2

theorem not_digit_of_alpha (alpha : c.isAlpha = true) : c.isDigit = false := by
  rw [Bool.eq_false_iff]
  intro digit
  exact absurd ((toNat_of_alpha alpha).trans (toNat_of_digit digit)) (by decide)

/-- The fold of letters leaves digits alone, -/
theorem toLower_digit (digit : c.isDigit = true) : c.toLower = c := by
  refine Char.toLower_eq_of_not_isUpper fun upper => ?_
  have alpha : c.isAlpha = true := by rw [Char.isAlpha, upper, Bool.true_or]
  rw [not_digit_of_alpha alpha] at digit
  cases digit

/-- and makes none. -/
theorem digit_toLower (c : Char) : c.toLower.isDigit = c.isDigit := by
  by_cases alpha : c.isAlpha = true
  · rw [not_digit_of_alpha alpha, not_digit_of_alpha (c.isAlpha_toLower_eq_isAlpha.trans alpha)]
  · have small : ¬c.isUpper = true := fun upper => alpha (by rw [Char.isAlpha, upper, Bool.true_or])
    rw [Char.toLower_eq_of_not_isUpper small]

/-- What is no letter is a fold of nothing else. -/
theorem toLower_mark {d : Char} (mark : d.isAlpha = false) : c.toLower = d ↔ c = d := by
  by_cases alpha : c.isAlpha = true
  · refine iff_of_false (fun same => ?_) fun same => ?_
    · rw [← same, Char.isAlpha_toLower_eq_isAlpha, alpha] at mark
      cases mark
    · rw [← same, alpha] at mark
      cases mark
  · have small : ¬c.isUpper = true := fun upper => alpha (by rw [Char.isAlpha, upper, Bool.true_or])
    rw [Char.toLower_eq_of_not_isUpper small]

/-- A numeral without the zeros that pad it. -/
def unpadded (numeral : List Char) : List Char := numeral.dropWhile (· == '0')

theorem padding (numeral : List Char) : ∃ n, numeral = List.replicate n '0' ++ unpadded numeral := by
  induction numeral with
  | nil => exact ⟨0, rfl⟩
  | cons c rest ih =>
      obtain ⟨n, same⟩ := ih
      by_cases zero : c = '0'
      · have cut : unpadded (c :: rest) = unpadded rest := List.dropWhile_cons_of_pos (by simpa using zero)
        exact ⟨n + 1, by rw [cut, List.replicate_succ, List.cons_append, ← same, zero]⟩
      · have kept : unpadded (c :: rest) = c :: rest := List.dropWhile_cons_of_neg (by simpa using zero)
        exact ⟨0, by rw [kept]; rfl⟩

/-- Numerals of one length are padded alike. -/
theorem unpadded_inj {a b : List Char} (same : unpadded a = unpadded b) (long : a.length = b.length) : a = b := by
  obtain ⟨m, paddedA⟩ := padding a
  obtain ⟨n, paddedB⟩ := padding b
  rw [paddedA, paddedB, same, List.length_append, List.length_append, List.length_replicate,
    List.length_replicate] at long
  rw [paddedA, paddedB, same, Nat.add_right_cancel long]

/-- `str::parse::<u64>`. -/
def parseU64 (t : List Char) : Option Nat :=
  let digits := match t with
    | '+' :: rest => rest
    | _ => t
  if digits.isEmpty || !digits.all Char.isDigit then none
  else
    let n := Nat.ofDigitChars 10 digits 0
    if n < 2 ^ 64 then some n else none

theorem parseU64_toDigits {n : Nat} (small : n < 2 ^ 64) : parseU64 (Nat.toDigits 10 n) = some n := by
  have digits : ∀ c ∈ Nat.toDigits 10 n, c.isDigit = true := fun _ mem => digit_of_mem_toDigits mem
  have unsigned : ∀ rest, Nat.toDigits 10 n ≠ '+' :: rest := by
    intro rest spelt
    have digit := digits '+' (spelt ▸ List.mem_cons_self)
    revert digit
    decide
  rw [parseU64]
  · have all : (Nat.toDigits 10 n).all Char.isDigit = true := List.all_eq_true.mpr digits
    simpa [all, Nat.toDigits_ne_nil, Nat.ofDigitChars_ten_toDigits] using small
  · exact unsigned

end OpenCargo.Lib
