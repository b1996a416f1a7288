/-
Module: OpenCargo.Oci.Names
Purpose: What an image may be called (`crates/domain/src/names.rs`): the recogniser of one segment of a name against
  the language that its documentation states.
Trusted boundary: none
Main exports: isValidOciSegment, ociSegment, isValidOciSegment_iff
-/
import OpenCargo.Layout
import OpenCargo.Lib.Numerals
import OpenCargo.Lib.Runs
import OpenCargo.Lib.Utf8

namespace OpenCargo.Oci

open OpenCargo.Lib
open scoped Computability

/-! ### The recogniser -/

/-- `[a-z0-9]`, of a byte. -/
def isAlnum (b : UInt8) : Bool := (97 ≤ b && b ≤ 122) || (48 ≤ b && b ≤ 57)

/-- `[._-]`, of a byte. -/
def isSeparator (b : UInt8) : Bool := b == 46 || b == 95 || b == 45

def isValidOciSegment (segment : Text) : Bool :=
  let bytes := utf8 segment
  if bytes.isEmpty then false
  else if !bytes.head?.all isAlnum || !bytes.getLast?.all isAlnum then false
  else scan isAlnum isSeparator false bytes

/-! ### The language -/

/-- `[a-z0-9]`. -/
def alnum (c : Char) : Bool := c.isLower || c.isDigit

/-- `[._-]`. -/
def separator (c : Char) : Bool := c == '.' || c == '_' || c == '-'

/-- `[a-z0-9]+([._-][a-z0-9]+)*`. -/
def ociSegment : Language Char :=
  single alnum * (single alnum)∗ * (single separator * (single alnum * (single alnum)∗))∗

theorem isAlnum_not_separator {b : UInt8} (letter : isAlnum b = true) : isSeparator b = false := by
  rw [Bool.eq_false_iff, isSeparator]
  intro mark
  simp only [Bool.or_eq_true, beq_iff_eq] at mark
  rcases mark with (rfl | rfl) | rfl <;> exact absurd letter (by decide)

theorem isAlnum_byte {c : Char} (ascii : Ascii c) : isAlnum (UInt8.ofNat c.toNat) = alnum c := by
  have same := toNat_byte ascii
  rw [isAlnum, alnum, Char.isLower, Char.isDigit, Bool.eq_iff_iff]
  simp only [Bool.or_eq_true, Bool.and_eq_true, decide_eq_true_eq, UInt8.le_iff_toNat_le, same, ge_iff_le,
    UInt32.le_iff_toNat_le]
  rfl

theorem isSeparator_byte {c : Char} (ascii : Ascii c) : isSeparator (UInt8.ofNat c.toNat) = separator c := by
  have mark (d : Char) (ascii' : Ascii d) : (UInt8.ofNat c.toNat == UInt8.ofNat d.toNat) = (c == d) := by
    rw [Bool.eq_iff_iff, beq_iff_eq, beq_iff_eq]
    exact ⟨byte_inj ascii ascii', fun same => same ▸ rfl⟩
  have marks := congrArg₂ Bool.or (congrArg₂ Bool.or (mark '.' (by decide)) (mark '_' (by decide)))
    (mark '-' (by decide))
  exact marks

theorem not_letter_of_wide {c : Char} (wide : ¬Ascii c) : alnum c = false ∧ separator c = false := by
  have high : 128 ≤ c.toNat := Nat.le_of_not_lt wide
  have other (d : Char) (ascii : Ascii d) : (c == d) = false := beq_eq_false_iff_ne.mpr fun same => wide (same ▸ ascii)
  constructor
  · have small : c.isLower = false := by
      rw [Bool.eq_false_iff]
      intro lower
      have most : c.val ≤ 122 := by simpa [Char.isLower] using (Bool.and_eq_true_iff.mp lower).2
      have most : c.toNat ≤ 122 := UInt32.le_iff_toNat_le.mp most
      omega
    have sign : c.isDigit = false := by
      rw [Bool.eq_false_iff]
      intro digit
      have most := toNat_of_digit digit
      omega
    rw [alnum, small, sign, Bool.or_false]
  · rw [separator, other '.' (by decide), other '_' (by decide), other '-' (by decide)]
    rfl

theorem bytes_of_char (c : Char) :
    (∃ b, String.utf8EncodeChar c = [b] ∧ isAlnum b = alnum c ∧ isSeparator b = separator c) ∨
      (alnum c = false ∧ separator c = false ∧
        ∃ b rest, String.utf8EncodeChar c = b :: rest ∧ isAlnum b = false ∧ isSeparator b = false) := by
  by_cases ascii : Ascii c
  · exact .inl ⟨_, utf8EncodeChar_ascii ascii, isAlnum_byte ascii, isSeparator_byte ascii⟩
  · obtain ⟨b, rest, bytes⟩ := List.exists_cons_of_ne_nil (String.utf8EncodeChar_ne_nil (c := c))
    have high := high_of_mem_utf8EncodeChar ascii (b := b) (bytes ▸ List.mem_cons_self)
    obtain ⟨letter, mark⟩ := not_letter_of_wide ascii
    refine .inr ⟨letter, mark, b, rest, bytes, ?_, ?_⟩
    · simp only [isAlnum, Bool.or_eq_false_iff, Bool.and_eq_false_iff, decide_eq_false_iff_not, UInt8.le_iff_toNat_le]
      exact ⟨.inr (by simpa using by omega), .inr (by simpa using by omega)⟩
    · have other (d : UInt8) (low : d.toNat < 128) : (b == d) = false := by
        rw [beq_eq_false_iff_ne]
        rintro rfl
        omega
      rw [isSeparator, other 46 (by decide), other 95 (by decide), other 45 (by decide)]
      rfl

/-- The recogniser holds of exactly the segments that its documentation states. -/
theorem isValidOciSegment_iff (segment : Text) : isValidOciSegment segment = true ↔ segment ∈ ociSegment := by
  have language : segment ∈ ociSegment ↔ utf8 segment ∈ joined isAlnum isSeparator :=
    (flatMap_mem_joined bytes_of_char).symm
  rw [language, mem_joined_iff fun b => isAlnum_not_separator, isValidOciSegment]
  cases utf8 segment with
  | nil => simp
  | cons b bytes => simp [and_assoc]

end OpenCargo.Oci
