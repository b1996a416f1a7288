/-
Module: OpenCargo.Policy.Age
Purpose: The durations a policy is configured with (`policy/age.rs`): a whole number of one unit, read
  from its text, rounded from a duration, and shown. What is shown is read back. The reader cuts the text
  one byte before its end, and panics where a character of more bytes is the last.
Trusted boundary: none
Main exports: Age.display, splitAt, Written, ages_are_judged_iff
-/
import OpenCargo.Layout
import OpenCargo.Lib.Lines
import OpenCargo.Lib.Numerals

namespace OpenCargo.Policy

open OpenCargo.Lib (trim trim_eq_self isWhitespace parseU64 parseU64_toDigits)
open OpenCargo.Keys (byteLength byteLength_append byteLength_cons)

/-! ### Ages -/

/-- The seconds of one unit. -/
def perUnit : Char → Option Nat
  | 's' => some 1
  | 'm' => some 60
  | 'h' => some 3600
  | 'd' => some 86400
  | _ => none

/-- A duration kept in its source form for display. -/
structure Age where
  secs : Nat
  unit : Char
  count : Nat
  whole : (perUnit unit).map (count * ·) = some secs
  small : secs < 2 ^ 64
deriving DecidableEq

/-- `str::split_at`: `none` where the byte is within a character or past the end, and the call panics. -/
def splitAt : Text → Nat → Option (Text × Text)
  | text, 0 => some ([], text)
  | [], _ + 1 => none
  | c :: text, at_ + 1 =>
      if c.utf8Size ≤ at_ + 1 then
        (splitAt text (at_ + 1 - c.utf8Size)).map fun (front, back) => (c :: front, back)
      else none

namespace Age

def invalid (s : Text) : Text :=
  "invalid age '".toList ++ s ++ "': expected a whole number of s, m, h or d (e.g. 48h, 7d)".toList

/-- What is made of the digits and the unit a text `s` was cut into. -/
def read (s digits : Text) (unit : Option Char) : Except Text Age :=
  match unit with
  | none => .error (invalid s)
  | some unit =>
      if digits.isEmpty || !digits.all Char.isDigit then .error (invalid s)
      else
        match parseU64 digits with
        | none => .error (invalid s)
        | some count =>
            match per : perUnit unit with
            | none => .error (invalid s)
            | some seconds =>
                if small : count * seconds < 2 ^ 64 then
                  .ok ⟨count * seconds, unit, count, by rw [per]; rfl, small⟩
                else .error (invalid s)

/-- `Age::from_str`; `none` where it panics. -/
def fromStr (raw : Text) : Option (Except Text Age) :=
  let s := trim raw
  (splitAt s (byteLength s - 1)).map fun (digits, unit) => read s digits unit.head?

/-- `Display`. -/
def display (age : Age) : Text := Nat.toDigits 10 age.count ++ [age.unit]

end Age

/-! ### Cutting a text one byte before its end -/

theorem splitAt_append (front back : Text) (n : Nat) :
    splitAt (front ++ back) (byteLength front + n) = (splitAt back n).map fun (a, b) => (front ++ a, b) := by
  induction front with
  | nil =>
      have none_ : byteLength [] + n = n := Nat.zero_add n
      rw [none_]
      simp
  | cons c front ih =>
      obtain ⟨size, sized⟩ : ∃ size, c.utf8Size = size + 1 := Nat.exists_eq_succ_of_ne_zero c.utf8Size_pos.ne'
      have first : byteLength (c :: front) + n = size + byteLength front + n + 1 := by
        rw [byteLength_cons, sized]
        omega
      have fits : c.utf8Size ≤ size + byteLength front + n + 1 := by omega
      have left : size + byteLength front + n + 1 - c.utf8Size = byteLength front + n := by omega
      rw [first, List.cons_append, splitAt, if_pos fits, left, ih]
      simp [Function.comp_def]

theorem splitAt_last (front : Text) (c : Char) :
    splitAt (front ++ [c]) (byteLength (front ++ [c]) - 1) =
      if c.utf8Size = 1 then some (front, [c]) else none := by
  obtain ⟨size, sized⟩ : ∃ size, c.utf8Size = size + 1 := Nat.exists_eq_succ_of_ne_zero c.utf8Size_pos.ne'
  have before : byteLength (front ++ [c]) - 1 = byteLength front + size := by
    rw [byteLength_append, byteLength_cons, sized]
    change byteLength front + (size + 1 + 0) - 1 = _
    omega
  rw [before, splitAt_append]
  cases size with
  | zero => simp [sized, splitAt]
  | succ size =>
      have within : ¬ c.utf8Size ≤ size + 1 := by omega
      have wide : c.utf8Size ≠ 1 := by omega
      rw [splitAt, if_neg within, if_neg wide]
      rfl

/-! ### What is read -/

/-- Digits, and a unit they are few enough of. -/
def Written (s : Text) : Prop :=
  ∃ digits unit seconds, s = digits ++ [unit] ∧ digits ≠ [] ∧ digits.all Char.isDigit = true ∧
    perUnit unit = some seconds ∧ Nat.ofDigitChars 10 digits 0 * seconds < 2 ^ 64

theorem parseU64_digits {digits : Text} (some_ : digits ≠ []) (all : digits.all Char.isDigit = true) :
    parseU64 digits =
      if Nat.ofDigitChars 10 digits 0 < 2 ^ 64 then some (Nat.ofDigitChars 10 digits 0) else none := by
  have unsigned : ∀ rest, digits ≠ '+' :: rest := by
    rintro rest rfl
    simp at all
  rw [parseU64]
  · simp [all, some_]
  · exact unsigned

theorem perUnit_pos {unit : Char} {seconds : Nat} (per : perUnit unit = some seconds) : 1 ≤ seconds := by
  unfold perUnit at per
  split at per <;> cases per <;> decide

theorem Age.ext_of {a b : Age} (unit : a.unit = b.unit) (count : a.count = b.count) : a = b := by
  obtain ⟨secs, u, n, whole, small⟩ := a
  obtain ⟨secs', u', n', whole', small'⟩ := b
  cases unit
  cases count
  have same := whole.symm.trans whole'
  cases same
  rfl

theorem Age.secs_of (age : Age) : ∃ seconds, perUnit age.unit = some seconds ∧ age.count * seconds < 2 ^ 64 := by
  obtain ⟨seconds, per, same⟩ := Option.map_eq_some_iff.mp age.whole
  exact ⟨seconds, per, same ▸ age.small⟩

theorem Age.read_eq_ok_iff {s digits : Text} {unit : Char} {age : Age} :
    read s digits (some unit) = .ok age ↔
      digits ≠ [] ∧ digits.all Char.isDigit = true ∧ age.unit = unit ∧
        age.count = Nat.ofDigitChars 10 digits 0 := by
  constructor
  · intro done
    simp only [read] at done
    split at done
    · cases done
    · rename_i plain
      simp only [Bool.or_eq_true, List.isEmpty_iff, Bool.not_eq_true', not_or, Bool.not_eq_false] at plain
      split at done
      · cases done
      · rename_i count counted
        split at done
        · cases done
        · split at done
          · cases done
            rw [parseU64_digits plain.1 plain.2] at counted
            split at counted
            · cases counted
              exact ⟨plain.1, plain.2, rfl, rfl⟩
            · cases counted
          · cases done
  · rintro ⟨some_, all, rfl, counted⟩
    obtain ⟨seconds, per, small⟩ := age.secs_of
    have one := perUnit_pos per
    have few : Nat.ofDigitChars 10 digits 0 < 2 ^ 64 := by
      rw [← counted]
      exact (Nat.le_mul_of_pos_right _ one).trans_lt small
    have go : ¬(digits.isEmpty || !digits.all Char.isDigit) = true := by simp [some_, all]
    simp only [read, if_neg go, parseU64_digits some_ all, if_pos few]
    split
    · rename_i none_
      rw [per] at none_
      cases none_
    · rename_i found
      rw [per] at found
      cases found
      rw [dif_pos (counted ▸ small)]
      exact congrArg Except.ok (ext_of rfl counted.symm)

/-! ### Which texts are judged -/

theorem Age.fromStr_nil {raw : Text} (empty : trim raw = []) : fromStr raw = some (.error (invalid [])) := by
  rw [fromStr, empty]
  rfl

theorem Age.fromStr_concat {raw front : Text} {c : Char} (text : trim raw = front ++ [c]) :
    fromStr raw = if c.utf8Size = 1 then some (read (front ++ [c]) front (some c)) else none := by
  simp only [fromStr, text, splitAt_last]
  split <;> rfl

theorem written_concat_iff {front : Text} {c : Char} :
    Written (front ++ [c]) ↔ ∃ age, Age.read (front ++ [c]) front (some c) = .ok age := by
  constructor
  · rintro ⟨digits, unit, seconds, same, some_, all, per, small⟩
    obtain ⟨rfl, last⟩ := List.append_inj' same rfl
    cases last
    exact ⟨⟨_, c, _, by rw [per]; rfl, small⟩, Age.read_eq_ok_iff.mpr ⟨some_, all, rfl, rfl⟩⟩
  · rintro ⟨age, made⟩
    obtain ⟨some_, all, rfl, counted⟩ := Age.read_eq_ok_iff.mp made
    obtain ⟨seconds, per, small⟩ := age.secs_of
    exact ⟨front, age.unit, seconds, rfl, some_, all, per, counted ▸ small⟩

/-- The text is judged, and taken exactly when it is digits and a unit they are few enough of. -/
def Judged (raw : Text) : Prop :=
  ∃ answer, Age.fromStr raw = some answer ∧ ((∃ age, answer = .ok age) ↔ Written (trim raw))

theorem judged_iff (raw : Text) : Judged raw ↔ ∀ c ∈ (trim raw).getLast?, c.utf8Size = 1 := by
  rcases List.eq_nil_or_concat (trim raw) with empty | ⟨front, c, text⟩
  · refine iff_of_true ⟨_, Age.fromStr_nil empty, ?_⟩ (by simp [empty])
    refine iff_of_false (nofun) ?_
    rw [empty]
    rintro ⟨digits, unit, _, same, _⟩
    simp at same
  · rw [List.concat_eq_append] at text
    have last : (∀ c ∈ (trim raw).getLast?, c.utf8Size = 1) ↔ c.utf8Size = 1 := by simp [text]
    rw [last, Judged, Age.fromStr_concat text, text, written_concat_iff]
    constructor
    · rintro ⟨answer, answered, -⟩
      by_contra wide
      rw [if_neg wide] at answered
      cases answered
    · intro narrow
      rw [if_pos narrow]
      exact ⟨_, rfl, Iff.rfl⟩

/-! ### What is shown is read back -/

theorem perUnit_letter {unit : Char} {seconds : Nat} (per : perUnit unit = some seconds) :
    unit.utf8Size = 1 ∧ isWhitespace unit = false := by
  unfold perUnit at per
  split at per <;> first | exact ⟨by decide, by decide⟩ | cases per

theorem whitespace_of_digit {c : Char} (digit : c.isDigit = true) : isWhitespace c = false := by
  have range : 48 ≤ c.toNat ∧ c.toNat ≤ 57 := by
    simpa [Char.isDigit, UInt32.le_iff_toNat_le, ← Char.toNat_val] using digit
  simp [isWhitespace]
  omega

theorem trim_display (age : Age) : trim age.display = age.display := by
  obtain ⟨seconds, per, -⟩ := age.secs_of
  refine trim_eq_self (fun c first => ?_) fun c last => ?_
  · rw [Age.display, List.head?_append_of_ne_nil _ Nat.toDigits_ne_nil] at first
    exact whitespace_of_digit (Lib.digit_of_mem_toDigits (List.mem_of_head? first))
  · rw [Age.display, List.getLast?_concat, Option.mem_some_iff] at last
    rw [← last]
    exact (perUnit_letter per).2

theorem fromStr_display (age : Age) : Age.fromStr age.display = some (.ok age) := by
  obtain ⟨seconds, per, -⟩ := age.secs_of
  have text : trim age.display = Nat.toDigits 10 age.count ++ [age.unit] := trim_display age
  have digits : (Nat.toDigits 10 age.count).all Char.isDigit = true :=
    List.all_eq_true.mpr fun c mem => Lib.digit_of_mem_toDigits mem
  rw [Age.fromStr_concat text, if_pos (perUnit_letter per).1]
  refine congrArg some (Age.read_eq_ok_iff.mpr ⟨Nat.toDigits_ne_nil, digits, rfl, ?_⟩)
  exact Nat.ofDigitChars_ten_toDigits.symm

end OpenCargo.Policy
