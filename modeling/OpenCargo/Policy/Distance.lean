/-
Module: OpenCargo.Policy.Distance
Purpose: How far a name is from another (`policy/distance.rs`): the spelling names are compared in, and
  the one edit that turns a top name into a candidate, by its bytes: one byte for another that marks no
  family, two neighbours swapped, or one separator left out.
Trusted boundary: none
Main exports: bytesOf, Substituted, Transposed, Dropped
-/
import OpenCargo.Lib.Edits
import OpenCargo.Lib.Lines
import OpenCargo.Lib.Numerals
import OpenCargo.Lib.Segments
import OpenCargo.Routing.Formats

namespace OpenCargo.Policy

open OpenCargo.Lib
open OpenCargo.Routing (asciiFold dashed normalize)

inductive Edit where
  | substitution
  | transposition
  | separator
deriving Repr, DecidableEq, Inhabited

def Edit.asStr : Edit → Text
  | .substitution => "substitution".toList
  | .transposition => "transposition".toList
  | .separator => "dropped separator".toList

/-! ### The spelling names are compared in -/

structure Normalized where
  scope : Option Text
  word : Text
deriving Repr, DecidableEq, Inhabited

def Normalized.full (n : Normalized) : Text :=
  match n.scope with
  | some scope => '@' :: scope ++ '/' :: n.word
  | none => n.word

/-- `strip_prefix('@')` and `split_once('/')`: the scope of a name and its word. -/
def scopedName : Text → Option (Text × Text)
  | '@' :: rest => splitOnce '/' rest
  | _ => none

/-- `str::parse::<u32>`. -/
def parseU32 (t : Text) : Option Nat := (parseU64 t).filter (· < 2 ^ 32)

/-- `rsplit_once` at a word. -/
def rsplitAt (pattern : Text) : Text → Option (Text × Text)
  | [] => none
  | c :: rest =>
      match rsplitAt pattern rest with
      | some (front, back) => some (c :: front, back)
      | none => if pattern <+: c :: rest then some ([], (c :: rest).drop pattern.length) else none

def stripGoMajor (path : Text) : Text :=
  let major := match rsplitOnce '/' path with
    | some (base, 'v' :: n) => if (parseU32 n).any (2 ≤ ·) then some base else none
    | _ => none
  let gopkg := if "gopkg.in/".toList <+: path then
      match rsplitAt ".v".toList path with
      | some (base, v) => if (parseU32 v).isSome then some base else none
      | none => none
    else none
  (major <|> gopkg).getD path

/-- `normalize`. -/
def normalizeName (format : Format) (name : Text) : Normalized :=
  let lower := (asciiFold (trim name)).map dashed
  match format with
  | .npm =>
      match scopedName lower with
      | some (scope, word) => ⟨some scope, word⟩
      | none => ⟨none, lower⟩
  | .go => ⟨none, stripGoMajor lower⟩
  | .pypi => ⟨none, normalize lower⟩
  | _ => ⟨none, lower⟩

example : normalizeName .npm "@Babel/Core_Utils".toList = ⟨some "babel".toList, "core-utils".toList⟩ := by decide

example : (normalizeName .go "gopkg.in/src-d/go-git.v4".toList).word = "gopkg.in/src-d/go-git".toList := by decide

/-- `names`: the lines of a list file, without those that begin with `#`. -/
def names (text : Text) : List Text :=
  ((lines text).map trim).filter fun l => !l.isEmpty && l.head? != some '#'

/-! ### One edit -/

/-- `str::as_bytes`. -/
def bytesOf (t : Text) : List UInt8 := t.flatMap String.utf8EncodeChar

def byte (c : Char) : UInt8 := c.toNat.toUInt8

def separators : List UInt8 := [byte '-', byte '.', byte '_']

def familyHead : Nat := 3

/-- `u8::is_ascii_digit`. -/
def isDigitByte (b : UInt8) : Bool := byte '0' ≤ b && b ≤ byte '9'

/-- `family_marker`. -/
def familyMarker (cs ts : List UInt8) (i : Nat) : Bool :=
  if cs[i]?.any isDigitByte || ts[i]?.any isDigitByte then true
  else if cs[i]?.any separators.contains && ts[i]?.any separators.contains then true
  else
    match ts.findIdx? (· == byte '-') with
    | none => false
    | some head => decide (i < head) && decide (head ≤ familyHead)

/-- The loop over the places of two names of one length, with those found `differing`; a third ends it. -/
def scan (cs ts : List UInt8) (i : Nat) (differing : List Nat) : Option (List Nat) :=
  match cs, ts with
  | x :: cs, y :: ts =>
      if x ≠ y then
        if differing.length = 2 then none
        else scan cs ts (i + 1) (differing ++ [i])
      else scan cs ts (i + 1) differing
  | _, _ => some differing

/-- `one_edit`, on the bytes of the two names. -/
def editOf (cs ts : List UInt8) : Option Edit :=
  if cs.length = ts.length then
    match scan cs ts 0 [] with
    | some [i] => if familyMarker cs ts i then none else some .substitution
    | some [i, j] => if j = i + 1 ∧ cs[i]? = ts[j]? ∧ cs[j]? = ts[i]? then some .transposition else none
    | _ => none
  else if cs.length + 1 ≠ ts.length then none
  else
    let i := agreement cs ts
    if ts[i]?.any (fun b => b == byte '-' || b == byte '.') ∧ ts.drop (i + 1) = cs.drop i then some .separator
    else none

def oneEdit (candidate top : Text) : Option Edit := editOf (bytesOf candidate) (bytesOf top)

example : oneEdit "gitxconfig".toList "git-config".toList = some .substitution := by decide

example : oneEdit "gix-config".toList "git-config".toList = none := by decide

/-! ### What is an edit -/

section Edits

variable {cs ts : List UInt8}

/-- `cs` is `ts` with one byte for another, which marks no family. -/
def Substituted (cs ts : List UInt8) : Prop :=
  ∃ front x y back, x ≠ y ∧ cs = front ++ x :: back ∧ ts = front ++ y :: back ∧
    familyMarker cs ts front.length = false

/-- `cs` is `ts` with two different neighbours swapped. -/
def Transposed (cs ts : List UInt8) : Prop :=
  ∃ front x y back, x ≠ y ∧ cs = front ++ x :: y :: back ∧ ts = front ++ y :: x :: back

/-- `cs` is `ts` without one `-` or `.`. -/
def Dropped (cs ts : List UInt8) : Prop :=
  ∃ front s back, (s = byte '-' ∨ s = byte '.') ∧ ts = front ++ s :: back ∧ cs = front ++ back

theorem scan_eq (i : Nat) {differing : List Nat} (few : differing.length ≤ 2) :
    scan cs ts i differing =
      if (differing ++ differences i cs ts).length ≤ 2 then some (differing ++ differences i cs ts) else none := by
  induction cs generalizing ts i differing with
  | nil => simp [scan, differences, few]
  | cons x cs ih =>
      cases ts with
      | nil => simp [scan, differences, few]
      | cons y ts =>
          rw [scan, differences]
          by_cases same : x = y
          · rw [if_neg (not_not_intro same), if_pos same, ih (i + 1) few]
          · rw [if_pos same, if_neg same]
            by_cases full : differing.length = 2
            · rw [if_pos full, if_neg]
              rw [List.length_append, List.length_cons]
              omega
            · have room : (differing ++ [i]).length ≤ 2 := by
                rw [List.length_append, List.length_singleton]
                omega
              rw [if_neg full, ih (i + 1) room, List.append_assoc, List.singleton_append]

theorem scan_eq_some_iff {found : List Nat} :
    scan cs ts 0 [] = some found ↔ differences 0 cs ts = found ∧ found.length ≤ 2 := by
  have few : ([] : List Nat).length ≤ 2 := Nat.zero_le 2
  rw [scan_eq 0 few, List.nil_append]
  constructor
  · intro ended
    split at ended
    · rename_i few
      obtain rfl := Option.some.inj ended
      exact ⟨rfl, few⟩
    · cases ended
  · rintro ⟨rfl, few⟩
    rw [if_pos few]

theorem swapped_iff (same : cs.length = ts.length) {i j : Nat} :
    (differences 0 cs ts = [i, j] ∧ j = i + 1 ∧ cs[i]? = ts[j]? ∧ cs[j]? = ts[i]?) ↔
      j = i + 1 ∧ ∃ front x y back, x ≠ y ∧ cs = front ++ x :: y :: back ∧ ts = front ++ y :: x :: back ∧
        front.length = i := by
  constructor
  · rintro ⟨found, rfl, one, two⟩
    obtain ⟨front, x, y, x', y', back, differ, -, rfl, rfl, rfl⟩ := (differences_eq_pair_iff same).mp found
    have cross : x = y' := by simpa using one
    have cross' : x' = y := by simpa using two
    subst cross cross'
    exact ⟨rfl, front, x, x', back, differ, rfl, rfl, rfl⟩
  · rintro ⟨rfl, front, x, y, back, differ, rfl, rfl, rfl⟩
    refine ⟨?_, rfl, by simp, by simp⟩
    exact (differences_eq_pair_iff same).mpr ⟨front, x, y, y, x, back, differ, differ.symm, rfl, rfl, rfl⟩

theorem Transposed.length (swapped : Transposed cs ts) : cs.length = ts.length := by
  obtain ⟨front, x, y, back, -, rfl, rfl⟩ := swapped
  simp

theorem Substituted.length (other : Substituted cs ts) : cs.length = ts.length := by
  obtain ⟨front, x, y, back, -, rfl, rfl, -⟩ := other
  simp

theorem Dropped.length (left : Dropped cs ts) : cs.length + 1 = ts.length := by
  obtain ⟨front, s, back, -, rfl, rfl⟩ := left
  simp only [List.length_append, List.length_cons]
  omega

theorem editOf_of_length (same : cs.length = ts.length) :
    (editOf cs ts).isSome = true ↔ Substituted cs ts ∨ Transposed cs ts := by
  rw [editOf, if_pos same]
  constructor
  · intro edited
    split at edited
    · rename_i i ended
      obtain ⟨found, -⟩ := scan_eq_some_iff.mp ended
      obtain ⟨front, x, y, back, differ, left, right, rfl⟩ := (differences_eq_singleton_iff same).mp found
      split at edited
      · cases edited
      · rename_i plain
        exact .inl ⟨front, x, y, back, differ, left, right, Bool.eq_false_iff.mpr plain⟩
    · rename_i i j ended
      obtain ⟨found, -⟩ := scan_eq_some_iff.mp ended
      split at edited
      · rename_i swapped
        obtain ⟨-, front, x, y, back, differ, left, right, -⟩ := (swapped_iff same).mp ⟨found, swapped⟩
        exact .inr ⟨front, x, y, back, differ, left, right⟩
      · cases edited
    · cases edited
  · rintro (⟨front, x, y, back, differ, left, right, plain⟩ | ⟨front, x, y, back, differ, left, right⟩)
    · have found := (differences_eq_singleton_iff same).mpr ⟨front, x, y, back, differ, left, right, rfl⟩
      rw [scan_eq_some_iff.mpr ⟨found, Nat.le_succ 1⟩]
      simp [plain]
    · obtain ⟨found, swapped⟩ := (swapped_iff same).mpr ⟨rfl, front, x, y, back, differ, left, right, rfl⟩
      simp [scan_eq_some_iff.mpr ⟨found, le_rfl⟩, swapped.2]

theorem editOf_of_shorter (shorter : cs.length + 1 = ts.length) :
    (editOf cs ts).isSome = true ↔ Dropped cs ts := by
  have unlike : cs.length ≠ ts.length := by omega
  rw [editOf, if_neg unlike, if_neg (not_not_intro shorter)]
  have taken : ((if ts[agreement cs ts]?.any (fun b => b == byte '-' || b == byte '.') ∧
      ts.drop (agreement cs ts + 1) = cs.drop (agreement cs ts) then some Edit.separator else none).isSome =
          true) ↔
      ∃ s, (s = byte '-' ∨ s = byte '.') ∧ ts[agreement cs ts]? = some s ∧
        ts.drop (agreement cs ts + 1) = cs.drop (agreement cs ts) := by
    rw [Option.isSome_ite, Option.any_eq_true]
    simp only [Bool.or_eq_true, beq_iff_eq]
    constructor
    · rintro ⟨⟨s, letter, kind⟩, rest⟩
      exact ⟨s, kind, letter, rest⟩
    · rintro ⟨s, kind, letter, rest⟩
      exact ⟨⟨s, letter, kind⟩, rest⟩
  rw [taken]
  constructor
  · rintro ⟨s, kind, letter, rest⟩
    obtain ⟨front, back, whole, cut⟩ := left_out_iff.mp ⟨letter, rest⟩
    exact ⟨front, s, back, kind, whole, cut⟩
  · rintro ⟨front, s, back, kind, whole, cut⟩
    exact ⟨s, kind, left_out_iff.mpr ⟨front, back, whole, cut⟩⟩

theorem editOf_isSome_iff :
    (editOf cs ts).isSome = true ↔ Substituted cs ts ∨ Transposed cs ts ∨ Dropped cs ts := by
  rcases Nat.lt_trichotomy cs.length ts.length with less | same | more
  · by_cases shorter : cs.length + 1 = ts.length
    · rw [editOf_of_shorter shorter]
      constructor
      · exact fun left => .inr (.inr left)
      · rintro (other | swapped | left)
        · exact absurd other.length less.ne
        · exact absurd swapped.length less.ne
        · exact left
    · have none_ : editOf cs ts = none := by rw [editOf, if_neg less.ne, if_pos shorter]
      rw [none_]
      constructor
      · rintro ⟨⟩
      · rintro (other | swapped | left)
        · exact absurd other.length less.ne
        · exact absurd swapped.length less.ne
        · exact absurd left.length shorter
  · have whole : ¬Dropped cs ts := fun left => absurd (left.length.trans same.symm) (Nat.succ_ne_self _)
    rw [editOf_of_length same, ← or_assoc, or_iff_left whole]
  · have longer : cs.length + 1 ≠ ts.length := by omega
    have none_ : editOf cs ts = none := by rw [editOf, if_neg more.ne', if_pos longer]
    rw [none_]
    constructor
    · rintro ⟨⟩
    · rintro (other | swapped | left)
      · exact absurd other.length more.ne'
      · exact absurd swapped.length more.ne'
      · exact absurd left.length longer

/-- An edit keeps the first two bytes or the last two of a name with five or more, and its length or all
but one. -/
theorem kept_of_edit (edited : (editOf cs ts).isSome = true) (long : 5 ≤ cs.length) :
    (ts.length = cs.length ∨ ts.length = cs.length + 1) ∧ (cs.take 2 = ts.take 2 ∨ lasts 2 cs = lasts 2 ts) := by
  rcases editOf_isSome_iff.mp edited with other | swapped | left
  · refine ⟨.inl other.length.symm, ?_⟩
    obtain ⟨front, x, y, back, -, rfl, rfl, -⟩ := other
    have around : 3 ≤ front.length + back.length := by
      simp only [List.length_append, List.length_cons] at long
      omega
    simpa using kept_two [x] [y] around
  · refine ⟨.inl swapped.length.symm, ?_⟩
    obtain ⟨front, x, y, back, -, rfl, rfl⟩ := swapped
    have around : 3 ≤ front.length + back.length := by
      simp only [List.length_append, List.length_cons] at long
      omega
    simpa using kept_two [x, y] [y, x] around
  · refine ⟨.inr left.length.symm, ?_⟩
    obtain ⟨front, s, back, -, rfl, rfl⟩ := left
    have around : 3 ≤ front.length + back.length := by
      rw [List.length_append] at long
      omega
    simpa using kept_two [] [s] around

end Edits

end OpenCargo.Policy
