/-
Module: OpenCargo.Maven.Scans
Purpose: What the one loop that cuts a Maven version into its components (`registry/maven/version.rs`) makes of
  a version put together of parts: numbers with dots between them, and what follows a dash.
Trusted boundary: none
Main exports: parse_dash, dotted, parse_dotted, parse_dotted_dash
-/
import OpenCargo.Maven.Version

namespace OpenCargo.Maven.Version

/-- What a token becomes; between two separators there is a zero. -/
def component (token : Text) (digit nextDigit : Bool) : Item :=
  if token.isEmpty then .int []
  else if digit then intItem token
  else stringItem token nextDigit

/-- The open lists closed, each into the one around it. -/
def closing (below : List (List Item)) (top : List Item) : List Item :=
  below.foldl (fun inner outer => outer ++ [.list (normalize inner)]) top

/-- The loop over a version, from the start. -/
def scan (version : Text) : Scan := version.foldl Scan.char .start

variable {version suffix : Text}

theorem scan_append : scan (version ++ suffix) = suffix.foldl Scan.char (scan version) := List.foldl_append

/-- The innermost list at the end, with the last token. -/
def Scan.filled (s : Scan) : List Item :=
  if s.token.isEmpty then s.top else s.top ++ [component s.token s.digit false]

theorem close_eq (s : Scan) : s.close = normalize (closing s.below s.filled) := by
  rw [Scan.close, Scan.filled]
  split
  · rfl
  · rename_i some_
    simp only [closing, Scan.push, component, some_]

theorem closing_append (below base : List (List Item)) (top : List Item) :
    closing (below ++ base) top = closing base (closing below top) := List.foldl_append

theorem char_below (s : Scan) (base : List (List Item)) (c : Char) :
    Scan.char { s with below := s.below ++ base } c =
      { s.char c with below := (s.char c).below ++ base } := by
  simp only [Scan.char]
  split
  · rfl
  · split
    · rfl
    · split
      · split <;> rfl
      · split <;> rfl

theorem scan_below (s : Scan) (base : List (List Item)) (rest : Text) :
    rest.foldl Scan.char { s with below := s.below ++ base } =
      { rest.foldl Scan.char s with below := (rest.foldl Scan.char s).below ++ base } := by
  induction rest generalizing s with
  | nil => rfl
  | cons c rest ih => rw [List.foldl_cons, List.foldl_cons, char_below, ih]

theorem close_forgets (top : List Item) (below : List (List Item)) (digit digit' : Bool) (rest : Text) :
    (rest.foldl Scan.char ⟨top, below, [], digit⟩).close = (rest.foldl Scan.char ⟨top, below, [], digit'⟩).close := by
  induction rest generalizing top below with
  | nil => rfl
  | cons c rest ih =>
      simp only [List.foldl_cons, Scan.char]
      split
      · exact ih _ _
      · split
        · exact ih _ _
        · split
          · simp
          · simp

theorem parse_dash : parse (version ++ '-' :: suffix) = normalize (closing (scan version).below
    ((scan version).top ++ [component (scan version).token (scan version).digit false] ++
      [.list (parse suffix)])) := by
  let s := scan version
  let inner := suffix.foldl Scan.char ⟨[], [], [], s.digit⟩
  let held := s.top ++ [component s.token s.digit false]
  have dashed : s.char '-' = { Scan.mk [] [] [] s.digit with below := [] ++ (held :: s.below) } := rfl
  have whole : scan (version ++ '-' :: suffix) = { inner with below := inner.below ++ (held :: s.below) } := by
    rw [scan_append, List.foldl_cons]
    exact dashed ▸ scan_below _ _ _
  have own : normalize (closing inner.below inner.filled) = parse suffix :=
    (close_eq inner).symm.trans (close_forgets [] [] s.digit false suffix)
  calc parse (version ++ '-' :: suffix)
      = normalize (closing (inner.below ++ (held :: s.below)) inner.filled) := by
        rw [parse, ← scan, whole, close_eq]
        rfl
    _ = normalize (closing s.below (held ++ [.list (normalize (closing inner.below inner.filled))])) := by
        rw [closing_append, closing, List.foldl_cons]
        rfl
    _ = _ := by rw [own]

/-! ### Numbers with dots between them -/

def dotted (parts : List Text) : Text := ['.'].intercalate parts

theorem dotted_cons (part next : Text) (parts : List Text) :
    dotted (part :: next :: parts) = part ++ '.' :: dotted (next :: parts) := by
  simp [dotted, List.intercalate]

/-- The digits of a number. -/
def Digits (part : Text) : Prop := part ≠ [] ∧ ∀ c ∈ part, c.isDigit = true

theorem digit_plain {c : Char} (digit : c.isDigit = true) : c ≠ '.' ∧ c ≠ '-' := by
  constructor
  · rintro rfl
    cases digit
  · rintro rfl
    cases digit

theorem char_digit {s : Scan} {c : Char} (digit : c.isDigit = true) (number : s.digit = true ∨ s.token = []) :
    s.char c = { s with token := s.token ++ [c], digit := true } := by
  have uncut : (!s.digit && !s.token.isEmpty) = false := by
    rcases number with number | empty
    · simp [number]
    · simp [empty]
  rw [Scan.char, if_neg (digit_plain digit).1, if_neg (digit_plain digit).2, if_pos digit]
  simp only [uncut, Bool.false_eq_true, if_false]

theorem scan_digits {s : Scan} {part : Text} (digits : ∀ c ∈ part, c.isDigit = true) (some_ : part ≠ [])
    (number : s.digit = true ∨ s.token = []) :
    part.foldl Scan.char s = { s with token := s.token ++ part, digit := true } := by
  induction part generalizing s with
  | nil => exact absurd rfl some_
  | cons c part ih =>
      rw [List.foldl_cons, char_digit (digits c List.mem_cons_self) number]
      cases part with
      | nil => rfl
      | cons d part =>
          rw [ih (fun e mem => digits e (List.mem_cons_of_mem c mem)) (List.cons_ne_nil d part) (.inl rfl)]
          simp

theorem component_digits {part : Text} (digits : Digits part) : component part true false = intItem part := by
  cases part with
  | nil => exact absurd rfl digits.1
  | cons c part => rfl

/-- The loop over numbers with dots between them: all but the last are in the list, and the last is the
token. -/
theorem scan_dotted (top : List Item) (digit : Bool) {part : Text} {parts : List Text}
    (digits : ∀ other ∈ part :: parts, Digits other) :
    ∃ init last, (part :: parts).map intItem = init ++ [component last true false] ∧
      (dotted (part :: parts)).foldl Scan.char ⟨top, [], [], digit⟩ = ⟨top ++ init, [], last, true⟩ ∧ last ≠ [] := by
  induction parts generalizing top digit part with
  | nil =>
      have own := digits part List.mem_cons_self
      refine ⟨[], part, by rw [component_digits own]; rfl, ?_, own.1⟩
      simpa [dotted, List.intercalate] using scan_digits (s := ⟨top, [], [], digit⟩) own.2 own.1 (.inr rfl)
  | cons next parts ih =>
      have own := digits part List.mem_cons_self
      obtain ⟨init, last, split, scanned, some_⟩ :=
        ih (top ++ [intItem part]) true fun other mem => digits other (List.mem_cons_of_mem part mem)
      refine ⟨intItem part :: init, last, by rw [List.map_cons, split]; rfl, ?_, some_⟩
      have read := scan_digits (s := ⟨top, [], [], digit⟩) own.2 own.1 (.inr rfl)
      have cut : Scan.char ⟨top, [], part, true⟩ '.' = ⟨top ++ [intItem part], [], [], true⟩ := by
        rw [← component_digits own]
        rfl
      rw [dotted_cons, List.foldl_append, read, List.foldl_cons, List.nil_append, cut, scanned, List.append_assoc]
      rfl

section Dotted

variable {parts : List Text} (some_ : parts ≠ []) (digits : ∀ part ∈ parts, Digits part)

include some_ digits

theorem parse_dotted : parse (dotted parts) = normalize (parts.map intItem) := by
  obtain ⟨part, parts, rfl⟩ := List.exists_cons_of_ne_nil some_
  obtain ⟨init, last, split, scanned, token⟩ := scan_dotted [] false digits
  have filled : Scan.filled ⟨[] ++ init, [], last, true⟩ = init ++ [component last true false] := by
    rw [Scan.filled, if_neg (by simpa using token)]
    rfl
  rw [parse, Scan.start, scanned, close_eq, filled, split]
  rfl

theorem parse_dotted_dash (suffix : Text) :
    parse (dotted parts ++ '-' :: suffix) = normalize (parts.map intItem ++ [.list (parse suffix)]) := by
  obtain ⟨part, parts, rfl⟩ := List.exists_cons_of_ne_nil some_
  obtain ⟨init, last, split, scanned, token⟩ := scan_dotted [] false digits
  rw [parse_dash, scan, Scan.start, scanned, split]
  rfl

end Dotted

end OpenCargo.Maven.Version
