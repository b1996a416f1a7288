/-
Module: OpenCargo.Pypi.Multipart
Purpose: `multipart/form-data` over a body in memory (`registry/pypi/multipart.rs`): a form that was encoded, with
  its names written as quoted strings, and what the parser reads of it.
Trusted boundary: none
Main exports: decoy, parse_encode, parse_ends, form_reads_back_iff
-/
import OpenCargo.Domain
import OpenCargo.Lib.Lines
import OpenCargo.Lib.Search
import OpenCargo.Lib.Segments
import OpenCargo.Lib.Utf8

namespace OpenCargo.Pypi.Multipart

open OpenCargo.Lib

structure Part where
  name : Text
  filename : Option Text
  body : List UInt8
deriving Repr, DecidableEq, Inhabited

/-! ### The parser -/

/-- `eq_ignore_ascii_case`. -/
def sameLetters (a b : Text) : Bool := a.map Char.toLower = b.map Char.toLower

/-- `trim_start`. -/
def trimStart (text : Text) : Text := text.dropWhile isWhitespace

/-- A quoted string after its first quote, up to its last. -/
def unquote : Text → Text
  | [] => []
  | ['\\'] => []
  | '\\' :: c :: text => c :: unquote text
  | c :: text => if c = '"' then [] else c :: unquote text

def paramValue : Text → Text
  | '"' :: quoted => unquote quoted
  | v => trim (v.takeWhile (· ≠ ';'))

/-- The parameter a text starts with, where it is the one looked for. -/
def readParam (key text : Text) : Option Text := do
  let (k, v) ← splitOnce '=' (trimStart text)
  if sameLetters (trim k) key then some (paramValue (trimStart v)) else none

/-- `name="x"; filename="y"` out of a `Content-Disposition` value: what follows each `;` in turn. -/
def dispositionParam (key : Text) : Text → Option Text
  | [] => none
  | c :: rest => if c = ';' then (readParam key rest).or (dispositionParam key rest) else dispositionParam key rest

/-- The value of the `Content-Disposition` line. -/
def disposition (headers : Text) : Option Text :=
  (splitCrlf headers).findSome? fun line => do
    let (k, v) ← splitOnce ':' line
    if sameLetters (trim k) "content-disposition".toList then some v else none

def delimiter (boundary : Text) : List UInt8 := utf8 ("--".toList ++ boundary)

/-- The loop of `parse`, in as many rounds at most. -/
def parseFrom (body delimiter : List UInt8) : Nat → Nat → List Part → Except Halt (List Part)
  | 0, _, _ => .error .endless
  | rounds + 1, at_, parts =>
      if slice body at_ (at_ + 2) = some (utf8 "--".toList) then .ok parts
      else do
        let at_ := if slice body at_ (at_ + 2) = some (utf8 crlf) then at_ + 2 else at_
        let headersEnd ← known (← find body (utf8 (crlf ++ crlf)) at_)
        let headers ← known (fromUtf8 (← cutAt body at_ headersEnd))
        let content := headersEnd + 4
        let next ← known (← find body (utf8 crlf ++ delimiter) content)
        let disposition ← known (disposition headers)
        let name ← known (dispositionParam "name".toList disposition)
        let piece ← cutAt body content next
        let part := ⟨name, dispositionParam "filename".toList disposition, piece⟩
        parseFrom body delimiter rounds (next + 2 + delimiter.length) (parts ++ [part])

def parse (body : List UInt8) (boundary : Text) : Except Halt (List Part) := do
  let start ← known (← find body (delimiter boundary) 0)
  parseFrom body (delimiter boundary) (body.length + 1) (start + (delimiter boundary).length) []

/-! ### The encoder -/

/-- A header other than the disposition. -/
structure Header where
  text : Text
  some_ : text ≠ []
  flat : ¬crlf <:+: text
  other : ∀ k v, splitOnce ':' text = some (k, v) → sameLetters (trim k) "content-disposition".toList = false

/-- A part with the headers around its disposition. -/
structure Field where
  part : Part
  before : List Header
  after : List Header

section Encoder

variable (extra : Char → Bool)

/-- The text of a quoted string: quotes, backslashes and line ends are escaped, and what else the encoder likes. -/
def written (text : Text) : Text :=
  text.flatMap fun c => if c = '"' || c = '\\' || c = '\r' || c = '\n' || extra c then ['\\', c] else [c]

def quoted (text : Text) : Text := '"' :: written extra text ++ ['"']

/-- `; label="value"`. -/
def parameter (label value : Text) : Text := ';' :: ' ' :: (label ++ '=' :: quoted extra value)

/-- What follows the name's last quote. -/
def filenameText (part : Part) : Text := (part.filename.map (parameter extra "filename".toList)).getD []

def parameters (part : Part) : Text :=
  " form-data".toList ++ parameter extra "name".toList part.name ++ filenameText extra part

def Field.lines (field : Field) : List Text :=
  field.before.map Header.text ++ ("Content-Disposition".toList ++ ':' :: parameters extra field.part) ::
    field.after.map Header.text

def Field.encode (field : Field) : List UInt8 :=
  utf8 crlf ++ utf8 (crlf.intercalate (field.lines extra)) ++ utf8 (crlf ++ crlf) ++ field.part.body ++ utf8 crlf

/-- What follows the first delimiter. -/
def encodeFrom (boundary : Text) (fields : List Field) : List UInt8 :=
  (fields.flatMap fun f => f.encode extra ++ delimiter boundary) ++ (utf8 "--".toList ++ utf8 crlf)

def encode (boundary : Text) (fields : List Field) : List UInt8 :=
  delimiter boundary ++ encodeFrom extra boundary fields

end Encoder

/-! ### A quoted string read -/

section Quoted

variable {extra : Char → Bool} {text rest key : Text}

theorem written_cons (c : Char) (text : Text) : written extra (c :: text) =
    (if c = '"' || c = '\\' || c = '\r' || c = '\n' || extra c then ['\\', c] else [c]) ++ written extra text := rfl

theorem unquote_plain {c : Char} (quote : c ≠ '"') (escape : c ≠ '\\') : unquote (c :: text) = c :: unquote text := by
  rw [unquote, if_neg quote]
  · rintro rfl
    exact absurd rfl escape
  · rintro d text' rfl
    exact absurd rfl escape

theorem unquote_written (text rest : Text) : unquote (written extra text ++ '"' :: rest) = text := by
  induction text with
  | nil => rfl
  | cons c text ih =>
      rw [written_cons, List.append_assoc]
      split
      · exact congrArg (c :: ·) ih
      · rename_i plain
        have plain : ((c ≠ '"' ∧ c ≠ '\\') ∧ c ≠ '\r') ∧ c ≠ '\n' := by simp_all
        rw [List.singleton_append, unquote_plain plain.1.1.1 plain.1.1.2, ih]

theorem dispositionParam_flat {front : Text} (flat : ';' ∉ front) :
    dispositionParam key (front ++ rest) = dispositionParam key rest := by
  induction front with
  | nil => rfl
  | cons c front ih =>
      rw [List.mem_cons, not_or] at flat
      rw [List.cons_append, dispositionParam, if_neg (Ne.symm flat.1), ih flat.2]

theorem dispositionParam_semicolon :
    dispositionParam key (';' :: rest) = (readParam key rest).or (dispositionParam key rest) := by
  rw [dispositionParam, if_pos rfl]

theorem readParam_named {label : Text} {v : Text} (flat : '=' ∉ label) (plain : label.all (!isWhitespace ·) = true)
    (some_ : label ≠ []) :
    readParam key (' ' :: (label ++ '=' :: v)) =
      if sameLetters label key then some (paramValue (trimStart v)) else none := by
  have plain : ∀ c ∈ label, isWhitespace c = false := by simpa using plain
  obtain ⟨c, more, rfl⟩ := List.exists_cons_of_ne_nil some_
  have shown : trimStart (' ' :: ((c :: more) ++ '=' :: v)) = (c :: more) ++ '=' :: v := by
    rw [trimStart, List.dropWhile_cons_of_pos (by decide), List.cons_append,
      List.dropWhile_cons_of_neg (by simp [plain c List.mem_cons_self])]
  have kept : trim (c :: more) = c :: more := trim_eq_self
    (fun d there => plain d (List.mem_of_mem_head? there)) fun d there => plain d (List.mem_of_getLast? there)
  rw [readParam, shown, splitOnce_append flat]
  simp [kept]

theorem trimStart_mark {front : Text} {c : Char} (mark : isWhitespace c = false) :
    trimStart (front ++ c :: rest) = trimStart front ++ c :: rest := by
  induction front with
  | nil => exact List.dropWhile_cons_of_neg (by simp [mark])
  | cons d front ih =>
      rw [trimStart, trimStart, List.cons_append]
      cases blank : isWhitespace d with
      | true =>
          rw [List.dropWhile_cons_of_pos blank, List.dropWhile_cons_of_pos blank]
          exact ih
      | false => rw [List.dropWhile_cons_of_neg (by simp [blank]), List.dropWhile_cons_of_neg (by simp [blank])]; rfl

theorem not_mem_trimStart {c : Char} (absent : c ∉ text) : c ∉ trimStart text := fun mem =>
  absent ((List.dropWhile_suffix _).subset mem)

theorem mem_trimStart {c : Char} (mark : isWhitespace c = false) (mem : c ∈ text) : c ∈ trimStart text := by
  rw [← List.takeWhile_append_dropWhile (p := isWhitespace) (l := text), List.mem_append] at mem
  refine mem.resolve_left fun front => ?_
  rw [List.mem_takeWhile_imp front] at mark
  cases mark

theorem mem_trim {c : Char} (mark : isWhitespace c = false) (mem : c ∈ text) : c ∈ trim text := by
  have kept := mem_trimStart mark (List.mem_reverse.mpr (mem_trimStart mark mem))
  rw [trim, List.rdropWhile, List.mem_reverse]
  exact kept

theorem not_named {k : Text} (mem : '"' ∈ k) : sameLetters (trim k) "filename".toList = false := by
  rw [sameLetters, decide_eq_false_iff_not]
  intro same
  have inside : Char.toLower '"' ∈ (trim k).map Char.toLower := List.mem_map_of_mem (mem_trim (by decide) mem)
  rw [same] at inside
  exact absurd inside (by decide)

/-! ### A file name inside a name -/

/-- What stands after the first `=`, where the word before it is `filename`. -/
def named (text : Text) : Option Text := do
  let (k, v) ← splitOnce '=' (trimStart text)
  if sameLetters (trim k) "filename".toList then some v else none

/-- The first `; filename=` within the text of a name, and what stands after it there. -/
def decoy : Text → Option Text
  | [] => none
  | c :: rest => if c = ';' then (named rest).or (decoy rest) else decoy rest

theorem readParam_inside (post tail : Text) : readParam "filename".toList (post ++ '"' :: tail) =
    (named post).map fun v => paramValue (trimStart (v ++ '"' :: tail)) := by
  by_cases mem : '=' ∈ post
  · obtain ⟨front, back, rfl, flat⟩ := List.eq_append_cons_of_mem mem
    have cut := not_mem_trimStart flat
    rw [readParam, named, List.append_assoc, List.cons_append, trimStart_mark (by decide), trimStart_mark (by decide),
      splitOnce_append cut, splitOnce_append cut]
    simp only [Option.bind_eq_bind, Option.bind_some]
    split <;> rfl
  · have cut := not_mem_trimStart mem
    have clear : '=' ∉ trimStart post ++ ['"'] := by simp [cut]
    have none_ : named post = none := by
      rw [named, splitOnce_eq_none cut]
      rfl
    rw [none_, readParam, trimStart_mark (by decide), List.append_cons]
    cases split_ : splitOnce '=' (trimStart post ++ ['"'] ++ tail) with
    | none => rfl
    | some parts =>
        obtain ⟨k, v⟩ := parts
        have quote : '"' ∈ k := by
          obtain ⟨whole, -⟩ := splitOnce_eq_some split_
          rcases List.append_eq_append_iff.mp whole with ⟨more, rfl, -⟩ | ⟨more, front, back⟩
          · simp
          · cases more with
            | nil =>
                rw [List.append_nil] at front
                rw [← front]
                simp
            | cons d more =>
                rw [List.cons_append, List.cons.injEq] at back
                refine absurd ?_ clear
                rw [front, ← back.1]
                simp
        simp only [Option.bind_eq_bind, Option.bind_some, not_named quote, Bool.false_eq_true, if_false,
          Option.map_none]

theorem dispositionParam_inside (name tail : Text) : dispositionParam "filename".toList (name ++ '"' :: tail) =
    ((decoy name).map fun v => paramValue (trimStart (v ++ '"' :: tail))).or
      (dispositionParam "filename".toList tail) := by
  induction name with
  | nil => rfl
  | cons c name ih =>
      rw [List.cons_append, dispositionParam, decoy]
      split
      · rw [readParam_inside, ih]
        cases named name <;> rfl
      · exact ih

variable (extra)

section Parameter

variable {value label tail : Text} (flat : ';' ∉ value) (named : '=' ∉ label)
  (plain : label.all (!isWhitespace ·) = true) (some_ : label ≠ [])

theorem parameter_append : value ++ parameter extra label text ++ tail =
    value ++ ';' :: (' ' :: (label ++ '=' :: ('"' :: (written extra text ++ '"' :: tail)))) := by
  simp [parameter, quoted]

include flat named plain some_

theorem read_first (same : sameLetters label key = true) :
    dispositionParam key (value ++ parameter extra label text ++ tail) = some text := by
  rw [parameter_append, dispositionParam_flat flat, dispositionParam_semicolon, readParam_named named plain some_,
    if_pos same, Option.some_or]
  exact congrArg some (unquote_written text _)

theorem read_on (whole : ';' ∉ label) (other : sameLetters label key = false) :
    dispositionParam key (value ++ parameter extra label text ++ tail) =
      dispositionParam key (written extra text ++ '"' :: tail) := by
  have clear : ';' ∉ ' ' :: (label ++ ['=', '"']) := by simp [whole]
  have spelled : ' ' :: (label ++ '=' :: ('"' :: (written extra text ++ '"' :: tail))) =
      ' ' :: (label ++ ['=', '"']) ++ (written extra text ++ '"' :: tail) := by simp
  rw [parameter_append, dispositionParam_flat flat, dispositionParam_semicolon, readParam_named named plain some_,
    if_neg (by simp [other]), Option.none_or, spelled, dispositionParam_flat clear]

end Parameter

theorem filename_tail (part : Part) : dispositionParam "filename".toList (filenameText extra part) = part.filename := by
  unfold filenameText
  cases part.filename with
  | none => rfl
  | some f =>
      have read : dispositionParam "filename".toList ([] ++ parameter extra "filename".toList f ++ []) = some f :=
        read_first extra (by simp) (by decide) (by decide) (by decide) (by decide +kernel)
      rwa [List.nil_append, List.append_nil] at read

/-- What the parser takes for the part's file name. -/
def filenameRead (part : Part) : Option Text :=
  ((decoy (written extra part.name)).map fun v => paramValue (trimStart (v ++ '"' :: filenameText extra part))).or
    part.filename

theorem name_read (part : Part) : dispositionParam "name".toList (parameters extra part) = some part.name :=
  read_first extra (by decide) (by decide) (by decide) (by decide) (by decide +kernel)

theorem filename_read (part : Part) :
    dispositionParam "filename".toList (parameters extra part) = filenameRead extra part := by
  unfold parameters
  rw [read_on extra (by decide) (by decide) (by decide) (by decide) (by decide) (by decide +kernel),
    dispositionParam_inside, filename_tail]
  rfl

end Quoted

/-! ### A form read -/

section Form

variable (extra : Char → Bool)

/-- The part as the parser reads it. -/
def Field.read (field : Field) : Part := { field.part with filename := filenameRead extra field.part }

theorem written_flat (text : Text) : (written extra text).head? ≠ some '\n' ∧ ¬crlf <:+: written extra text := by
  induction text with
  | nil => exact ⟨by simp [written], fun inside => absurd (List.infix_nil.mp inside) (by decide)⟩
  | cons c text ih =>
      rw [written_cons]
      split
      · refine ⟨by simp, fun inside => ?_⟩
        have inside := infix_of_append (by decide : '\r' ∉ ['\\']) inside
        rcases List.infix_cons_iff.mp inside with starts | inside
        · obtain ⟨rest, whole⟩ : ['\n'] <+: written extra text := (List.cons_prefix_cons.mp starts).2
          exact ih.1 (by rw [← whole]; rfl)
        · exact ih.2 inside
      · rename_i plain
        have plain : ((c ≠ '"' ∧ c ≠ '\\') ∧ c ≠ '\r') ∧ c ≠ '\n' := by simp_all
        refine ⟨by simpa using plain.2, fun inside => ih.2 (infix_of_append ?_ inside)⟩
        simpa using Ne.symm plain.1.2

theorem parameter_flat {value label text tail : Text} (front : '\r' ∉ value) (named : '\r' ∉ label)
    (clear : ¬crlf <:+: '"' :: tail) : ¬crlf <:+: value ++ parameter extra label text ++ tail := by
  have spelled : value ++ parameter extra label text ++ tail =
      (value ++ ';' :: ' ' :: (label ++ ['=', '"'])) ++ (written extra text ++ '"' :: tail) := by
    simp [parameter, quoted]
  rw [spelled]
  exact fun inside => crlf_append (written_flat extra text).2 (by decide) clear
    (infix_of_append (by simp [front, named]) inside)

theorem parameters_flat (part : Part) : ¬crlf <:+: '"' :: filenameText extra part ∧ ¬crlf <:+: parameters extra part := by
  have tail : ¬crlf <:+: '"' :: filenameText extra part := by
    unfold filenameText
    cases part.filename with
    | none =>
        rw [Option.map_none, Option.getD_none]
        decide
    | some f =>
        have flat : ¬crlf <:+: ['"'] ++ parameter extra "filename".toList f ++ [] :=
          parameter_flat extra (by decide) (by decide) (by decide)
        rwa [List.append_nil] at flat
  exact ⟨tail, parameter_flat extra (by decide) (by decide) tail⟩

theorem lines_flat (field : Field) : ∀ line ∈ field.lines extra, line ≠ [] ∧ ¬crlf <:+: line := by
  have other (headers : List Header) : ∀ line ∈ headers.map Header.text, line ≠ [] ∧ ¬crlf <:+: line := by
    intro line mem
    obtain ⟨header, -, rfl⟩ := List.mem_map.mp mem
    exact ⟨header.some_, header.flat⟩
  intro line mem
  rcases List.mem_append.mp mem with before | mem
  · exact other _ line before
  · rcases List.mem_cons.mp mem with rfl | after
    · refine ⟨by simp, fun inside => (parameters_flat extra field.part).2 ?_⟩
      exact infix_of_append (by decide : '\r' ∉ [':']) (infix_of_append (by decide) inside)
    · exact other _ line after

theorem lines_ne_nil (field : Field) : field.lines extra ≠ [] := by simp [Field.lines]

theorem disposition_lines (field : Field) :
    disposition (crlf.intercalate (field.lines extra)) = some (parameters extra field.part) := by
  have kept : splitOnce ':' ("Content-Disposition".toList ++ ':' :: parameters extra field.part) =
      some ("Content-Disposition".toList, parameters extra field.part) := splitOnce_append (by decide)
  have same : sameLetters (trim "Content-Disposition".toList) "content-disposition".toList = true := by decide +kernel
  rw [disposition, splitCrlf_intercalate (lines_ne_nil extra field) fun line mem => (lines_flat extra field line mem).2,
    Field.lines, List.findSome?_append]
  have none_ : (field.before.map Header.text).findSome? (fun line => do
      let (k, v) ← splitOnce ':' line
      if sameLetters (trim k) "content-disposition".toList then some v else none) = none := by
    rw [List.findSome?_eq_none_iff]
    intro line mem
    obtain ⟨header, -, rfl⟩ := List.mem_map.mp mem
    cases cut : splitOnce ':' header.text with
    | none => rfl
    | some parts => simp only [Option.bind_eq_bind, Option.bind_some, header.other _ _ cut, Bool.false_eq_true, if_false]
  rw [none_, Option.none_or, List.findSome?_cons, kept]
  simp only [Option.bind_eq_bind, Option.bind_some, same, if_true]

theorem headers_first (field : Field) :
    ¬utf8 (crlf ++ crlf) <:+: utf8 (crlf.intercalate (field.lines extra)) ++ (utf8 (crlf ++ crlf)).dropLast := by
  have short : (utf8 (crlf ++ crlf)).dropLast = utf8 (crlf ++ ['\r']) := by decide
  rw [short, ← utf8_append, ← List.append_assoc, ← flatMap_crlf (lines_ne_nil extra field)]
  intro inside
  exact no_blank_line (fun line mem => (lines_flat extra field line mem).1)
    (fun line mem => (lines_flat extra field line mem).2) (infix_of_utf8 (by simp [crlf, Ascii]) inside)

theorem delimiter_first {boundary : Text} {body : List UInt8} (plain : '\r' ∉ boundary)
    (absent : ¬utf8 crlf ++ delimiter boundary <:+: body) :
    ¬utf8 crlf ++ delimiter boundary <:+: body ++ (utf8 crlf ++ delimiter boundary).dropLast := by
  have spelled : utf8 crlf ++ delimiter boundary =
      UInt8.ofNat '\r'.toNat :: utf8 ('\n' :: ("--".toList ++ boundary)) := rfl
  have once : UInt8.ofNat '\r'.toNat ∉ utf8 ('\n' :: ("--".toList ++ boundary)) := fun mem => by
    have inside := mem_of_utf8 (by decide) mem
    simp [plain] at inside
  rw [spelled] at absent ⊢
  exact fun inside => absent (infix_of_head once inside)

theorem parseFrom_round {body delimiter piece : List UInt8} {rounds at_ headersEnd next : Nat} {parts : List Part}
    {headers value name : Text} (lineEnd : slice body at_ (at_ + 2) = some (utf8 crlf))
    (blank : find body (utf8 (crlf ++ crlf)) (at_ + 2) = .ok (some headersEnd))
    (read : cutAt body (at_ + 2) headersEnd = .ok (utf8 headers))
    (found : find body (utf8 crlf ++ delimiter) (headersEnd + 4) = .ok (some next))
    (disposed : disposition headers = some value) (named : dispositionParam "name".toList value = some name)
    (cut : cutAt body (headersEnd + 4) next = .ok piece) :
    parseFrom body delimiter (rounds + 1) at_ parts = parseFrom body delimiter rounds (next + 2 + delimiter.length)
      (parts ++ [⟨name, dispositionParam "filename".toList value, piece⟩]) := by
  have other : ¬(slice body at_ (at_ + 2) = some (utf8 "--".toList)) := by
    rw [lineEnd]
    decide
  rw [parseFrom, if_neg other, if_pos lineEnd]
  simp only [blank, known, bind, Except.bind, read, fromUtf8_utf8, found, disposed, named, cut]

theorem parseFrom_field {boundary : Text} {field : Field} {front rest : List UInt8} {rounds : Nat} {parts : List Part}
    (plain : '\r' ∉ boundary) (absent : ¬utf8 crlf ++ delimiter boundary <:+: field.part.body) :
    parseFrom (front ++ (field.encode extra ++ delimiter boundary) ++ rest) (delimiter boundary) (rounds + 1) front.length
        parts =
      parseFrom (front ++ (field.encode extra ++ delimiter boundary) ++ rest) (delimiter boundary) rounds
        (front ++ (field.encode extra ++ delimiter boundary)).length (parts ++ [field.read extra]) := by
  have ends : (front ++ (field.encode extra ++ delimiter boundary)).length =
      front.length + 2 + (utf8 (crlf.intercalate (field.lines extra))).length + 4 + field.part.body.length + 2 +
        (delimiter boundary).length := by
    have two : (utf8 crlf).length = 2 := by decide
    have four : (utf8 (crlf ++ crlf)).length = 4 := by decide
    simp only [Field.encode, List.length_append, two, four]
    omega
  generalize whole : front ++ (field.encode extra ++ delimiter boundary) ++ rest = data
  generalize spelled : utf8 (crlf.intercalate (field.lines extra)) = headers at ends
  have clear := headers_first extra field
  rw [spelled] at clear
  -- The form, cut before the headers, before the body and after it.
  have first : data = front ++ utf8 crlf ++ (headers ++ utf8 (crlf ++ crlf) ++ field.part.body ++
      (utf8 crlf ++ delimiter boundary) ++ rest) := by
    rw [← whole, Field.encode, spelled]
    simp only [List.append_assoc]
  have second : data = front ++ utf8 crlf ++ headers ++ utf8 (crlf ++ crlf) ++
      (field.part.body ++ (utf8 crlf ++ delimiter boundary) ++ rest) := by
    rw [first]
    simp only [List.append_assoc]
  have third : data = front ++ utf8 crlf ++ headers ++ utf8 (crlf ++ crlf) ++
      field.part.body ++ (utf8 crlf ++ delimiter boundary) ++ rest := by
    rw [second]
    simp only [List.append_assoc]
  have twice : (front ++ utf8 crlf).length = front.length + 2 := List.length_append
  have before : (front ++ utf8 crlf ++ headers ++ utf8 (crlf ++ crlf)).length = front.length + 2 + headers.length + 4 := by
    rw [List.length_append, List.length_append, twice]
    rfl
  have read : field.read extra =
      ⟨field.part.name, dispositionParam "filename".toList (parameters extra field.part), field.part.body⟩ := by
    rw [Field.read, filename_read]
  have headersAt : slice data front.length (front.length + 2) = some (utf8 crlf) := by
    rw [first]
    exact slice_middle front (utf8 crlf) _
  have blank : find data (utf8 (crlf ++ crlf)) (front.length + 2) = .ok (some (front.length + 2 + headers.length)) := by
    rw [second, ← twice]
    exact find_middle (by decide) clear
  have readHeaders : cutAt data (front.length + 2) (front.length + 2 + headers.length) =
      .ok (utf8 (crlf.intercalate (field.lines extra))) := by
    rw [second, ← twice, spelled, List.append_assoc]
    exact cutAt_middle
  have found : find data (utf8 crlf ++ delimiter boundary) (front.length + 2 + headers.length + 4) =
      .ok (some (front.length + 2 + headers.length + 4 + field.part.body.length)) := by
    rw [third, ← before]
    exact find_middle (by simp [utf8_cons, crlf]) (delimiter_first plain absent)
  have cutBody : cutAt data (front.length + 2 + headers.length + 4)
      (front.length + 2 + headers.length + 4 + field.part.body.length) = .ok field.part.body := by
    rw [third, ← before, List.append_assoc]
    exact cutAt_middle
  rw [ends, read]
  exact parseFrom_round headersAt blank readHeaders found (disposition_lines extra field)
    (name_read extra field.part) cutBody

theorem parseFrom_fields {boundary : Text} {fields : List Field} {front : List UInt8} {rounds : Nat}
    {parts : List Part} (plain : '\r' ∉ boundary)
    (absent : ∀ f ∈ fields, ¬utf8 crlf ++ delimiter boundary <:+: f.part.body) (enough : fields.length < rounds) :
    parseFrom (front ++ encodeFrom extra boundary fields) (delimiter boundary) rounds front.length parts =
      .ok (parts ++ fields.map (Field.read extra)) := by
  induction fields generalizing front rounds parts with
  | nil =>
      obtain ⟨rounds, rfl⟩ := Nat.exists_eq_succ_of_ne_zero (Nat.ne_of_gt enough)
      have end_ : slice (front ++ encodeFrom extra boundary []) front.length (front.length + 2) = some (utf8 "--".toList) := by
        have spelled : front ++ encodeFrom extra boundary [] = front ++ utf8 "--".toList ++ utf8 crlf := by
          rw [encodeFrom, List.flatMap_nil, List.nil_append, List.append_assoc]
        rw [spelled]
        exact slice_middle front (utf8 "--".toList) _
      rw [parseFrom, if_pos end_]
      simp
  | cons field fields ih =>
      obtain ⟨rounds, rfl⟩ := Nat.exists_eq_succ_of_ne_zero (Nat.ne_of_gt (Nat.lt_of_le_of_lt (Nat.zero_le _) enough))
      obtain ⟨absentField, absent⟩ := List.forall_mem_cons.mp absent
      have spelled : front ++ encodeFrom extra boundary (field :: fields) =
          front ++ (field.encode extra ++ delimiter boundary) ++ encodeFrom extra boundary fields := by
        simp [encodeFrom]
      rw [spelled, parseFrom_field extra plain absentField, ih absent (Nat.lt_of_succ_lt_succ enough)]
      simp

/-- An encoded form is read part by part; only a file name is sometimes read within a name. -/
theorem parse_encode {boundary : Text} {fields : List Field} (plain : '\r' ∉ boundary)
    (absent : ∀ f ∈ fields, ¬utf8 crlf ++ delimiter boundary <:+: f.part.body) :
    parse (encode extra boundary fields) boundary = .ok (fields.map (Field.read extra)) := by
  have start : find (encode extra boundary fields) (delimiter boundary) 0 = .ok (some 0) := by
    have some_ : delimiter boundary ≠ [] := by simp [delimiter, utf8_cons]
    have shorter : ¬delimiter boundary <:+: [] ++ (delimiter boundary).dropLast := by
      intro inside
      have length := inside.length_le
      have positive := List.length_pos_iff.mpr some_
      rw [List.nil_append, List.length_dropLast] at length
      omega
    have found : find ([] ++ [] ++ delimiter boundary ++ encodeFrom extra boundary fields) (delimiter boundary) 0 =
        .ok (some (0 + 0)) := find_middle some_ shorter
    exact found
  have enough : fields.length < (encode extra boundary fields).length + 1 := by
    have long := List.length_le_sum_of_one_le
      (fields.map fun f => (f.encode extra ++ delimiter boundary).length) fun n mem => by
        obtain ⟨f, -, rfl⟩ := List.mem_map.mp mem
        exact List.length_pos_iff.mpr (by simp [Field.encode, utf8_cons, crlf])
    rw [List.length_map] at long
    rw [encode, encodeFrom, List.length_append, List.length_append, List.length_flatMap]
    omega
  have read := @parseFrom_fields extra boundary fields (delimiter boundary) _ [] plain absent enough
  rw [List.nil_append] at read
  rw [parse, start, ← read]
  simp [known, encode, bind, Except.bind]

end Form

/-! ### Any bytes -/

/-- A result, or a refusal: nothing out of range, and no round too many. -/
def Ended (result : Except Halt (List Part)) : Prop := (∃ parts, result = .ok parts) ∨ result = .error .refused

theorem ended_some {α : Type} {found : Option α} {next : α → Except Halt (List Part)} (ends : ∀ a, Ended (next a)) :
    Ended (known found >>= next) := by
  cases found with
  | none => exact .inr rfl
  | some a => exact ends a

theorem ended_cut {body : List UInt8} {start stop : Nat} {next : List UInt8 → Except Halt (List Part)}
    (ordered : start ≤ stop) (inside : stop ≤ body.length) (ends : ∀ piece, Ended (next piece)) :
    Ended (cutAt body start stop >>= next) := by
  rw [cutAt_of_le ordered inside]
  exact ends _

theorem ended_known {body needle : List UInt8} {start : Nat} {next : Nat → Except Halt (List Part)} (some_ : needle ≠ [])
    (ends : ∀ i, start ≤ i → i + needle.length ≤ body.length → Ended (next i)) :
    Ended (find body needle start >>= fun found => known found >>= next) := by
  obtain ⟨found, looked⟩ : ∃ found, find body needle start = .ok found := ⟨_, find_eq some_⟩
  rw [looked]
  cases found with
  | none => exact .inr rfl
  | some i =>
      obtain ⟨from_, fits⟩ := find_some some_ looked
      exact ends i from_ fits

theorem parseFrom_ends {body delimiter : List UInt8} {rounds at_ : Nat} {parts : List Part}
    (inside : at_ ≤ body.length) (enough : body.length - at_ < rounds) :
    Ended (parseFrom body delimiter rounds at_ parts) := by
  induction rounds generalizing at_ parts with
  | zero => exact absurd enough (Nat.not_lt_zero _)
  | succ rounds ih =>
      rw [parseFrom]
      split
      · exact .inl ⟨parts, rfl⟩
      · have onward : at_ ≤ (if slice body at_ (at_ + 2) = some (utf8 crlf) then at_ + 2 else at_) := by
          split <;> omega
        refine ended_known (by decide) fun headersEnd from_ fits => ?_
        have four : (utf8 (crlf ++ crlf)).length = 4 := by decide
        have two : (utf8 crlf ++ delimiter).length = 2 + delimiter.length := List.length_append
        rw [four] at fits
        refine ended_cut from_ (by omega) fun piece => ended_some fun headers => ?_
        have some_ : utf8 crlf ++ delimiter ≠ [] := by simp [utf8_cons, crlf]
        refine ended_known some_ fun next after within => ended_some fun value => ended_some fun name => ?_
        rw [two] at within
        exact ended_cut after (by omega) fun piece => ih (by omega) (by omega)

/-- On any bytes the parser ends with a result or a refusal, every slice in range. -/
theorem parse_ends (body : List UInt8) (boundary : Text) : Ended (parse body boundary) := by
  refine ended_known (by simp [delimiter, utf8_cons]) fun start _ fits => ?_
  exact parseFrom_ends fits (by omega)

/-! ### The forms that read back -/

variable (extra : Char → Bool)

/-- Where the text of the name holds a `; filename=`, what stands after it is the part's own file name. -/
def Honest (part : Part) : Prop :=
  ∀ v ∈ decoy (written extra part.name),
    some (paramValue (trimStart (v ++ '"' :: filenameText extra part))) = part.filename

theorem filenameRead_eq_iff {part : Part} : filenameRead extra part = part.filename ↔ Honest extra part := by
  unfold filenameRead Honest
  cases decoy (written extra part.name) <;> simp

/-- An encoded form reads back as its parts exactly when no name holds another file name; and any bytes are read to
a result or a refusal. -/
theorem form_reads_back_iff (boundary : Text) (fields : List Field) (plain : '\r' ∉ boundary)
    (absent : ∀ f ∈ fields, ¬utf8 crlf ++ delimiter boundary <:+: f.part.body) :
    (parse (encode extra boundary fields) boundary = .ok (fields.map Field.part) ↔
        ∀ f ∈ fields, Honest extra f.part) ∧
      ∀ body other, Ended (parse body other) := by
  refine ⟨?_, parse_ends⟩
  rw [parse_encode extra plain absent, Except.ok.injEq, List.map_inj_left]
  refine forall₂_congr fun f _ => ?_
  rw [← filenameRead_eq_iff extra, Field.read]
  constructor
  · intro same
    exact congrArg Part.filename same
  · intro same
    rw [same]

/-- What twine sends: the action, and the file. -/
def twineForm : List Field :=
  [⟨⟨":action".toList, none, utf8 "file_upload".toList⟩, [], []⟩,
    ⟨⟨"content".toList, some "demo \"1\";x.tar.gz".toList, [0, 1, 13, 10, 45, 45, 88]⟩, [], []⟩]

theorem twine_form_reads_back : parse (encode (fun _ => false) "XyZ".toList twineForm) "XyZ".toList =
    .ok (twineForm.map Field.part) := by
  refine (form_reads_back_iff (fun _ => false) "XyZ".toList twineForm (by decide) ?_).1.mpr ?_
  · decide +kernel
  · have none_ : ∀ f ∈ twineForm, decoy (written (fun _ => false) f.part.name) = none := by decide +kernel
    intro f mem v there
    rw [none_ f mem] at there
    cases there

/-- A part without a file. -/
def decoyField : Field := ⟨⟨"x;filename=y".toList, none, utf8 "1".toList⟩, [], []⟩

/-- What stands in the name is taken for a file name. -/
theorem name_is_read_as_filename :
    parse (encode (fun _ => false) "XyZ".toList [decoyField]) "XyZ".toList =
        .ok [⟨"x;filename=y".toList, some "y\"".toList, utf8 "1".toList⟩] ∧
      parse (encode (fun _ => false) "XyZ".toList [decoyField]) "XyZ".toList ≠ .ok [decoyField.part] := by
  rw [parse_encode (fun _ => false) (by decide) (by decide +kernel)]
  decide +kernel

end OpenCargo.Pypi.Multipart
