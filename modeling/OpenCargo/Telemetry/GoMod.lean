/-
Module: OpenCargo.Telemetry.GoMod
Purpose: The requirements of a go.mod (`telemetry/vulns/deps.rs`), and when every one of them is read. The opening
  of a block is known by one blank before its parenthesis: another block's lines are read as directives of their
  own.
Trusted boundary: none
Main exports: parseGoMod, Item, Item.Plain, requirements_read_completely_iff
-/
import OpenCargo.Domain
import OpenCargo.Lib.Lines

namespace OpenCargo.Telemetry

open OpenCargo.Lib

/-! ### The loop -/

/-- `split("//").next()`. -/
def beforeComment : Text → Text
  | [] => []
  | c :: rest => if c = '/' ∧ rest.head? = some '/' then [] else c :: beforeComment rest

/-- `split_once(char::is_whitespace)`. -/
def splitOnceWhitespace (line : Text) : Option (Text × Text) :=
  match line.dropWhile (!isWhitespace ·) with
  | [] => none
  | _ :: rest => some (line.takeWhile (!isWhitespace ·), rest)

def splitWhitespace (line : Text) : List Text := (line.splitOnP isWhitespace).filter (!·.isEmpty)

def goRequirement (line : Text) : Option (Text × Text) :=
  match splitWhitespace line with
  | path :: version :: _ => if version.head? = some 'v' then some (path, version) else none
  | _ => none

def require : Text := "require".toList

structure State where
  block : Option Text
  deps : List (Text × Text)
deriving Repr, DecidableEq, Inhabited

/-- One turn, of a line without its comment and the blanks at its ends. -/
def State.read (s : State) (line : Text) : State :=
  if line.isEmpty then s
  else
    match s.block with
    | some directive =>
        if line = [')'] then { s with block := none }
        else if directive = require then { s with deps := s.deps ++ (goRequirement line).toList }
        else s
    | none =>
        match splitOnceWhitespace line with
        | some (directive, rest) =>
            if rest = ['('] then { s with block := some directive }
            else if directive = require then { s with deps := s.deps ++ (goRequirement (trim rest)).toList }
            else s
        | none => s

def lineOf (raw : Text) : Text := trim (beforeComment raw)

def parseGoMod (goMod : Text) : List (Text × Text) :=
  ((lines goMod).foldl (fun s raw => State.read s (lineOf raw)) ⟨none, []⟩).deps

/-! ### The format -/

def isBlank (c : Char) : Bool := c == ' ' || c == '\t' || c == '\r'

def isWordChar (c : Char) : Bool := !isWhitespace c && !(c == '(' || c == ')' || c == '"' || c == Char.ofNat 96)

/-- What may stand between tokens. -/
structure Blanks where
  text : Text
  blank : text.all isBlank = true

structure Gap extends Blanks where
  some_ : text ≠ []

/-- An unquoted token. -/
structure Word where
  text : Text
  plain : text.all isWordChar = true
  some_ : text ≠ []

structure Words where
  first : Word
  rest : List (Gap × Word)

namespace Words

def text (ws : Words) : Text := ws.first.text ++ ws.rest.flatMap fun w => w.1.text ++ w.2.text

def list (ws : Words) : List Text := ws.first.text :: ws.rest.map fun w => w.2.text

end Words

/-- What stands around the tokens of a line. -/
structure Frame where
  indent : Blanks
  trail : Blanks
  comment : Option Text

def slashes : Text → Bool
  | [] => false
  | c :: rest => c == '/' && rest.head? == some '/' || slashes rest

namespace Frame

def tokens (f : Frame) (content : Text) : Text := f.indent.text ++ (content ++ f.trail.text)

def around (f : Frame) (content : Text) : Text := f.tokens content ++ f.comment.elim [] ('/' :: '/' :: ·)

/-- The comment is one line, and begins with the first two slashes. -/
def Clear (f : Frame) (content : Text) : Prop :=
  '\n' ∉ f.comment.getD [] ∧ slashes (f.tokens content ++ if f.comment.isSome then ['/'] else []) = false

instance (f : Frame) (content : Text) : Decidable (f.Clear content) := inferInstanceAs (Decidable (_ ∧ _))

end Frame

inductive Item where
  /-- Nothing, or a comment. -/
  | blank (f : Frame)
  | single (f : Frame) (line : Words)
  /-- A block that is closed on the line that opens it. -/
  | empty (f : Frame) (verb : Word) (gap within : Blanks)
  | block (opens : Frame) (verb : Word) (gap : Blanks) (entries : List (Frame × Option Words)) (closes : Frame)

/-- A verb, and the tokens it is about. -/
abbrev Directive := Text × List Text

/-- A requirement is a pair; another directive has at most two tokens, or an interval in brackets, or is a
replacement. -/
def Directive.WellFormed (d : Directive) : Prop :=
  if d.1 = require then d.2.length = 2 ∧ d.2.head? ≠ some "=>".toList
  else d.2.length ≤ 2 ∨ (d.2.head?.any fun word => word.head? == some '[') = true ∨ d.2[1]? = some "=>".toList ∨
    d.2[2]? = some "=>".toList

instance (d : Directive) : Decidable d.WellFormed := inferInstanceAs (Decidable (ite _ _ _))

/-- What a directive requires. -/
def Directive.requirement : Directive → Option (Text × Text)
  | (verb, [path, version]) => if verb = require ∧ version.head? = some 'v' then some (path, version) else none
  | _ => none

namespace Item

def contentOf (words : Option Words) : Text := words.elim [] Words.text

/-- Its lines. -/
def rows : Item → List (Frame × Text)
  | blank f => [(f, [])]
  | single f line => [(f, line.text)]
  | empty f verb gap within => [(f, verb.text ++ (gap.text ++ '(' :: (within.text ++ [')'])))]
  | block opens verb gap entries closes =>
      (opens, verb.text ++ (gap.text ++ ['('])) :: (entries.map fun e => (e.1, contentOf e.2)) ++ [(closes, [')'])]

def directives : Item → List Directive
  | blank _ | empty .. => []
  | single _ line => [(line.first.text, line.rest.map fun w => w.2.text)]
  | block _ verb _ entries _ => (entries.filterMap Prod.snd).map fun ws => (verb.text, ws.list)

def WellFormed (item : Item) : Prop :=
  (∀ row ∈ item.rows, row.1.Clear row.2) ∧ ∀ d ∈ item.directives, Directive.WellFormed d

instance (item : Item) : Decidable item.WellFormed := inferInstanceAs (Decidable (_ ∧ _))

def requirements (item : Item) : List (Text × Text) := item.directives.filterMap Directive.requirement

/-- A block is opened with one blank; or no version is lost with it, and no replacement of a module that is called
`require` is taken for a requirement. -/
def Plain : Item → Prop
  | block _ verb gap entries _ => gap.text.length = 1 ∨ ∀ ws ∈ entries.filterMap Prod.snd,
      if verb.text = require then ((ws.list[1]?).any fun version => version.head? == some 'v') = false
      else ¬(ws.list[0]? = some require ∧ ws.list[1]? = some "=>".toList ∧
        (ws.list[2]?.any fun path => path.head? == some 'v') = true)
  | _ => True

end Item

/-- The file of the items, its lines apart. -/
def goModOf (doc : List Item) : Text :=
  ['\n'].intercalate ((doc.flatMap Item.rows).map fun row => row.1.around row.2)

/-! ### Lines -/

theorem whitespace_of_blank {c : Char} (blank : isBlank c = true) : isWhitespace c = true := by
  simp only [isBlank, Bool.or_eq_true, beq_iff_eq] at blank
  rcases blank with (rfl | rfl) | rfl <;> decide

section Lines

variable {text front back : Text}

theorem beforeComment_eq (clear : slashes text = false) : beforeComment text = text := by
  induction text with
  | nil => rfl
  | cons c rest ih =>
      simp only [slashes, Bool.or_eq_false_iff] at clear
      rw [beforeComment, if_neg (by simpa using clear.1), ih clear.2]

theorem beforeComment_append (clear : slashes (text ++ ['/']) = false) :
    beforeComment (text ++ '/' :: '/' :: back) = text := by
  induction text with
  | nil => rfl
  | cons c rest ih =>
      simp only [List.cons_append, slashes, Bool.or_eq_false_iff] at clear
      have same : (rest ++ '/' :: '/' :: back).head? = (rest ++ ['/']).head? := by cases rest <;> rfl
      rw [List.cons_append, beforeComment, if_neg (by simpa [same] using clear.1), ih clear.2]

theorem lineOf_stripCr (raw : Text) : lineOf (stripCr raw) = lineOf raw := by
  rw [stripCr]
  split
  · rename_i last
    obtain ⟨front, rfl⟩ := List.getLast?_eq_some_iff.mp last
    rw [List.dropLast_concat, lineOf, lineOf]
    have kept : beforeComment (front ++ ['\r']) = beforeComment front ++ ['\r'] ∨
        beforeComment (front ++ ['\r']) = beforeComment front := by
      clear last
      induction front with
      | nil => exact .inl rfl
      | cons c rest ih =>
          have same : c = '/' ∧ (rest ++ ['\r']).head? = some '/' ↔ c = '/' ∧ rest.head? = some '/' := by
            cases rest <;> simp
          rw [List.cons_append, beforeComment, beforeComment]
          simp only [same]
          split
          · exact .inr rfl
          · exact ih.imp (congrArg (c :: ·)) (congrArg (c :: ·))
    rcases kept with same | same
    · rw [same, trim_append (by decide)]
    · rw [same]
  · rfl

theorem foldl_lines (s : State) (goMod : Text) :
    (lines goMod).foldl (fun s raw => s.read (lineOf raw)) s =
      (goMod.splitOn '\n').foldl (fun s raw => s.read (lineOf raw)) s := by
  obtain ⟨front, last, pieces⟩ :=
    (List.eq_nil_or_concat (goMod.splitOn '\n')).resolve_left (List.splitOn_ne_nil _ _)
  rw [lines, pieces]
  simp only [List.concat_eq_append, List.dropLast_concat, List.getLast?_concat, List.foldl_append, List.foldl_map,
    lineOf_stripCr]
  cases last <;> rfl

end Lines

/-! ### Words -/

section Words

variable {line rest : Text} {c : Char}

theorem Word.mem {w : Word} (mem : c ∈ w.text) : isWhitespace c = false ∧ c ≠ '(' ∧ c ≠ ')' := by
  have plain := List.all_eq_true.mp w.plain c mem
  simp only [isWordChar, Bool.and_eq_true, Bool.not_eq_true', Bool.or_eq_false_iff, beq_eq_false_iff_ne] at plain
  exact ⟨plain.1, plain.2.1.1.1, plain.2.1.1.2⟩

theorem Word.plain_of (w : Word) : ∀ c ∈ w.text, isWhitespace c = false := fun _ mem => (Word.mem mem).1

theorem Blanks.mem {b : Blanks} (mem : c ∈ b.text) : isBlank c = true := List.all_eq_true.mp b.blank c mem

theorem Blanks.whitespace (b : Blanks) : b.text.all isWhitespace = true :=
  List.all_eq_true.mpr fun _ mem => whitespace_of_blank (Blanks.mem mem)

theorem mem_of_mem_splitOnP {p : Char → Bool} {piece : Text} (mem : piece ∈ line.splitOnP p) (inside : c ∈ piece) :
    c ∈ line := by
  induction line generalizing piece with
  | nil =>
      cases List.mem_singleton.mp mem
      cases inside
  | cons x line ih =>
      rw [List.splitOnP_cons_eq_if_modifyHead] at mem
      split at mem
      · rcases List.mem_cons.mp mem with rfl | rest
        · cases inside
        · exact List.mem_cons_of_mem _ (ih rest inside)
      · cases pieces : line.splitOnP p with
        | nil => exact absurd pieces (List.splitOnP_ne_nil _ _)
        | cons front pieces' =>
            rw [pieces] at mem
            rcases List.mem_cons.mp mem with rfl | rest
            · rcases List.mem_cons.mp inside with rfl | inside
              · exact List.mem_cons_self
              · exact List.mem_cons_of_mem _ (ih (pieces ▸ List.mem_cons_self) inside)
            · exact List.mem_cons_of_mem _ (ih (pieces ▸ List.mem_cons_of_mem _ rest) inside)

theorem splitWhitespace_word (w : Word) : splitWhitespace w.text = [w.text] := by
  rw [splitWhitespace, List.splitOnP_eq_singleton fun c mem => (Word.mem mem).1]
  simp [w.some_]

theorem splitWhitespace_cons (blank : isWhitespace c = true) :
    splitWhitespace (c :: rest) = splitWhitespace rest := by
  rw [splitWhitespace, splitWhitespace, ← List.nil_append (c :: rest), List.splitOnP_append_cons _ _ blank]
  simp

theorem splitWhitespace_append (w : Word) (blank : isWhitespace c = true) :
    splitWhitespace (w.text ++ c :: rest) = w.text :: splitWhitespace rest := by
  rw [splitWhitespace, List.splitOnP_append_cons_of_forall_mem (fun c mem => (Word.mem mem).1) c blank]
  simp [splitWhitespace, w.some_]

theorem splitWhitespace_prepend (b : Blanks) : splitWhitespace (b.text ++ rest) = splitWhitespace rest := by
  obtain ⟨blanks, blank⟩ := b
  induction blanks with
  | nil => rfl
  | cons c blanks ih =>
      rw [List.all_cons, Bool.and_eq_true] at blank
      rw [List.cons_append, splitWhitespace_cons (whitespace_of_blank blank.1)]
      exact ih blank.2

theorem splitOnceWhitespace_append (plain : ∀ c ∈ line, isWhitespace c = false) (blank : isWhitespace c = true) :
    splitOnceWhitespace (line ++ c :: rest) = some (line, rest) := by
  have plain : ∀ c ∈ line, (!isWhitespace c) = true := fun c mem => by rw [plain c mem]; rfl
  rw [splitOnceWhitespace, List.dropWhile_append_of_pos plain, List.takeWhile_append_of_pos plain,
    List.dropWhile_cons_of_neg (by simp [blank]), List.takeWhile_cons_of_neg (by simp [blank]), List.append_nil]

theorem splitOnceWhitespace_eq_none (plain : ∀ c ∈ line, isWhitespace c = false) :
    splitOnceWhitespace line = none := by
  rw [splitOnceWhitespace, List.dropWhile_eq_nil_iff.mpr fun c mem => by rw [plain c mem]; rfl]

namespace Words

variable {first w : Word} {g : Gap} {more : List (Gap × Word)}

theorem text_cons : text ⟨first, (g, w) :: more⟩ = first.text ++ (g.text ++ text ⟨w, more⟩) := by
  simp [text]

theorem text_ne_nil (ws : Words) : ws.text ≠ [] := by simp [text, ws.first.some_]

theorem split (ws : Words) : splitWhitespace ws.text = ws.list := by
  obtain ⟨first, rest⟩ := ws
  induction rest generalizing first with
  | nil => rw [text, List.flatMap_nil, List.append_nil, splitWhitespace_word]; rfl
  | cons w more ih =>
      obtain ⟨⟨⟨gap, blank⟩, some_⟩, w⟩ := w
      rw [text_cons]
      cases gap with
      | nil => exact absurd rfl some_
      | cons b gap =>
          rw [List.all_cons, Bool.and_eq_true] at blank
          rw [List.cons_append, splitWhitespace_append first (whitespace_of_blank blank.1),
            splitWhitespace_prepend ⟨gap, blank.2⟩, ih]
          rfl

theorem mem {ws : Words} (mem : c ∈ ws.text) :
    (isWhitespace c = false ∧ c ≠ '(' ∧ c ≠ ')') ∨ isBlank c = true := by
  rw [text, List.mem_append, List.mem_flatMap] at mem
  rcases mem with own | ⟨one, -, inside⟩
  · exact .inl (Word.mem own)
  · rcases List.mem_append.mp inside with blank | own
    · exact .inr (Blanks.mem blank)
    · exact .inl (Word.mem own)

theorem last (ws : Words) : ∀ c ∈ ws.text.getLast?, isWhitespace c = false := by
  obtain ⟨first, rest⟩ := ws
  induction rest generalizing first with
  | nil =>
      intro c found
      rw [text, List.flatMap_nil, List.append_nil] at found
      exact (Word.mem (List.mem_of_getLast? found)).1
  | cons w more ih =>
      intro c found
      rw [text_cons, List.getLast?_append_of_ne_nil _ (by simp [text_ne_nil]),
        List.getLast?_append_of_ne_nil _ (text_ne_nil _)] at found
      exact ih w.2 c found

theorem trim_text (ws : Words) : trim ws.text = ws.text := by
  refine trim_eq_self (fun c first => ?_) ws.last
  rw [text, List.head?_append_of_ne_nil _ ws.first.some_] at first
  exact (Word.mem (List.mem_of_head? first)).1

end Words

theorem trim_of_ends (w : Word) (mark : isWhitespace c = false) :
    trim (w.text ++ (line ++ [c])) = w.text ++ (line ++ [c]) := by
  refine trim_eq_self (fun d first => ?_) fun d last => ?_
  · rw [List.head?_append_of_ne_nil _ w.some_] at first
    exact (Word.mem (List.mem_of_head? first)).1
  · rw [← List.append_assoc, List.getLast?_concat] at last
    cases last
    exact mark

theorem Frame.lineOf_around {f : Frame} {content : Text} (clear : f.Clear content)
    (trimmed : trim content = content) : lineOf (f.around content) = content := by
  have kept : beforeComment (f.around content) = f.tokens content := by
    obtain ⟨-, clear⟩ := clear
    rw [around]
    cases comment : f.comment with
    | none =>
        rw [comment, Option.isSome_none, if_neg Bool.false_ne_true, List.append_nil] at clear
        rw [Option.elim_none, List.append_nil]
        exact beforeComment_eq clear
    | some back =>
        rw [comment] at clear
        exact beforeComment_append clear
  rw [lineOf, kept, tokens, trim_prepend f.indent.whitespace, trim_append f.trail.whitespace, trimmed]

end Words

/-! ### What the loop finds -/

/-- What a line is read as outside a block. -/
def misread : List Text → Option (Text × Text)
  | verb :: path :: version :: _ =>
      if verb = require ∧ version.head? = some 'v' then some (path, version) else none
  | _ => none

namespace State

variable {deps : List (Text × Text)} {verb w : Word} {gap within : Blanks} {ws : Words}

theorem read_unopened (ws : Words) :
    State.read ⟨none, deps⟩ ws.text = ⟨none, deps ++ (misread ws.list).toList⟩ := by
  obtain ⟨first, rest⟩ := ws
  rw [State.read, if_neg (by simpa using Words.text_ne_nil _)]
  cases rest with
  | nil =>
      rw [Words.text, List.flatMap_nil, List.append_nil, splitOnceWhitespace_eq_none (Word.plain_of first)]
      simp [Words.list, misread]
  | cons w more =>
      obtain ⟨⟨⟨gap, blank⟩, some_⟩, w⟩ := w
      cases gap with
      | nil => exact absurd rfl some_
      | cons b gap =>
          rw [List.all_cons, Bool.and_eq_true] at blank
          have open_ : gap ++ Words.text ⟨w, more⟩ ≠ ['('] := by
            intro same
            have mem : '(' ∈ Words.text ⟨w, more⟩ := by
              have last := congrArg List.getLast? same
              rw [List.getLast?_append_of_ne_nil _ (Words.text_ne_nil _)] at last
              exact List.mem_of_getLast? last
            rcases Words.mem mem with own | blank
            · exact own.2.1 rfl
            · cases blank
          rw [Words.text_cons, List.cons_append,
            splitOnceWhitespace_append (Word.plain_of first) (whitespace_of_blank blank.1)]
          dsimp only
          have white : gap.all isWhitespace = true := Blanks.whitespace ⟨gap, blank.2⟩
          rw [if_neg open_, trim_prepend white, Words.trim_text, goRequirement, Words.split]
          by_cases own : first.text = require
          · rw [if_pos own]
            cases more <;> simp [Words.list, misread, own]
          · rw [if_neg own]
            cases more <;> simp [Words.list, misread, own]

theorem read_opened (ws : Words) : State.read ⟨some verb.text, deps⟩ ws.text =
    ⟨some verb.text, deps ++ (if verb.text = require then goRequirement ws.text else none).toList⟩ := by
  have shut : ws.text ≠ [')'] := by
    intro same
    have inside : ')' ∈ ws.text := by simp [same]
    rcases Words.mem inside with own | blank
    · exact own.2.2 rfl
    · cases blank
  rw [State.read, if_neg (by simpa using ws.text_ne_nil)]
  dsimp only
  rw [if_neg shut]
  split <;> simp

theorem read_close (block : Option Text) : State.read ⟨block, deps⟩ [')'] = ⟨none, deps⟩ := by
  cases block <;> rfl

theorem opening_plain (verb : Word) : ∀ c ∈ verb.text ++ ['('], isWhitespace c = false := by
  intro c mem
  rcases List.mem_append.mp mem with own | mark
  · exact (Word.mem own).1
  · cases List.mem_singleton.mp mark
    rfl

theorem read_open : State.read ⟨none, deps⟩ (verb.text ++ (gap.text ++ ['('])) =
    ⟨if gap.text.length = 1 then some verb.text else none, deps⟩ := by
  rw [State.read, if_neg (by simp)]
  obtain ⟨gap, blank⟩ := gap
  cases gap with
  | nil =>
      have plain := opening_plain verb
      rw [List.nil_append, splitOnceWhitespace_eq_none plain]
      rfl
  | cons b gap =>
      rw [List.all_cons, Bool.and_eq_true] at blank
      rw [List.cons_append, splitOnceWhitespace_append (Word.plain_of verb) (whitespace_of_blank blank.1)]
      dsimp only
      cases gap with
      | nil => rfl
      | cons b' gap =>
          have none_ : goRequirement (trim (b' :: gap ++ ['('])) = none := by
            rw [trim_prepend (Blanks.whitespace ⟨b' :: gap, blank.2⟩)]
            decide
          rw [if_neg (by simp), none_]
          split <;> simp

theorem goRequirement_of_notMem {line : Text} (free : 'v' ∉ line) : goRequirement line = none := by
  rw [goRequirement]
  split
  · rename_i path version _ words
    refine if_neg fun starts => free ?_
    have mem : version ∈ splitWhitespace line := by simp [words]
    exact mem_of_mem_splitOnP (List.mem_of_mem_filter mem) (List.mem_of_head? starts)
  · rfl

theorem read_empty : State.read ⟨none, deps⟩ (verb.text ++ (gap.text ++ '(' :: (within.text ++ [')']))) =
    ⟨none, deps⟩ := by
  have free : ∀ {line : Text}, (∀ c ∈ line, c = '(' ∨ c = ')' ∨ isBlank c = true) →
      goRequirement (trim line) = none := by
    intro line chars
    refine goRequirement_of_notMem fun mem => ?_
    have inside : 'v' ∈ line := (List.dropWhile_suffix _).subset ((List.rdropWhile_prefix _ _).subset mem)
    rcases chars 'v' inside with same | same | blank
    · cases same
    · cases same
    · cases blank
  have marks : ∀ {b : Text}, (∀ c ∈ b, isBlank c = true) →
      ∀ c ∈ b ++ [')'], c = '(' ∨ c = ')' ∨ isBlank c = true := by
    intro b blanks c mem
    rcases List.mem_append.mp mem with blank | mark
    · exact .inr (.inr (blanks c blank))
    · exact .inr (.inl (List.mem_singleton.mp mark))
  rw [State.read, if_neg (by simp)]
  obtain ⟨gap, blank⟩ := gap
  cases gap with
  | nil =>
      obtain ⟨within, blank'⟩ := within
      have joined : verb.text ++ ([] ++ '(' :: (within ++ [')'])) =
          (verb.text ++ ['(']) ++ (within ++ [')']) := by simp
      rw [joined]
      cases within with
      | nil =>
          have plain : ∀ c ∈ (verb.text ++ ['(']) ++ [')'], isWhitespace c = false := by
            intro c mem
            rcases List.mem_append.mp mem with own | mark
            · exact opening_plain verb c own
            · cases List.mem_singleton.mp mark
              rfl
          rw [List.nil_append, splitOnceWhitespace_eq_none plain]
      | cons b within =>
          rw [List.all_cons, Bool.and_eq_true] at blank'
          have other : verb.text ++ ['('] ≠ require := by
            intro same
            have last := congrArg List.getLast? same
            rw [List.getLast?_concat] at last
            cases last
          rw [List.cons_append, splitOnceWhitespace_append (opening_plain verb) (whitespace_of_blank blank'.1)]
          dsimp only
          rw [if_neg other, if_neg (by simp [List.append_eq_singleton_iff])]
  | cons b gap =>
      rw [List.all_cons, Bool.and_eq_true] at blank
      have shut : gap ++ '(' :: (within.text ++ [')']) ≠ ['('] := by
        intro same
        have last := congrArg List.getLast? same
        rw [← List.cons_append, ← List.append_assoc, List.getLast?_concat] at last
        cases last
      rw [List.cons_append, splitOnceWhitespace_append (Word.plain_of verb) (whitespace_of_blank blank.1)]
      dsimp only
      rw [if_neg shut, free]
      · split <;> simp
      · intro c mem
        rcases List.mem_append.mp mem with own | rest
        · exact .inr (.inr (List.all_eq_true.mp blank.2 c own))
        · rcases List.mem_cons.mp rest with rfl | rest
          · exact .inl rfl
          · exact marks (fun c mem => Blanks.mem mem) c rest

end State

namespace Item

variable {item : Item} {deps : List (Text × Text)}

def found : Item → List (Text × Text)
  | blank _ | empty .. => []
  | single _ line => (misread line.list).toList
  | block _ verb gap entries _ => (entries.filterMap Prod.snd).filterMap fun ws =>
      if gap.text.length = 1 then (if verb.text = require then goRequirement ws.text else none)
      else misread ws.list

/-- What lies between the blanks of a row is all the loop makes of it, and it is on one line. -/
theorem row_spec {row : Frame × Text} (mem : row ∈ item.rows) : trim row.2 = row.2 ∧ '\n' ∉ row.2 := by
  have word : ∀ w : Word, '\n' ∉ w.text := fun w mem => by cases (Word.mem mem).1
  have blanks : ∀ b : Blanks, '\n' ∉ b.text := fun b mem => by cases Blanks.mem mem
  have words : ∀ ws : Words, '\n' ∉ ws.text := fun ws mem => by
    rcases Words.mem mem with own | blank
    · cases own.1
    · cases blank
  cases item with
  | blank f =>
      cases List.mem_singleton.mp mem
      exact ⟨rfl, by simp⟩
  | single f line =>
      cases List.mem_singleton.mp mem
      exact ⟨line.trim_text, words line⟩
  | empty f verb gap within =>
      cases List.mem_singleton.mp mem
      refine ⟨?_, by simp [word, blanks]⟩
      have joined : gap.text ++ '(' :: (within.text ++ [')']) =
          (gap.text ++ '(' :: within.text) ++ [')'] := by simp
      dsimp only
      rw [joined]
      exact trim_of_ends verb (by decide)
  | block opens verb gap entries closes =>
      rcases List.mem_append.mp mem with front | last
      · rcases List.mem_cons.mp front with rfl | inside
        · exact ⟨trim_of_ends verb (by decide), by simp [word, blanks]⟩
        · obtain ⟨⟨f, ws⟩, -, rfl⟩ := List.mem_map.mp inside
          cases ws with
          | none => exact ⟨rfl, by simp [contentOf]⟩
          | some ws => exact ⟨ws.trim_text, words ws⟩
      · cases List.mem_singleton.mp last
        exact ⟨rfl, by simp⟩

theorem foldl_entries {block : Option Text} {f : Words → Option (Text × Text)}
    (turn : ∀ ws deps, State.read ⟨block, deps⟩ ws.text = ⟨block, deps ++ (f ws).toList⟩)
    (entries : List (Frame × Option Words)) :
    (entries.map fun e => (e.1, contentOf e.2)).foldl (fun s row => State.read s row.2) ⟨block, deps⟩ =
      ⟨block, deps ++ (entries.filterMap Prod.snd).filterMap f⟩ := by
  induction entries generalizing deps with
  | nil => simp
  | cons e entries ih =>
      obtain ⟨frame, _ | ws⟩ := e
      · exact ih
      · rw [List.map_cons, List.foldl_cons, contentOf, Option.elim_some, turn, ih]
        cases held : f ws <;> simp [held]

theorem foldl_rows (item : Item) :
    item.rows.foldl (fun s row => State.read s row.2) ⟨none, deps⟩ = ⟨none, deps ++ item.found⟩ := by
  cases item with
  | blank f => simp [rows, found, State.read]
  | single f line => exact State.read_unopened line
  | empty f verb gap within => simp [rows, found, State.read_empty]
  | block opens verb gap entries closes =>
      simp only [rows, List.foldl_append, List.foldl_cons, List.foldl_nil, State.read_open]
      by_cases one : gap.text.length = 1
      · rw [if_pos one, foldl_entries fun ws deps => State.read_opened ws, State.read_close]
        simp [found, one]
      · rw [if_neg one, foldl_entries fun ws deps => State.read_unopened ws, State.read_close]
        simp [found, one]

end Item

theorem parseGoMod_goModOf {doc : List Item} (formed : ∀ item ∈ doc, item.WellFormed) :
    parseGoMod (goModOf doc) = doc.flatMap Item.found := by
  have rows : ∀ row ∈ doc.flatMap Item.rows, '\n' ∉ row.1.around row.2 ∧ lineOf (row.1.around row.2) = row.2 := by
    intro row mem
    obtain ⟨item, mem, inside⟩ := List.mem_flatMap.mp mem
    have clear := (formed item mem).1 row inside
    obtain ⟨trimmed, flat⟩ := Item.row_spec inside
    refine ⟨?_, Frame.lineOf_around clear trimmed⟩
    have blanks : ∀ b : Blanks, '\n' ∉ b.text := fun b mem => by cases Blanks.mem mem
    have comment := clear.1
    rw [Frame.around, Frame.tokens]
    cases held : row.1.comment with
    | none => simp [blanks, flat]
    | some back =>
        rw [held] at comment
        simpa [blanks, flat] using comment
  have loop : ∀ deps, (doc.flatMap Item.rows).foldl (fun s row => State.read s row.2) ⟨none, deps⟩ =
      ⟨none, deps ++ doc.flatMap Item.found⟩ := by
    clear formed rows
    induction doc with
    | nil => simp
    | cons item doc ih =>
        intro deps
        rw [List.flatMap_cons, List.foldl_append, item.foldl_rows, ih, List.flatMap_cons, List.append_assoc]
  have whole : ((doc.flatMap Item.rows).map fun row => row.1.around row.2).foldl
      (fun s raw => State.read s (lineOf raw)) ⟨none, []⟩ = ⟨none, doc.flatMap Item.found⟩ := by
    have turn := fun (s : State) row mem => congrArg s.read (rows row mem).2
    rw [List.foldl_map, List.foldl_ext _ (fun s row => State.read s row.2) _ turn, loop, List.nil_append]
  rw [parseGoMod, foldl_lines, goModOf]
  by_cases none_ : (doc.flatMap Item.rows).map (fun row => row.1.around row.2) = []
  · rw [none_] at whole ⊢
    exact congrArg State.deps whole
  · rw [List.splitOn_intercalate _ _ none_, whole]
    intro line mem
    obtain ⟨row, there, rfl⟩ := List.mem_map.mp mem
    exact (rows row there).1

/-! ### What is required -/

section Required

variable {verb : Text} {args : List Text} {pair : Text × Text}

theorem pair_of_require (own : verb = require) (formed : Directive.WellFormed (verb, args)) :
    ∃ path version, args = [path, version] ∧ path ≠ "=>".toList := by
  rw [Directive.WellFormed, if_pos own] at formed
  obtain ⟨path, version, pair⟩ := List.length_eq_two.mp formed.1
  exact ⟨path, version, pair, fun same => formed.2 (by rw [pair, same]; rfl)⟩

theorem requirement_of_ne (other : verb ≠ require) : Directive.requirement (verb, args) = none := by
  rw [Directive.requirement.eq_def]
  split
  · rename_i same
    cases same
    exact if_neg fun both => other both.1
  · rfl

theorem requirement_path (formed : Directive.WellFormed (verb, args))
    (found : Directive.requirement (verb, args) = some pair) : pair.1 ≠ "=>".toList := by
  by_cases own : verb = require
  · obtain ⟨path, version, rfl, apart⟩ := pair_of_require own formed
    rw [Directive.requirement] at found
    split at found
    · cases found
      exact apart
    · cases found
  · rw [requirement_of_ne own] at found
    cases found

theorem misread_cons (formed : Directive.WellFormed (verb, args)) :
    misread (verb :: args) = Directive.requirement (verb, args) := by
  by_cases own : verb = require
  · obtain ⟨path, version, rfl, -⟩ := pair_of_require own formed
    rfl
  · rw [requirement_of_ne own, misread.eq_def]
    split
    · rename_i same
      cases same
      exact if_neg fun both => own both.1
    · rfl

theorem misread_pair (own : verb = require) (formed : Directive.WellFormed (verb, args)) :
    misread args = none := by
  obtain ⟨path, version, rfl, -⟩ := pair_of_require own formed
  rfl

/-- In another block only a replacement of `require` is read as one, and as a requirement of the arrow. -/
theorem misread_eq_some_iff (other : verb ≠ require) (formed : Directive.WellFormed (verb, args)) :
    misread args = some pair ↔ args[0]? = some require ∧ args[1]? = some "=>".toList ∧
      args[2]? = some pair.2 ∧ pair.2.head? = some 'v' ∧ pair.1 = "=>".toList := by
  rw [Directive.WellFormed, if_neg other] at formed
  rw [misread.eq_def]
  split
  · rename_i first path version rest
    constructor
    · intro found
      split at found
      · rename_i both
        obtain ⟨rfl, starts⟩ := both
        cases found
        have arrow : path = "=>".toList := by
          rcases formed with short | interval | arrow | arrow
          · simp only [List.length_cons] at short
            omega
          · cases interval
          · exact Option.some.inj arrow
          · rw [Option.some.inj arrow] at starts
            cases starts
        subst arrow
        exact ⟨rfl, rfl, rfl, starts, rfl⟩
      · cases found
    · rintro ⟨first', arrow, same, starts, path'⟩
      cases first'
      cases arrow
      cases same
      rw [if_pos ⟨rfl, starts⟩, ← path']
  · rename_i few
    refine iff_of_false (fun none_ => by cases none_) fun ⟨first, arrow, same, _⟩ => ?_
    match args with
    | [] => cases first
    | [_] => cases arrow
    | [_, _] => cases same
    | a :: b :: c :: rest => exact few a b c rest rfl

theorem goRequirement_words {ws : Words} (own : verb = require) (formed : Directive.WellFormed (verb, ws.list)) :
    goRequirement ws.text = Directive.requirement (verb, ws.list) := by
  obtain ⟨path, version, pair, -⟩ := pair_of_require own formed
  rw [goRequirement, ws.split, pair]
  simp [Directive.requirement, own]

end Required

namespace Item

variable {item : Item}

theorem found_single {f : Frame} {line : Words} (formed : (single f line).WellFormed) :
    (single f line).found = (single f line).requirements := by
  have alone := misread_cons (formed.2 _ (List.mem_singleton_self _))
  rw [found, Words.list, alone, requirements, directives, List.filterMap_cons]
  cases Directive.requirement _ <;> rfl

section Block

variable {opens closes : Frame} {verb : Word} {gap : Blanks} {entries : List (Frame × Option Words)}

theorem formed_entry (formed : (block opens verb gap entries closes).WellFormed) :
    ∀ ws ∈ entries.filterMap Prod.snd, Directive.WellFormed (verb.text, ws.list) :=
  fun _ mem => formed.2 _ (List.mem_map_of_mem mem)

theorem found_opened (formed : (block opens verb gap entries closes).WellFormed) (one : gap.text.length = 1) :
    (block opens verb gap entries closes).found = (block opens verb gap entries closes).requirements := by
  rw [found, requirements, directives, List.filterMap_map]
  refine List.filterMap_congr fun ws mem => ?_
  rw [if_pos one]
  by_cases own : verb.text = require
  · rw [if_pos own]
    exact goRequirement_words own (formed_entry formed ws mem)
  · rw [if_neg own]
    exact (requirement_of_ne own).symm

theorem found_unopened (several : gap.text.length ≠ 1) : (block opens verb gap entries closes).found =
    (entries.filterMap Prod.snd).filterMap fun ws => misread ws.list := by
  rw [found]
  exact List.filterMap_congr fun ws _ => if_neg several

end Block

/-- What is found is what is meant; or nothing, for what is lost; or arrows, for what is nothing. -/
theorem found_cases (formed : item.WellFormed) : item.found = item.requirements ∨ item.found = [] ∨
    ∀ pair ∈ item.found, pair.1 = "=>".toList := by
  cases item with
  | blank f => exact .inl rfl
  | single f line => exact .inl (found_single formed)
  | empty f verb gap within => exact .inl rfl
  | block opens verb gap entries closes =>
      by_cases one : gap.text.length = 1
      · exact .inl (found_opened formed one)
      · rw [found_unopened one]
        by_cases own : verb.text = require
        · exact .inr (.inl (List.filterMap_eq_nil_iff.mpr fun ws mem =>
            misread_pair own (formed_entry formed ws mem)))
        · refine .inr (.inr fun pair mem => ?_)
          obtain ⟨ws, mem, hit⟩ := List.mem_filterMap.mp mem
          exact ((misread_eq_some_iff own (formed_entry formed ws mem)).mp hit).2.2.2.2

theorem found_eq_iff (formed : item.WellFormed) : item.found = item.requirements ↔ item.Plain := by
  cases item with
  | blank f => exact iff_of_true rfl trivial
  | single f line => exact iff_of_true (found_single formed) trivial
  | empty f verb gap within => exact iff_of_true rfl trivial
  | block opens verb gap entries closes =>
      by_cases one : gap.text.length = 1
      · exact iff_of_true (found_opened formed one) (.inl one)
      · rw [found_unopened one, requirements, directives, List.filterMap_map, Plain, or_iff_right one]
        by_cases own : verb.text = require
        · rw [List.filterMap_eq_nil_iff.mpr fun ws mem => misread_pair own (formed_entry formed ws mem), eq_comm,
            List.filterMap_eq_nil_iff]
          refine forall₂_congr fun ws mem => ?_
          obtain ⟨path, version, pair, -⟩ := pair_of_require own (formed_entry formed ws mem)
          rw [if_pos own, Function.comp_apply, pair]
          simp [Directive.requirement, own]
        · have nothing : (entries.filterMap Prod.snd).filterMap
              (Directive.requirement ∘ fun ws => (verb.text, ws.list)) = [] :=
            List.filterMap_eq_nil_iff.mpr fun ws _ => requirement_of_ne own
          rw [nothing, List.filterMap_eq_nil_iff]
          refine forall₂_congr fun ws mem => ?_
          have hit := @misread_eq_some_iff verb.text ws.list
          rw [if_neg own, Option.eq_none_iff_forall_ne_some]
          constructor
          · rintro quiet ⟨first, arrow, starts⟩
            cases there : ws.list[2]? with
            | none =>
                rw [there] at starts
                cases starts
            | some path =>
                rw [there] at starts
                exact quiet ("=>".toList, path)
                  ((hit own (formed_entry formed ws mem)).mpr ⟨first, arrow, there, eq_of_beq starts, rfl⟩)
          · rintro quiet pair found
            obtain ⟨first, arrow, there, starts, -⟩ := (hit own (formed_entry formed ws mem)).mp found
            exact quiet ⟨first, arrow, by rw [there, Option.any_some, starts]; rfl⟩

end Item

theorem eq_of_flatMap_eq {α β : Type*} {f g : α → List β} {l : List α} (part : ∀ a ∈ l, (f a).Sublist (g a))
    (same : l.flatMap f = l.flatMap g) : ∀ a ∈ l, f a = g a := by
  induction l with
  | nil => exact fun _ none => by cases none
  | cons a l ih =>
      have rest := fun b mem => part b (List.mem_cons_of_mem a mem)
      have sizes := congrArg List.length same
      have first := (part a List.mem_cons_self).length_le
      have others := (List.Sublist.flatMap_right l rest).length_le
      rw [List.flatMap_cons, List.flatMap_cons] at same
      rw [List.flatMap_cons, List.flatMap_cons, List.length_append, List.length_append] at sizes
      have own : f a = g a := (part a List.mem_cons_self).eq_of_length (by omega)
      rw [own] at same
      intro b mem
      rcases List.mem_cons.mp mem with rfl | mem
      · exact own
      · exact ih rest (List.append_cancel_left same) b mem

/-- Every requirement of a go.mod is read, in order, and nothing else, if and only if each block is opened with one
blank, or holds nothing that is lost with its opening or mistaken without it. -/
theorem requirements_read_completely_iff {doc : List Item} (formed : ∀ item ∈ doc, item.WellFormed) :
    parseGoMod (goModOf doc) = doc.flatMap Item.requirements ↔ ∀ item ∈ doc, item.Plain := by
  rw [parseGoMod_goModOf formed]
  constructor
  · intro same item mem
    have real : ∀ item ∈ doc, ∀ pair ∈ item.found, pair.1 ≠ "=>".toList := by
      intro item mem pair inside
      have there : pair ∈ doc.flatMap Item.requirements := same ▸ List.mem_flatMap.mpr ⟨item, mem, inside⟩
      obtain ⟨other, mem', required⟩ := List.mem_flatMap.mp there
      obtain ⟨d, held, required⟩ := List.mem_filterMap.mp required
      exact requirement_path ((formed other mem').2 d held) required
    have part : ∀ item ∈ doc, item.found.Sublist item.requirements := by
      intro item mem
      rcases Item.found_cases (formed item mem) with same | none_ | arrows
      · rw [same]
      · rw [none_]
        exact List.nil_sublist _
      · have none_ : item.found = [] := List.eq_nil_iff_forall_not_mem.mpr fun pair inside =>
          real item mem pair inside (arrows pair inside)
        rw [none_]
        exact List.nil_sublist _
    exact (Item.found_eq_iff (formed item mem)).mp (eq_of_flatMap_eq part same item mem)
  · intro plain
    exact List.flatMap_congr fun item mem => (Item.found_eq_iff (formed item mem)).mpr (plain item mem)

/-! ### A block without a blank -/

def noBlanks : Blanks := ⟨[], rfl⟩
def oneBlank : Gap := ⟨⟨[' '], rfl⟩, by decide⟩
def bare : Frame := ⟨noBlanks, noBlanks, none⟩
def indented : Frame := ⟨⟨['\t'], rfl⟩, ⟨[' '], rfl⟩, some " indirect".toList⟩

def textModule : Words :=
  ⟨⟨"golang.org/x/text".toList, by decide, by decide⟩, [(oneBlank, ⟨"v0.3.7".toList, by decide, by decide⟩)]⟩

/-- One requirement, in a block that is opened so. -/
def requiring (gap : Blanks) : List Item :=
  [.block bare ⟨require, by decide, by decide⟩ gap [(indented, some textModule)] bare]

theorem block_after_a_blank_is_read :
    parseGoMod (goModOf (requiring oneBlank.toBlanks)) = [("golang.org/x/text".toList, "v0.3.7".toList)] := by
  have formed : ∀ item ∈ requiring oneBlank.toBlanks, item.WellFormed := by decide
  refine ((requirements_read_completely_iff formed).mpr fun item mem => ?_).trans (by decide)
  cases List.mem_singleton.mp mem
  exact .inl rfl

/-- Without the blank the file is the same to Go, and requires nothing here. -/
theorem block_without_a_blank_is_lost :
    (∀ item ∈ requiring noBlanks, item.WellFormed) ∧
      goModOf (requiring noBlanks) = "require(\n\tgolang.org/x/text v0.3.7 // indirect\n)".toList ∧
      (requiring noBlanks).flatMap Item.requirements = [("golang.org/x/text".toList, "v0.3.7".toList)] ∧
      parseGoMod (goModOf (requiring noBlanks)) = [] := by
  decide

end OpenCargo.Telemetry
