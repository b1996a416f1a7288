/-
Module: OpenCargo.Pypi.Version
Purpose: PEP 440 versions (`registry/pypi/version.rs`): the cursor that reads one, the spelling it is printed in,
  and the order it sorts by.
Trusted boundary: none
Main exports: Pep440.parse, Pep440.canonical, Pep440.cmp, compareVersions
-/
import Mathlib.Data.List.MinMax
import OpenCargo.Domain

namespace OpenCargo.Pypi

inductive Pre where
  | alpha (n : Nat)
  | beta (n : Nat)
  | rc (n : Nat)
deriving Repr, DecidableEq, Inhabited

structure Pep440 where
  epoch : Nat
  release : List Nat
  pre : Option Pre
  post : Option Nat
  dev : Option Nat
  local_ : List Text
deriving Repr, DecidableEq, Inhabited

/-! ### The cursor -/

namespace Scan

/-- What a run of digits is worth. -/
def value (digits : Text) : Nat := Nat.ofDigitChars 10 digits 0

/-- The digits the cursor stands at, and what it stands at after them: also where their value is no `u64`. -/
def number (s : Text) : Option Nat × Text :=
  let digits := s.takeWhile Char.isDigit
  (if digits.isEmpty then none else if value digits < 2 ^ 64 then some (value digits) else none,
    s.dropWhile Char.isDigit)

def isSeparator (c : Char) : Bool := c == '-' || c == '_' || c == '.'

def separator : Text → Text
  | [] => []
  | c :: rest => if isSeparator c then rest else c :: rest

/-- The longest of the words the text starts with. -/
def word (words : List Text) (s : Text) : Option (Text × Text) :=
  ((words.filter fun w => w.isPrefixOf s).argmax List.length).map fun w => (w, s.drop w.length)

/-- An optional separator, a label, an optional separator and number; nothing consumed when the label is
absent. -/
def labelled (words : List Text) (s : Text) : Option (Text × Option Nat) × Text :=
  match word words (separator s) with
  | none => (none, s)
  | some (label, before) =>
      match number (separator before) with
      | (some n, rest) => (some (label, some n), rest)
      | (none, _) => (some (label, none), before)

/-- The text goes on with this sign and a digit. -/
def goesOn (sign : Char) : Text → Bool
  | c :: d :: _ => c == sign && d.isDigit
  | _ => false

/-- The epoch, where one is written, and the first number of the release. -/
def first (s : Text) : Option (Nat × Nat × Text) :=
  match number s with
  | (some epoch, '!' :: s) =>
      match number s with
      | (some n, s) => some (epoch, n, s)
      | (none, _) => none
  | (some n, s) => some (0, n, s)
  | (none, _) => none

/-- The other numbers of the release, in as many turns at most. -/
def release : Nat → Text → Option (List Nat × Text)
  | 0, s => some ([], s)
  | turns + 1, s =>
      if goesOn '.' s then
        match number (s.drop 1) with
        | (some n, s) => (release turns s).map fun (more, s) => (n :: more, s)
        | (none, _) => none
      else some ([], s)

def preWords : List Text := ["alpha", "a", "beta", "b", "preview", "pre", "rc", "c"].map String.toList

def postWords : List Text := ["post", "rev", "r"].map String.toList

def devWords : List Text := ["dev".toList]

def preOf (label : Text) (n : Nat) : Pre :=
  if label = "alpha".toList ∨ label = "a".toList then .alpha n
  else if label = "beta".toList ∨ label = "b".toList then .beta n
  else .rc n

def pre (s : Text) : Option Pre × Text :=
  match labelled preWords s with
  | (some (label, n), s) => (some (preOf label (n.getD 0)), s)
  | (none, s) => (none, s)

def post (s : Text) : Option Nat × Text :=
  if goesOn '-' s then number (s.drop 1)
  else
    match labelled postWords s with
    | (some (_, n), s) => (some (n.getD 0), s)
    | (none, s) => (none, s)

def dev (s : Text) : Option Nat × Text :=
  match labelled devWords s with
  | (some (_, n), s) => (some (n.getD 0), s)
  | (none, s) => (none, s)

def isSegment (part : Text) : Bool := !part.isEmpty && part.all Char.isAlphanum

/-- The local segments: everything after a plus. -/
def localParts : Text → Option (List Text × Text)
  | '+' :: rest => if (rest.splitOnP isSeparator).all isSegment then some (rest.splitOnP isSeparator, []) else none
  | s => some ([], s)

end Scan

/-- The characters with Unicode's `White_Space`. -/
def isWhitespace (c : Char) : Bool :=
  let n := c.toNat
  (9 ≤ n && n ≤ 13) || n = 0x20 || n = 0x85 || n = 0xA0 || n = 0x1680 || (0x2000 ≤ n && n ≤ 0x200A) ||
    n = 0x2028 || n = 0x2029 || n = 0x202F || n = 0x205F || n = 0x3000

/-- `str::trim` and `to_ascii_lowercase`. -/
def lowered (raw : Text) : Text := ((raw.dropWhile isWhitespace).rdropWhile isWhitespace).map Char.toLower

def unversioned : Text → Text
  | 'v' :: rest => rest
  | s => s

namespace Pep440

/-- What passes is ASCII, so that its bytes are its characters. -/
def parse (raw : Text) : Option Pep440 := do
  let (epoch, n, s) ← Scan.first (unversioned (lowered raw))
  let (more, s) ← Scan.release s.length s
  let (pre, s) := Scan.pre s
  let (post, s) := Scan.post s
  let (dev, s) := Scan.dev s
  let (local_, s) ← Scan.localParts s
  if s.isEmpty then some ⟨epoch, n :: more, pre, post, dev, local_⟩ else none

/-! ### Printed -/

def number (n : Nat) : Text := Nat.toDigits 10 n

def renderPre : Option Pre → Text
  | some (.alpha n) => 'a' :: number n
  | some (.beta n) => 'b' :: number n
  | some (.rc n) => 'r' :: 'c' :: number n
  | none => []

def renderNumber (label : Text) : Option Nat → Text
  | some n => label ++ number n
  | none => []

def render (v : Pep440) (release : List Nat) : Text :=
  (if v.epoch = 0 then [] else number v.epoch ++ ['!']) ++
    (['.'].intercalate (release.map number) ++
      (renderPre v.pre ++
        (renderNumber ".post".toList v.post ++
          (renderNumber ".dev".toList v.dev ++
            if v.local_.isEmpty then [] else '+' :: ['.'].intercalate v.local_))))

/-- The normalized spelling, as a filename carries it. -/
def normalized (v : Pep440) : Text := v.render v.release

/-- Trailing zeros cut off, but for the first number. -/
def trimmed : List Nat → List Nat
  | [] => []
  | n :: more => n :: more.rdropWhile (· == 0)

/-- One string per version. -/
def canonical (v : Pep440) : Text := v.render (trimmed v.release)

/-! ### Compared -/

/-- Place by place, a missing one as a zero. -/
def releaseCmp (a b : List Nat) : Ordering :=
  let places := (List.range (max a.length b.length)).map fun i => compare (a.getD i 0) (b.getD i 0)
  (places.find? (· ≠ .eq)).getD .eq

/-- A dev release sorts before its pre-releases, a pre-release before the release, a post-release after it. -/
def preKey (v : Pep440) : Int × Nat :=
  match v.pre, v.post, v.dev with
  | none, none, some _ => (-1, 0)
  | none, _, _ => (3, 0)
  | some (.alpha n), _, _ => (0, n)
  | some (.beta n), _, _ => (1, n)
  | some (.rc n), _, _ => (2, n)

def postKey (v : Pep440) : Nat × Nat :=
  match v.post with
  | some n => (1, n)
  | none => (0, 0)

def devKey (v : Pep440) : Nat × Nat :=
  match v.dev with
  | some n => (0, n)
  | none => (1, 0)

/-- A local segment: a `u64`, or a text below all of them. -/
def partKey (part : Text) : Nat × Nat × Text :=
  if !part.isEmpty && part.all Char.isDigit && decide (Scan.value part < 2 ^ 64) then (1, Scan.value part, [])
  else (0, 0, part)

def pairCmp {α β : Type} [Ord α] [Ord β] (a b : α × β) : Ordering := (compare a.1 b.1).then (compare a.2 b.2)

def partCmp (p q : Text) : Ordering :=
  (compare (partKey p).1 (partKey q).1).then (pairCmp (partKey p).2 (partKey q).2)

def localCmp (a b : List Text) : Ordering := List.compareLex partCmp a b

def cmp (a b : Pep440) : Ordering :=
  (compare a.epoch b.epoch).then <| (releaseCmp a.release b.release).then <|
    (pairCmp a.preKey b.preKey).then <| (pairCmp a.postKey b.postKey).then <|
      (pairCmp a.devKey b.devKey).then (localCmp a.local_ b.local_)

end Pep440

/-- `compare`: a text that does not parse sorts first. -/
def compareVersions (a b : Text) : Ordering :=
  match Pep440.parse a, Pep440.parse b with
  | some x, some y => x.cmp y
  | some _, none => .gt
  | none, some _ => .lt
  | none, none => compare a b

end OpenCargo.Pypi
