/-
Module: OpenCargo.Maven.Version
Purpose: Maven's version order (`registry/maven/version.rs`): a version is cut into items at its dots,
  its dashes and where digits meet letters, and two versions are compared item by item.
Trusted boundary: none
Main exports: Item, Version.parse, Version.compare
-/
import OpenCargo.Domain

namespace OpenCargo.Maven

/-- One component of a version: a number without its leading zeros, a qualifier, or what follows a
dash. -/
inductive Item where
  | int (digits : Text)
  | str (qualifier : Text)
  | list (items : List Item)
deriving Repr, Inhabited

namespace Version

/-- `Ord::cmp` of strings. -/
def cmpText (a b : Text) : Ordering := compareOfLessAndEq a b

def qualifiers : List Text :=
  ["alpha", "beta", "milestone", "rc", "snapshot", "", "sp"].map String.toList

/-- A known qualifier by its place, any other after them by its name; compared as text. -/
def qualifierRank (q : Text) : Text :=
  match qualifiers.findIdx? (· == q) with
  | some i => Nat.toDigits 10 i
  | none => Nat.toDigits 10 qualifiers.length ++ '-' :: q

def stringItem (s : Text) (followedByDigit : Bool) : Item :=
  let s := s.map Char.toLower
  let s :=
    if followedByDigit then
      if s = "a".toList then "alpha".toList
      else if s = "b".toList then "beta".toList
      else if s = "m".toList then "milestone".toList
      else s
    else s
  .str
    (if s = "ga".toList ∨ s = "final".toList ∨ s = "release".toList then []
     else if s = "cr".toList then "rc".toList
     else s)

def intItem (s : Text) : Item := .int (s.dropWhile (· == '0'))

def isNull : Item → Bool
  | .int n => n.isEmpty
  | .str s => s.isEmpty
  | .list l => l.isEmpty

/-- Trailing null items go. -/
def normalize (items : List Item) : List Item := items.rdropWhile isNull

/-- Where the scan of a version stands: the lists that are open, the innermost first, the characters
since the last cut, and whether the last of them that was no separator is a digit. -/
structure Scan where
  top : List Item
  below : List (List Item)
  token : Text
  digit : Bool

namespace Scan

def start : Scan := ⟨[], [], [], false⟩

/-- The token becomes an item of the innermost list. -/
def push (scan : Scan) (digit nextDigit : Bool) : Scan :=
  let item :=
    if scan.token.isEmpty then .int []
    else if digit then intItem scan.token
    else stringItem scan.token nextDigit
  { scan with top := scan.top ++ [item], token := [] }

def nest (scan : Scan) : Scan := { scan with top := [], below := scan.top :: scan.below }

def char (scan : Scan) (c : Char) : Scan :=
  if c = '.' then
    scan.push scan.digit false
  else if c = '-' then
    (scan.push scan.digit false).nest
  else if c.isDigit then
    let cut := if !scan.digit && !scan.token.isEmpty then (scan.push false true).nest else scan
    { cut with token := cut.token ++ [c], digit := true }
  else
    let cut := if scan.digit && !scan.token.isEmpty then (scan.push true false).nest else scan
    { cut with token := cut.token ++ [c], digit := false }

/-- The open lists are closed, each into the one around it. -/
def close (scan : Scan) : List Item :=
  let last := if scan.token.isEmpty then scan else scan.push scan.digit false
  normalize (last.below.foldl (fun inner outer => outer ++ [.list (normalize inner)]) last.top)

end Scan

def parse (version : Text) : List Item := (version.foldl Scan.char Scan.start).close

def cmpInt (a b : Text) : Ordering := (compare a.length b.length).then (cmpText a b)

/-- An item against none. -/
def cmpNull : Item → Ordering
  | .int n => if n.isEmpty then .eq else .gt
  | .str s => cmpText (qualifierRank s) (qualifierRank [])
  | .list [] => .eq
  | .list (first :: _) => cmpNull first

/-- No items against some. -/
def cmpNone : List Item → Ordering
  | [] => .eq
  | item :: items => (cmpNull item).swap.then (cmpNone items)

mutual

def cmpItem : Item → Item → Ordering
  | .int x, .int y => cmpInt x y
  | .int _, _ => .gt
  | .str _, .int _ => .lt
  | .str x, .str y => cmpText (qualifierRank x) (qualifierRank y)
  | .str _, .list _ => .lt
  | .list _, .int _ => .lt
  | .list _, .str _ => .gt
  | .list xs, .list ys => cmpLists xs ys

/-- Item by item, to the end of the longer one. -/
def cmpLists : List Item → List Item → Ordering
  | [], ys => cmpNone ys
  | x :: xs, [] => (cmpNull x).then (cmpLists xs [])
  | x :: xs, y :: ys => (cmpItem x y).then (cmpLists xs ys)

end

/-- `compare` of two versions. -/
def compare (a b : Text) : Ordering := cmpLists (parse a) (parse b)

end Version

end OpenCargo.Maven
