/-
Module: OpenCargo.Import.Spool
Purpose: How an artifact of the source is downloaded and checked against the digests the source announced
  (`spool` and `verify` of `adapters/import/http.rs`), which comparisons that makes, and when an artifact is
  rightly called verified.
Trusted boundary: the hash functions and base64, the transport and the disk, which are arguments
Main exports: verify_eq, Correct, RightlyJudged, spool_judges_rightly_iff
-/
import OpenCargo.Import.Ports
import OpenCargo.Proxy.Strategy

namespace OpenCargo.Import

open Proxy (Url lower)
open Layout (stripPrefix stripPrefix_eq_some)

/-! ### The download -/

inductive FetchError where
  | notFound (what : Text)
  | refused (message : Text)
  | auth (message : Text)
  | tooLarge (size limit : Nat)
  | checksum (message : Text)
  | transient (message : Text)
  | permanent (message : Text)
deriving Repr, DecidableEq, Inhabited

/-- `Digests::is_empty`. -/
def Digests.isEmpty (want : Digests) : Bool := want.sha256.isNone && want.sha1.isNone && want.integrity.isNone

/-- The digests of a body, and how bytes are spelled in base64. -/
structure Hashes where
  md5 : List UInt8 → List UInt8
  sha256 : List UInt8 → List UInt8
  sha1 : List UInt8 → List UInt8
  sha512 : List UInt8 → List UInt8
  base64 : List UInt8 → Text
  /-- The standard alphabet, and its padding. -/
  alphabet : ∀ bytes, ∀ c ∈ base64 bytes, c.isAlphanum = true ∨ c = '+' ∨ c = '/' ∨ c = '='

structure Spooled where
  path : Text
  size : Nat
  sha256 : Text
  sha1 : Text
  sha512 : List UInt8
  unverified : Bool
deriving Repr, DecidableEq, Inhabited

def hex (bytes : List UInt8) : Text :=
  bytes.flatMap fun b => [Nat.digitChar (b.toNat / 16), Nat.digitChar (b.toNat % 16)]

structure Response where
  contentLength : Option Nat
  chunks : List (Except FetchError (List UInt8))

/-- What a download meets: the source's answer, the size cap, and the spool file. -/
structure Gate where
  answer : Except FetchError Response
  maxArtifactSize : Nat
  path : Text
  create : Except Text Unit
  write : List UInt8 → Except Text Unit
  flush : Except Text Unit

def onSpool (result : Except Text Unit) : Except FetchError Unit :=
  result.mapError fun e => .permanent ("spool: ".toList ++ e)

/-- The chunks, written as they come, up to the cap. -/
def Gate.receive (gate : Gate) : List (Except FetchError (List UInt8)) → List UInt8 → Except FetchError (List UInt8)
  | [], received => .ok received
  | chunk :: rest, received => do
      let chunk ← chunk
      let size := received.length + chunk.length
      if gate.maxArtifactSize < size then throw (.tooLarge size gate.maxArtifactSize)
      onSpool (gate.write chunk)
      gate.receive rest (received ++ chunk)

/-- The body that is downloaded, to the end. -/
def Gate.download (gate : Gate) : Except FetchError (List UInt8) := do
  let response ← gate.answer
  if let some size := response.contentLength then
    if gate.maxArtifactSize < size then throw (.tooLarge size gate.maxArtifactSize)
  onSpool gate.create
  let body ← gate.receive response.chunks []
  onSpool gate.flush
  pure body

/-! ### The check -/

/-- `trim_start_matches`, at most `fuel` times. -/
def trimStart (front : Text) : Nat → Text → Text
  | 0, text => text
  | fuel + 1, text => if front <+: text then trimStart front fuel (text.drop front.length) else text

/-- A sha256 as it is announced: in hex of either case, with or without its name in front. -/
def announced256 (h : Text) : Text := lower (trimStart "sha256:".toList h.length h)

/-- A whole URL, with what never leaves in a message. -/
structure FullUrl extends Url where
  username : Text
  password : Option Text
  fragment : Option Text
deriving Repr, DecidableEq, Inhabited

/-- The URL without its user, its password, its query and its fragment. -/
def redact (url : FullUrl) : Text := { url.toUrl with query := none }.spelled

def mismatched (url : FullUrl) (algorithm want got : Text) : FetchError :=
  .checksum ("checksum mismatch on ".toList ++ redact url ++ ": ".toList ++ algorithm ++ " ".toList ++ want ++
    " announced, ".toList ++ got ++ " received".toList)

section Check

variable (hashes : Hashes) (s : Spooled) (want : Digests) (url : FullUrl)

def verify : Except FetchError Unit :=
  match want.integrity.bind (stripPrefix · "sha512-".toList) with
  | some b64 =>
      let got := hashes.base64 s.sha512
      if got ≠ b64 then .error (mismatched url "sha512".toList b64 got) else .ok ()
  | none =>
      match want.sha256 with
      | some h =>
          if announced256 h ≠ s.sha256 then .error (mismatched url "sha256".toList (announced256 h) s.sha256)
          else .ok ()
      | none =>
          match want.sha1 with
          | some h =>
              if lower h ≠ s.sha1 then .error (mismatched url "sha1".toList (lower h) s.sha1) else .ok ()
          | none => .ok ()

/-- What is spooled of a body. -/
def spooledOf (path : Text) (body : List UInt8) : Spooled where
  path := path
  size := body.length
  sha256 := hex (hashes.sha256 body)
  sha1 := hex (hashes.sha1 body)
  sha512 := hashes.sha512 body
  unverified := want.isEmpty

/-- `spool`: the digests are checked once the whole body is there. -/
def spool (gate : Gate) : Except FetchError Spooled := do
  let body ← gate.download
  let spooled := spooledOf hashes want gate.path body
  verify hashes spooled want url
  pure spooled

/-! ### What is compared -/

/-- One comparison of an announced digest with the computed one. -/
structure Comparison where
  algorithm : Text
  wanted : Text
  got : Text
deriving Repr, DecidableEq, Inhabited

def Comparison.agrees (c : Comparison) : Bool := c.wanted = c.got

/-- The comparisons a check makes. -/
def comparisons : List Comparison :=
  match want.integrity.bind (stripPrefix · "sha512-".toList) with
  | some b64 => [⟨"sha512".toList, b64, hashes.base64 s.sha512⟩]
  | none =>
      match want.sha256 with
      | some h => [⟨"sha256".toList, announced256 h, s.sha256⟩]
      | none =>
          match want.sha1 with
          | some h => [⟨"sha1".toList, lower h, s.sha1⟩]
          | none => []

theorem verify_eq : verify hashes s want url =
    ((comparisons hashes s want).find? fun c => !c.agrees).elim (.ok ()) fun c =>
      .error (mismatched url c.algorithm c.wanted c.got) := by
  unfold verify comparisons
  split
  · rename_i b64 _
    by_cases same : hashes.base64 s.sha512 = b64
    · simp [Comparison.agrees, same]
    · simp [Comparison.agrees, same, Ne.symm same]
  · split
    · rename_i h _
      by_cases same : announced256 h = s.sha256 <;> simp [Comparison.agrees, same]
    · split
      · rename_i h _
        by_cases same : lower h = s.sha1 <;> simp [Comparison.agrees, same]
      · rfl

theorem verify_ok_iff : verify hashes s want url = .ok () ↔ ∀ c ∈ comparisons hashes s want, c.agrees := by
  rw [verify_eq]
  cases found : (comparisons hashes s want).find? fun c => !c.agrees with
  | none => simpa using List.find?_eq_none.mp found
  | some c =>
      have mem := List.mem_of_find?_eq_some found
      have differs : c.agrees = false := by simpa using List.find?_some found
      simp only [Option.elim_some, reduceCtorEq, false_iff]
      intro agree
      simp [agree c mem] at differs

end Check

/-! ### What an announcement means -/

def isBlank (c : Char) : Bool := c = ' ' || c = '\t' || c = '\n' || c = '\r' || c = '\x0c'

/-- The hashes of an SRI text, with their options. -/
def expressions (sri : Text) : List Text := sri.splitOnP isBlank

/-- The sha512 values an SRI text offers, without their options. -/
def sha512Values (sri : Text) : List Text :=
  (expressions sri).filterMap fun e => (stripPrefix e "sha512-".toList).map fun value => value.takeWhile (· ≠ '?')

/-- Every digest the source announced is the body's own: of an SRI text, one of the strongest it offers. -/
structure Correct (hashes : Hashes) (want : Digests) (body : List UInt8) : Prop where
  md5 : ∀ h, want.md5 = some h → lower h = hex (hashes.md5 body)
  sha256 : ∀ h, want.sha256 = some h → announced256 h = hex (hashes.sha256 body)
  sha1 : ∀ h, want.sha1 = some h → lower h = hex (hashes.sha1 body)
  integrity : ∀ sri, want.integrity = some sri →
    sha512Values sri = [] ∨ hashes.base64 (hashes.sha512 body) ∈ sha512Values sri

/-- A body is called verified when it was, unverified when nothing could be compared, and never refused when
it is the one announced. -/
structure RightlyJudged (compared : List Comparison) (correct : Prop) (out : Except FetchError Spooled) : Prop where
  verified : (∃ s, out = .ok s ∧ s.unverified = false) ↔ compared ≠ [] ∧ ∀ c ∈ compared, c.agrees
  unverified : compared = [] → ∃ s, out = .ok s ∧ s.unverified = true
  kept : correct → ∃ s, out = .ok s

/-- All that is announced is an SRI text that does not begin with a sha512. -/
structure OnlyOtherIntegrity (want : Digests) : Prop where
  sha256 : want.sha256 = none
  sha1 : want.sha1 = none
  integrity : ∃ sri, want.integrity = some sri ∧ stripPrefix sri "sha512-".toList = none

/-- An SRI text that begins with a sha512 has more in it: another hash, an option, a blank. -/
def MoreIntegrity (want : Digests) : Prop :=
  ∃ rest, want.integrity = some ("sha512-".toList ++ rest) ∧ ∃ c ∈ rest, isBlank c ∨ c = '?'

theorem sha512Values_single {rest : Text} (plain : ∀ c ∈ rest, ¬(isBlank c ∨ c = '?')) :
    sha512Values ("sha512-".toList ++ rest) = [rest] := by
  have unbroken : ∀ c ∈ "sha512-".toList ++ rest, isBlank c = false := by
    intro c mem
    rcases List.mem_append.mp mem with front | back
    · have front : c ∈ ['s', 'h', 'a', '5', '1', '2', '-'] := front
      fin_cases front <;> rfl
    · simpa using fun blank => plain c back (.inl blank)
  have whole : rest.takeWhile (· ≠ '?') = rest :=
    List.takeWhile_eq_self_iff.mpr fun c mem => by simpa using fun mark => plain c mem (.inr mark)
  rw [sha512Values, expressions, List.splitOnP_eq_singleton unbroken]
  simp only [List.filterMap_cons, stripPrefix_eq_some.mpr rfl, Option.map_some, whole, List.filterMap_nil]

theorem Hashes.plain (hashes : Hashes) (bytes : List UInt8) {c : Char} (mem : c ∈ hashes.base64 bytes) :
    ¬(isBlank c ∨ c = '?') := by
  rintro (blank | rfl)
  · rcases hashes.alphabet bytes c mem with letter | rfl | rfl | rfl
    · have cases_ : c = ' ' ∨ c = '\t' ∨ c = '\n' ∨ c = '\r' ∨ c = '\x0c' := by
        simpa [isBlank, or_assoc] using blank
      rcases cases_ with rfl | rfl | rfl | rfl | rfl <;> revert letter <;> decide
    all_goals revert blank; decide
  · have := hashes.alphabet bytes '?' mem
    revert this
    decide

section Judged

variable {hashes : Hashes} {want : Digests} {url : FullUrl} {gate : Gate} {s : Spooled} {body : List UInt8}

theorem comparisons_eq_nil_iff : comparisons hashes s want = [] ↔
    want.integrity.bind (stripPrefix · "sha512-".toList) = none ∧ want.sha256 = none ∧ want.sha1 = none := by
  unfold comparisons
  cases want.integrity.bind (stripPrefix · "sha512-".toList) <;> cases want.sha256 <;> cases want.sha1 <;> simp

/-- An announcement that is there and yields no comparison is another integrity alone. -/
theorem isEmpty_iff : want.isEmpty = true ↔ comparisons hashes s want = [] ∧ ¬OnlyOtherIntegrity want := by
  rw [comparisons_eq_nil_iff]
  constructor
  · intro empty
    obtain ⟨⟨no256, no1⟩, noSri⟩ : (want.sha256 = none ∧ want.sha1 = none) ∧ want.integrity = none := by
      simpa [Digests.isEmpty] using empty
    refine ⟨⟨by simp [noSri], no256, no1⟩, fun only => ?_⟩
    obtain ⟨sri, found, -⟩ := only.integrity
    simp [noSri] at found
  · rintro ⟨⟨unread, no256, no1⟩, other⟩
    cases found : want.integrity with
    | none => simp [Digests.isEmpty, no256, no1, found]
    | some sri =>
        rw [found, Option.bind_some] at unread
        exact absurd ⟨no256, no1, sri, found, unread⟩ other

theorem Correct.agrees (correct : Correct hashes want body) (single : ¬MoreIntegrity want) :
    ∀ c ∈ comparisons hashes (spooledOf hashes want gate.path body) want, c.agrees := by
  intro c mem
  unfold comparisons at mem
  split at mem
  · rename_i b64 read
    obtain ⟨sri, found, cut⟩ := Option.bind_eq_some_iff.mp read
    obtain rfl := stripPrefix_eq_some.mp cut
    have plain : ∀ c ∈ b64, ¬(isBlank c ∨ c = '?') := fun c mem more => single ⟨b64, found, c, mem, more⟩
    obtain rfl := List.mem_singleton.mp mem
    rcases correct.integrity _ found with none_ | offered
    · rw [sha512Values_single plain] at none_
      simp at none_
    · rw [sha512Values_single plain, List.mem_singleton] at offered
      simp [Comparison.agrees, spooledOf, offered]
  · split at mem
    · rename_i h found
      obtain rfl := List.mem_singleton.mp mem
      simp [Comparison.agrees, spooledOf, correct.sha256 h found]
    · split at mem
      · rename_i h found
        obtain rfl := List.mem_singleton.mp mem
        simp [Comparison.agrees, spooledOf, correct.sha1 h found]
      · simp at mem

/-- A text with more in it is compared whole, and no digest is spelled like that. -/
theorem MoreIntegrity.differs (more : MoreIntegrity want) : ¬∀ c ∈ comparisons hashes s want, c.agrees := by
  obtain ⟨rest, found, c, mem, mark⟩ := more
  have read : want.integrity.bind (stripPrefix · "sha512-".toList) = some rest := by
    rw [found, Option.bind_some, stripPrefix_eq_some]
  intro agree
  have same : rest = hashes.base64 s.sha512 := by
    have compared : comparisons hashes s want = [⟨"sha512".toList, rest, hashes.base64 s.sha512⟩] := by
      rw [comparisons, read]
    simpa [compared, Comparison.agrees] using agree
  exact hashes.plain s.sha512 (same ▸ mem) mark

theorem spool_ok_iff (downloaded : gate.download = .ok body) {p : Spooled → Prop} :
    (∃ s, spool hashes want url gate = .ok s ∧ p s) ↔
      (∀ c ∈ comparisons hashes (spooledOf hashes want gate.path body) want, c.agrees) ∧
        p (spooledOf hashes want gate.path body) := by
  rw [← verify_ok_iff hashes _ want url]
  have run : spool hashes want url gate =
      verify hashes (spooledOf hashes want gate.path body) want url >>= fun _ =>
        .ok (spooledOf hashes want gate.path body) := by
    rw [spool, downloaded]
    rfl
  rw [run]
  cases verify hashes (spooledOf hashes want gate.path body) want url with
  | error e => simp [bind, Except.bind]
  | ok _ => simp [bind, Except.bind]

/-- A body received to its end is judged rightly unless all that is announced is an SRI text without a sha512 in
front, or a correct body's SRI text has more in it than one sha512. -/
theorem spool_judges_rightly_iff (hashes : Hashes) (want : Digests) (url : FullUrl) (gate : Gate)
    (body : List UInt8) (downloaded : gate.download = .ok body) :
    RightlyJudged (comparisons hashes (spooledOf hashes want gate.path body) want) (Correct hashes want body)
        (spool hashes want url gate) ↔
      ¬OnlyOtherIntegrity want ∧ ¬(MoreIntegrity want ∧ Correct hashes want body) := by
  have empty := @isEmpty_iff hashes want (spooledOf hashes want gate.path body)
  constructor
  · intro judged
    refine ⟨fun only => ?_, fun ⟨more, correct⟩ => ?_⟩
    · have none_ : comparisons hashes (spooledOf hashes want gate.path body) want = [] := by
        obtain ⟨sri, found, cut⟩ := only.integrity
        exact comparisons_eq_nil_iff.mpr ⟨by rw [found, Option.bind_some, cut], only.sha256, only.sha1⟩
      have unverified : want.isEmpty = true := ((spool_ok_iff downloaded).mp (judged.unverified none_)).2
      exact (empty.mp unverified).2 only
    · obtain ⟨s, kept⟩ := judged.kept correct
      exact more.differs ((spool_ok_iff downloaded (p := fun _ => True)).mp ⟨s, kept, trivial⟩).1
  · rintro ⟨other, single⟩
    have empty : want.isEmpty = true ↔ comparisons hashes (spooledOf hashes want gate.path body) want = [] := by
      rw [empty, and_iff_left other]
    refine ⟨?_, fun none_ => ?_, fun correct => ?_⟩
    · rw [spool_ok_iff downloaded, and_comm, ne_eq, ← empty, Bool.not_eq_true]
      exact Iff.rfl
    · refine (spool_ok_iff downloaded).mpr ⟨?_, empty.mpr none_⟩
      rw [none_]
      simp
    · have agree : ∀ c ∈ comparisons hashes (spooledOf hashes want gate.path body) want, c.agrees :=
        correct.agrees fun more => single ⟨more, correct⟩
      obtain ⟨s, kept, -⟩ := (spool_ok_iff downloaded (p := fun _ => True)).mpr ⟨agree, trivial⟩
      exact ⟨s, kept⟩

end Judged

/-! The body `hello`, as two chunks, with its digests. -/

def helloHashes : Hashes where
  md5 _ := [93, 65, 64, 42, 188, 75, 42, 118, 185, 113, 157, 145, 16, 23, 197, 146]
  sha256 _ := [44, 242, 77, 186, 95, 176, 163, 14, 38, 232, 59, 42, 197, 185, 226, 158, 27, 22, 30, 92, 31,
             167, 66, 94, 115, 4, 51, 98, 147, 139, 152, 36]
  sha1 _ := [170, 244, 198, 29, 220, 197, 232, 162, 218, 190, 222, 15, 59, 72, 44, 217, 174, 169, 67, 77]
  sha512 _ := [155, 113, 210, 36, 189, 98, 243, 120, 93, 150, 212, 106, 211, 234, 61, 115, 49, 155, 251, 194,
             137, 12, 170, 218, 226, 223, 247, 37, 25, 103, 60, 167, 35, 35, 195, 217, 155, 165, 193, 29,
             124, 122, 204, 110, 20, 184, 197, 218, 12, 70, 99, 71, 92, 46, 92, 58, 222, 244, 111, 115, 188,
             222, 192, 67]
  base64 _ := "m3HSJL1i83hdltRq0+o9czGb+8KJDKra4t/3JRlnPKcjI8PZm6XBHXx6zG4UuMXaDEZjR1wuXDre9G9zvN7AQw==".toList
  alphabet _ c mem := by
    have all : ("m3HSJL1i83hdltRq0+o9czGb+8KJDKra4t/3JRlnPKcjI8PZm6XBHXx6zG4UuMXaDEZjR1wuXDre9G9zvN7AQw==".toList.all
        fun c => c.isAlphanum || c = '+' || c = '/' || c = '=') = true := by
      decide +kernel
    simpa [or_assoc] using List.all_eq_true.mp all c mem

def hello : List UInt8 := [104, 101, 108, 108, 111]

def helloGate : Gate where
  answer := .ok ⟨some 5, [.ok [104, 101], .ok [108, 108, 111]]⟩
  maxArtifactSize := 1024
  path := "/spool/7f.part-1".toList
  create := .ok ()
  write _ := .ok ()
  flush := .ok ()

def helloUrl : FullUrl where
  scheme := "https".toList
  host := some "registry.internal".toList
  port := none
  path := "/hello/-/hello-1.0.0.tgz".toList
  query := none
  username := []
  password := none
  fragment := none

/-- What an npm registry announces: the sha1 of the tarball, and its sha512. -/
def helloDist : Digests where
  sha256 := none
  sha1 := some "aaf4c61ddcc5e8a2dabede0f3b482cd9aea9434d".toList
  integrity := some ("sha512-".toList ++ helloHashes.base64 hello)
  md5 := none

theorem hello_is_judged_rightly :
    RightlyJudged (comparisons helloHashes (spooledOf helloHashes helloDist helloGate.path hello) helloDist)
      (Correct helloHashes helloDist hello) (spool helloHashes helloDist helloUrl helloGate) := by
  refine (spool_judges_rightly_iff helloHashes helloDist helloUrl helloGate hello rfl).mpr
    ⟨fun only => ?_, fun more => ?_⟩
  · exact absurd only.sha1 (by simp [helloDist])
  · obtain ⟨⟨rest, found, c, mem, mark⟩, -⟩ := more
    obtain rfl := List.append_cancel_left (Option.some.inj found)
    exact helloHashes.plain hello mem mark

/-- The sha384 of another body, and nothing else. -/
def otherDist : Digests where
  sha256 := none
  sha1 := none
  integrity := some "sha384-OLBgp1GsljhM2TJ+sbHjaiH9txEUvgdDTAzHv2P24donTt6/529l+9Ua0vFImLlb".toList
  md5 := none

/-- Nothing is compared, and the body is called verified. -/
theorem sha384_alone_is_called_verified :
    ¬RightlyJudged (comparisons helloHashes (spooledOf helloHashes otherDist helloGate.path hello) otherDist)
      (Correct helloHashes otherDist hello) (spool helloHashes otherDist helloUrl helloGate) := by
  intro judged
  obtain ⟨s, kept, unverified⟩ := judged.unverified (by decide +kernel)
  have verified : spool helloHashes otherDist helloUrl helloGate =
      .ok (spooledOf helloHashes otherDist helloGate.path hello) := by
    rfl
  obtain rfl := Except.ok.inj (verified.symm.trans kept)
  exact absurd unverified (by decide +kernel)

end OpenCargo.Import
