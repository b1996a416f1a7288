/-
Module: OpenCargo.Layout
Purpose: Where a repository's bytes live, as keys (`crates/domain/src/layout.rs`), the key rules every
  backend enforces (`storage/keys.rs`), and the coverage test the statements of
  `adapters/sqlite/reclaim.rs` make. The three tests of lying under a key are the segment-wise one,
  except that a backend takes the empty key for a root of everything.
Trusted boundary: none
Main exports: sqlWithin_iff, Keys.under_iff, Layout.fileName_append, Layout.logicalKey_physicalKey
-/
import OpenCargo.Domain
import OpenCargo.Lib.Segments

namespace OpenCargo

open OpenCargo.Lib

/-- `key` is `root` or lies under it, segment by segment. -/
abbrev Covers (root key : Text) : Prop := Under '/' key root

namespace Layout

/-! ### Keys -/

/-- `str::strip_prefix`. -/
def stripPrefix (key root : Text) : Option Text :=
  if root.isPrefixOf key then some (key.drop root.length) else none

theorem stripPrefix_eq_some {text root rest : Text} : stripPrefix text root = some rest ↔ text = root ++ rest := by
  rw [stripPrefix]
  split
  · rename_i starts
    obtain ⟨rest', rfl⟩ := List.isPrefixOf_iff_prefix.mp starts
    simp
  · rename_i starts
    simp only [reduceCtorEq, false_iff]
    rintro rfl
    exact starts (List.isPrefixOf_iff_prefix.mpr (List.prefix_append ..))

/-- Whether `key` is `root` itself or lies under it, segment by segment. -/
def under (key root : Text) : Bool :=
  key == root || (stripPrefix key root).any fun rest => rest.head? == some '/'

/-- The statements' own test: `substr(key, 1, length(root) + 1) = root || '/'`. -/
def sqlWithin (key root : Text) : Bool := key.take (root.length + 1) == root ++ ['/']

/-- The prefix every new key of an incarnation lies under. -/
def incarnationPrefix (incarnation : Text) : Text := "r/".toList ++ incarnation

/-- The name-keyed prefixes a repository's bytes were written under before incarnations. -/
def nameKeyedPrefixes (format : Format) (name : Text) : List Text :=
  [format.asStr ++ '/' :: name, "_proxy_cache/".toList ++ name]

/-- Where a hosted artifact lives. -/
def hostedKey (repoPrefix package sha256 filename : Text) : Text :=
  repoPrefix ++ '/' :: package ++ '/' :: sha256 ++ '/' :: filename

/-- Where an OCI blob of an incarnation lives. -/
def ociBlobKey (repoPrefix sha256 : Text) : Text :=
  hostedKey repoPrefix "_blobs".toList sha256 "blob".toList

/-- Where an OCI manifest of one image lives. -/
def ociManifestKey (repoPrefix image sha256 : Text) : Text :=
  hostedKey repoPrefix image sha256 "manifest".toList

/-- The private tree of one OCI upload session. -/
def uploadPrefix (repoPrefix upload : Text) : Text := repoPrefix ++ "/_uploads/".toList ++ upload

/-- `{start:020}`: in decimal, with zeros in front up to twenty digits. -/
def padded (start : Nat) : Text :=
  let digits := Nat.toDigits 10 start
  List.replicate (20 - digits.length) '0' ++ digits

/-- One segment of an upload session, named by the offset it starts at and a nonce. -/
def segmentKey (tree : Text) (start : Nat) (nonce : Text) : Text :=
  tree ++ '/' :: padded start ++ '-' :: nonce

/-- A logical key placed at one generation: the only key a row records. -/
def physicalKey (logical gen : Text) : Text := logical ++ '~' :: gen

/-- The last segment of a key: the file name a new key keeps. -/
def fileName (key : Text) : Text := (key.splitOn '/').getLastD key

/-- The logical key of a physical one; a legacy key is its own. -/
def logicalKey (physical : Text) : Text :=
  match rsplitOnce '~' physical with
  | some (logical, gen) => if gen.contains '/' then physical else logical
  | none => physical

/-- A generation minted under a restore epoch. -/
def generation (epoch nonce : Text) : Text := epoch ++ '-' :: nonce

/-- The epoch a physical key was minted under; `none` for a key with no generation, or one minted
before epochs. -/
def generationEpoch (physical : Text) : Option Text :=
  match rsplitOnce '~' physical with
  | none => none
  | some (_, gen) =>
      if gen.contains '/' then none
      else
        match splitOnce '-' gen with
        | some (epoch, nonce) => if !epoch.isEmpty && !nonce.isEmpty then some epoch else none
        | none => none

def isHexDigit (c : Char) : Bool := ('0' ≤ c && c ≤ '9') || ('a' ≤ c && c ≤ 'f')

/-- `n` hex digits, as an incarnation, an epoch, a nonce and a digest are spelled. -/
structure Hex (n : Nat) where
  text : Text
  length : text.length = n
  digits : text.all isHexDigit = true

def isSha256 (segment : Text) : Bool := segment.length == 64 && segment.all isHexDigit

/-- The sha256 a key names its content by; `none` for a key whose name says nothing of its bytes. -/
def contentDigest (key : Text) : Option Text :=
  match ((logicalKey key).splitOn '/').reverse with
  | last :: prev :: _ =>
      if isSha256 last && prev == "sha256".toList then some last
      else if isSha256 prev then some prev
      else none
  | _ => none

end Layout

/-! ### The key rules of the backends -/

/-- `StorageError`, as far as a key can cause one. -/
inductive StorageError where
  | invalidPath (why : Text)
  | notFound
  | unavailable
deriving Repr, DecidableEq, Inhabited

namespace Keys

/-- In-flight writer scratch. -/
def scratch : Text := "_scratch".toList

/-- Backend-owned objects. -/
def backend : Text := "_backend".toList

/-- `str::len`, in bytes. -/
def byteLength (text : Text) : Nat := (text.map Char.utf8Size).sum

/-- What a path component may weigh where an object is stored as a file. -/
def maxNameBytes : Nat := 255

/-- For a backend whose segments are names of something: no segment of the key is over `max` bytes. -/
def validateSegments (key : Text) (max : Nat) : Except StorageError Unit :=
  if (key.splitOn '/').any fun s => max < byteLength s then
    .error (.invalidPath "storage key segment too long".toList)
  else .ok ()

/-- A byte of a key that is refused: a backslash, or an ASCII control. -/
def refusedChar (c : Char) : Bool := c == '\\' || c.val < 32 || c.val == 127

/-- A key or a listing prefix; the empty prefix lists everything. -/
def validatePrefix (key : Text) (budget : Nat) : Except StorageError Unit :=
  if key.isEmpty then .ok ()
  else if "..".toList <:+: key then .error (.invalidPath "path must not contain '..'".toList)
  else if byteLength key > budget then .error (.invalidPath "storage key too long".toList)
  else if key.any refusedChar then
    .error (.invalidPath "invalid character in storage key".toList)
  else
    let segments := key.splitOn '/'
    let first := segments.headD []
    if first == scratch || first == backend then
      .error (.invalidPath "reserved storage segment".toList)
    else if segments.any fun s => s.isEmpty || s == ['.'] then
      .error (.invalidPath "invalid storage key segment".toList)
    else .ok ()

/-- A key a trait call may name. -/
def validate (key : Text) (budget : Nat) : Except StorageError Unit :=
  if key.isEmpty then .error (.invalidPath "empty storage key".toList)
  else validatePrefix key budget

/-- Whether `key` is `root` itself or lies under it, segment-wise. -/
def under (key root : Text) : Bool :=
  root.isEmpty || key == root ||
    (Layout.stripPrefix key root).any fun rest => rest.head? == some '/'

theorem byteLength_append (front back : Text) :
    byteLength (front ++ back) = byteLength front + byteLength back := by
  simp [byteLength]

theorem byteLength_cons (c : Char) (rest : Text) : byteLength (c :: rest) = c.utf8Size + byteLength rest := by
  simp [byteLength]

theorem byteLength_pos {text : Text} (some_ : text ≠ []) : 0 < byteLength text := by
  cases text with
  | nil => exact absurd rfl some_
  | cons c text =>
      have size := c.utf8Size_pos
      rw [byteLength_cons]
      omega

end Keys

/-! ### Hex -/

namespace Layout

variable {n : Nat}

/-- One digit, `n` times. -/
def Hex.uniform (n : Nat) : Hex n where
  text := List.replicate n 'e'
  length := List.length_replicate
  digits := List.all_eq_true.mpr fun c mem => by
    rw [List.eq_of_mem_replicate mem]
    rfl

theorem hexDigit_cases {c : Char} (hex : isHexDigit c = true) :
    48 ≤ c.toNat ∧ c.toNat ≤ 57 ∨ 97 ≤ c.toNat ∧ c.toNat ≤ 102 := by
  simpa [isHexDigit, Char.le_def, UInt32.le_iff_toNat_le, ← Char.toNat_val] using hex

/-- A hex digit is one byte, and none of the characters a key is cut at or refused for. -/
theorem hexDigit_plain {c : Char} (hex : isHexDigit c = true) :
    c.utf8Size = 1 ∧ c ≠ '/' ∧ c ≠ '.' ∧ c ≠ '~' ∧ c ≠ '-' ∧ Keys.refusedChar c = false := by
  have range := hexDigit_cases hex
  rw [← Char.ofNat_toNat c]
  generalize c.toNat = n at range
  rcases range with ⟨low, high⟩ | ⟨low, high⟩ <;> interval_cases n <;> decide

theorem Hex.plain (hex : Hex n) {c : Char} (mem : c ∈ hex.text) :
    c.utf8Size = 1 ∧ c ≠ '/' ∧ c ≠ '.' ∧ c ≠ '~' ∧ c ≠ '-' ∧ Keys.refusedChar c = false :=
  hexDigit_plain (List.all_eq_true.mp hex.digits c mem)

theorem Hex.flat (hex : Hex n) : '/' ∉ hex.text := fun mem => (hex.plain mem).2.1 rfl

theorem Hex.byteLength (hex : Hex n) : Keys.byteLength hex.text = n := by
  have ones : hex.text.map Char.utf8Size = List.replicate n 1 :=
    List.eq_replicate_iff.mpr ⟨by rw [List.length_map, hex.length], fun size mem => by
      obtain ⟨c, inside, rfl⟩ := List.mem_map.mp mem
      exact (hex.plain inside).1⟩
  rw [Keys.byteLength, ones, List.sum_replicate, smul_eq_mul, Nat.mul_one]

theorem Hex.not_refused (hex : Hex n) : ∀ c ∈ hex.text, Keys.refusedChar c = false :=
  fun _ mem => (hex.plain mem).2.2.2.2.2

theorem Hex.segment (hex : Hex (n + 1)) : hex.text ≠ [] ∧ hex.text ≠ ['.'] := by
  have long := hex.length
  constructor
  · intro none_
    rw [none_] at long
    cases long
  · intro dot
    exact (hex.plain (dot ▸ List.mem_cons_self)).2.2.1 rfl

end Layout

/-! ### Three tests, one order -/

theorem Layout.sqlWithin_iff {key root : Text} :
    Layout.sqlWithin key root = true ↔ Within '/' key root := by
  unfold Layout.sqlWithin
  rw [beq_iff_eq, within_iff_take]

private theorem stripPrefix_slash_iff {key root : Text} :
    ((Layout.stripPrefix key root).any fun rest => rest.head? == some '/') = true ↔
      Within '/' key root := by
  rw [within_iff]
  unfold Layout.stripPrefix
  constructor
  · intro found
    split at found
    case isTrue starts =>
      obtain ⟨rest, rfl⟩ := List.isPrefixOf_iff_prefix.mp starts
      simp only [List.drop_left, Option.any_some, beq_iff_eq] at found
      obtain ⟨tail, rfl⟩ := List.head?_eq_some_iff.mp found
      exact ⟨tail, rfl⟩
    case isFalse => simp at found
  · rintro ⟨rest, rfl⟩
    have starts : root.isPrefixOf (root ++ '/' :: rest) = true :=
      List.isPrefixOf_iff_prefix.mpr (List.prefix_append _ _)
    simp [starts]

theorem Layout.under_iff {key root : Text} : Layout.under key root = true ↔ Covers root key := by
  unfold Layout.under Covers Under
  rw [Bool.or_eq_true, beq_iff_eq, stripPrefix_slash_iff]

theorem Keys.under_iff {key root : Text} :
    Keys.under key root = true ↔ root = [] ∨ Covers root key := by
  unfold Keys.under Covers Under
  rw [Bool.or_eq_true, Bool.or_eq_true, beq_iff_eq, stripPrefix_slash_iff, List.isEmpty_iff,
    or_assoc]

/-! ### Where the keys of the layout lie -/

theorem Layout.uploadPrefix_within (repoPrefix upload : Text) :
    Within '/' (Layout.uploadPrefix repoPrefix upload) repoPrefix := by
  rw [within_iff]
  exact ⟨"_uploads/".toList ++ upload, by simp [Layout.uploadPrefix]⟩

/-! ### What a key names -/

/-- A file name is that of what comes after a slash. -/
theorem Layout.fileName_append (front back : Text) :
    Layout.fileName (front ++ '/' :: back) = Layout.fileName back := by
  obtain ⟨last, held⟩ := Option.isSome_iff_exists.mp
    (List.getLast?_isSome.mpr (List.splitOn_ne_nil '/' back))
  rw [Layout.fileName, Layout.fileName, List.splitOn_append_cons_self, List.getLastD_eq_getLast?,
    List.getLastD_eq_getLast?, List.getLast?_append, held]
  rfl

theorem Layout.fileName_of_flat {name : Text} (flat : '/' ∉ name) : Layout.fileName name = name := by
  rw [Layout.fileName, List.splitOn_eq_singleton flat]
  rfl

theorem Layout.fileName_cons {c : Char} {rest : Text} (cut : '/' ∈ c :: rest) :
    Layout.fileName (c :: rest) = Layout.fileName rest := by
  rcases List.mem_cons.mp cut with rfl | later
  · exact Layout.fileName_append [] rest
  · obtain ⟨front, back, rfl⟩ := List.append_of_mem later
    rw [← List.cons_append, Layout.fileName_append, Layout.fileName_append]

/-- The last segment of a key is its end. -/
theorem Layout.fileName_suffix (key : Text) : Layout.fileName key <:+ key := by
  induction key with
  | nil => exact List.suffix_refl _
  | cons c rest ih =>
      by_cases cut : '/' ∈ c :: rest
      · rw [Layout.fileName_cons cut]
        exact ih.trans (List.suffix_cons _ _)
      · rw [Layout.fileName_of_flat cut]

/-- A word without a slash goes on in the last segment. -/
theorem Layout.fileName_append_flat (key : Text) {word : Text} (flat : '/' ∉ word) :
    Layout.fileName (key ++ word) = Layout.fileName key ++ word := by
  induction key with
  | nil => exact Layout.fileName_of_flat flat
  | cons c rest ih =>
      by_cases cut : '/' ∈ c :: rest
      · have longer : '/' ∈ c :: (rest ++ word) := List.mem_append_left word cut
        rw [List.cons_append, Layout.fileName_cons longer, ih, Layout.fileName_cons cut]
      · have whole : '/' ∉ c :: rest ++ word := by
          rw [List.mem_append, not_or]
          exact ⟨cut, flat⟩
        rw [Layout.fileName_of_flat whole, Layout.fileName_of_flat cut]

theorem Layout.logicalKey_physicalKey {logical gen : Text} (plain : '~' ∉ gen) (flat : '/' ∉ gen) :
    Layout.logicalKey (Layout.physicalKey logical gen) = logical := by
  rw [Layout.logicalKey, Layout.physicalKey, rsplitOnce_append plain]
  simp [flat]

end OpenCargo
