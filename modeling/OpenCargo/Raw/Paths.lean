/-
Module: OpenCargo.Raw.Paths
Purpose: The paths a raw repository admits (`registry/rules.rs`, `registry/raw/mod.rs`), and the keys
  the bytes of one are stored under. What is admitted within the bound of a store fits its keys, except
  that a key holds no `..` anywhere, while a path is only kept from having `..` for a segment.
Trusted boundary: none
Main exports: rawKey, rawKey_segments, byteLength_rawKey, admitted_path_is_stored_iff
-/
import OpenCargo.Layout
import OpenCargo.Lib.Fallible

namespace OpenCargo.Raw

open OpenCargo.Layout (Hex isHexDigit hostedKey physicalKey generation incarnationPrefix fileName)
open OpenCargo.Keys (byteLength byteLength_append byteLength_cons byteLength_pos)

/-! ### What a store can key -/

/-- The whole key, and any one segment of it. -/
structure KeyBudget where
  key : Nat
  segment : Nat
deriving Repr, DecidableEq, Inhabited

/-- `MAX_KEY_BYTES`. -/
def maxKeyBytes : Nat := 1024

/-- `KeyBudget::UNSEGMENTED`. -/
def unsegmented : KeyBudget := ⟨maxKeyBytes, maxKeyBytes⟩

/-- The bytes of a raw file's physical key that are not the path. -/
def rawKeyFrame : Nat := 167

/-- What the key's last segment carries besides the path's. -/
def rawSegmentFrame : Nat := 66

/-- The longest raw path a store keys, and the longest segment of one. -/
structure RawPathBound where
  path : Nat
  segment : Nat
deriving Repr, DecidableEq, Inhabited

/-- A path of one segment is its own last one, and so is written twice. -/
def rawPathBound (budget : KeyBudget) : RawPathBound where
  path := (budget.key - rawKeyFrame) / 2
  segment := budget.segment - rawSegmentFrame

/-- `MAX_RAW_PATH`: the ceiling on any store. -/
def maxRawPath : Nat := (rawPathBound unsegmented).path

/-! ### What is admitted -/

/-- An ASCII control, a backslash or a quote. -/
def refusedChar (c : Char) : Bool := c.val < 32 || c.val == 127 || c == '\\' || c == '"'

def isSegment (segment : Text) : Bool :=
  !segment.isEmpty && segment != ['.'] && segment != ['.', '.'] && !segment.any refusedChar

def invalidPath (path : Text) : DomainError :=
  .invalidName ("invalid raw path: '".toList ++ path ++ "'".toList)

/-- `RawRules::validate`. -/
def validate (path : Text) : Except DomainError Unit :=
  if path.isEmpty || maxRawPath < byteLength path || path.head? == some '_' then .error (invalidPath path)
  else if !(path.splitOn '/').all isSegment then .error (invalidPath path)
  else .ok ()

/-- The path a client asked for, held to the rules and to what the store can key. -/
def admit_ (bound : RawPathBound) (path : Text) : Except DomainError Text := do
  validate path
  if bound.path < byteLength path then
    .error (.invalidName ("raw path over ".toList ++ (toString bound.path).toList ++ " bytes: '".toList ++
      path ++ "'".toList))
  else if (path.splitOn '/').any fun s => bound.segment < byteLength s then
    .error (.invalidName ("raw path segment over ".toList ++ (toString bound.segment).toList ++
      " bytes: '".toList ++ path ++ "'".toList))
  else return path

/-- Where the bytes of a path are stored: `r/{incarnation}/{path}/{sha256}/{last segment}~{epoch}-{nonce}`. -/
def rawKey (incarnation : Hex 32) (path : Text) (sha256 : Hex 64) (epoch nonce : Hex 32) : Text :=
  physicalKey (hostedKey (incarnationPrefix incarnation.text) path sha256.text (fileName path))
    (generation epoch.text nonce.text)

variable {incarnation epoch nonce : Hex 32} {sha256 : Hex 64} {path : Text} {budget : KeyBudget}
  {bound : RawPathBound}

variable {n : Nat}

/-! ### The key of a path -/

/-- The last segment with the generation behind it. -/
def lastName (path : Text) (epoch nonce : Hex 32) : Text :=
  fileName path ++ '~' :: epoch.text ++ '-' :: nonce.text

theorem fileName_mem (path : Text) : fileName path ∈ path.splitOn '/' := by
  obtain ⟨last, held⟩ := Option.isSome_iff_exists.mp
    (List.getLast?_isSome.mpr (List.splitOn_ne_nil '/' path))
  rw [fileName, List.getLastD_eq_getLast?, held]
  exact List.mem_of_getLast? held

theorem rawKey_eq : rawKey incarnation path sha256 epoch nonce =
    'r' :: '/' :: (incarnation.text ++ '/' :: (path ++ '/' :: (sha256.text ++ '/' ::
      lastName path epoch nonce))) := by
  simp [rawKey, physicalKey, hostedKey, incarnationPrefix, generation, lastName]

theorem lastName_flat : '/' ∉ lastName path epoch nonce := by
  have flat := Lib.flat_of_mem_splitOn (fileName_mem path)
  simp [lastName, flat, Hex.flat]

theorem rawKey_segments : (rawKey incarnation path sha256 epoch nonce).splitOn '/' =
    ['r'] :: incarnation.text :: (path.splitOn '/' ++ [sha256.text, lastName path epoch nonce]) := by
  have flat : '/' ∉ ['r'] := by decide
  have cut : ∀ rest : Text, ('r' :: '/' :: rest).splitOn '/' = ['r'] :: rest.splitOn '/' :=
    List.splitOn_append_cons_self_of_not_mem flat
  rw [rawKey_eq, cut, List.splitOn_append_cons_self_of_not_mem (incarnation.flat),
    List.splitOn_append_cons_self, List.splitOn_append_cons_self_of_not_mem (sha256.flat),
    List.splitOn_eq_singleton lastName_flat]

theorem byteLength_lastName : byteLength (lastName path epoch nonce) = byteLength (fileName path) + rawSegmentFrame := by
  have tilde : ('~' : Char).utf8Size = 1 := by decide
  have dash : ('-' : Char).utf8Size = 1 := by decide
  simp only [lastName, byteLength_append, byteLength_cons, Hex.byteLength, tilde, dash, rawSegmentFrame]

theorem byteLength_rawKey : byteLength (rawKey incarnation path sha256 epoch nonce) =
    byteLength path + byteLength (fileName path) + rawKeyFrame := by
  have slash : ('/' : Char).utf8Size = 1 := by decide
  have first : ('r' : Char).utf8Size = 1 := by decide
  simp only [rawKey_eq, byteLength_append, byteLength_cons, Hex.byteLength, byteLength_lastName, slash, first,
    rawKeyFrame, rawSegmentFrame]
  omega

/-! ### Two dots -/

/-- A word without the separator stands in a text on one side of it or on the other. -/
theorem infix_append_cons_iff {word front back : Text} {sep : Char} (absent : sep ∉ word) :
    word <:+: front ++ sep :: back ↔ word <:+: front ∨ word <:+: back := by
  constructor
  · intro within
    rcases List.infix_append_iff_ne_nil.mp within with before | after | ⟨one, two, _, some_, rfl, _, starts⟩
    · exact .inl before
    · rcases List.infix_cons_iff.mp after with starts | later
      · cases word with
        | nil => exact .inl List.nil_infix
        | cons c word =>
            obtain ⟨rfl, _⟩ := List.cons_prefix_cons.mp starts
            exact absurd List.mem_cons_self absent
      · exact .inr later
    · cases two with
      | nil => exact absurd rfl some_
      | cons c two =>
          obtain ⟨rfl, _⟩ := List.cons_prefix_cons.mp starts
          exact absurd (List.mem_append_right one List.mem_cons_self) absent
  · rintro (before | after)
    · exact List.infix_append_of_infix_left before
    · exact List.infix_append_of_infix_right (List.infix_cons after)

theorem no_dots (hex : Hex n) : ¬ "..".toList <:+: hex.text := by
  intro within
  exact (hex.plain (within.subset List.mem_cons_self)).2.2.1 rfl

theorem dots_rawKey_iff :
    "..".toList <:+: rawKey incarnation path sha256 epoch nonce ↔ "..".toList <:+: path := by
  have slash : '/' ∉ "..".toList := by decide
  have tilde : '~' ∉ "..".toList := by decide
  have dash : '-' ∉ "..".toList := by decide
  have first : ¬ "..".toList <:+: ['r'] := by decide
  have cut : ∀ rest : Text, "..".toList <:+: 'r' :: '/' :: rest ↔ "..".toList <:+: rest := by
    intro rest
    have both : "..".toList <:+: ['r'] ++ '/' :: rest ↔ _ := infix_append_cons_iff slash
    simpa only [List.singleton_append, first, false_or] using both
  rw [rawKey_eq, cut, infix_append_cons_iff slash, infix_append_cons_iff slash, infix_append_cons_iff slash,
    lastName, List.append_assoc, List.cons_append, infix_append_cons_iff tilde, infix_append_cons_iff dash]
  simp only [no_dots, false_or, or_false, or_iff_left_iff_imp]
  exact fun inLast => inLast.trans (Layout.fileName_suffix path).isInfix

/-! ### What is admitted -/

/-- What an admitted path is known to be. -/
structure Admitted (bound : RawPathBound) (path : Text) : Prop where
  nonempty : path ≠ []
  short : byteLength path ≤ bound.path
  segments : ∀ segment ∈ path.splitOn '/', isSegment segment = true ∧ byteLength segment ≤ bound.segment

theorem admitted_of_eq_ok {admitted : Text} (done : admit_ bound path = .ok admitted) : Admitted bound path := by
  rw [admit_] at done
  obtain ⟨_, valid, done⟩ := Lib.bind_eq_ok.mp done
  rw [validate] at valid
  split at valid
  · cases valid
  · rename_i plain
    split at valid
    · cases valid
    · rename_i every
      split at done
      · cases done
      · rename_i short
        split at done
        · cases done
        · rename_i few
          simp only [Bool.not_eq_true, Bool.not_eq_false', List.all_eq_true] at every
          simp only [List.any_eq_true, decide_eq_true_eq, not_exists, not_and, not_lt] at few
          have some_ : path ≠ [] := by
            rintro rfl
            exact plain rfl
          exact ⟨some_, not_lt.mp short, fun segment mem => ⟨every segment mem, few segment mem⟩⟩

theorem plain_of_refusedChar {c : Char} (kept : refusedChar c = false) : Keys.refusedChar c = false := by
  simp only [refusedChar, Bool.or_eq_false_iff] at kept
  simp only [Keys.refusedChar, Bool.or_eq_false_iff]
  exact ⟨⟨kept.1.2, kept.1.1.1⟩, kept.1.1.2⟩

theorem segment_spec {segment : Text} (valid : isSegment segment = true) :
    segment ≠ [] ∧ segment ≠ ['.'] ∧ ∀ c ∈ segment, Keys.refusedChar c = false := by
  simp only [isSegment, Bool.and_eq_true, Bool.not_eq_true', bne_iff_ne, List.any_eq_false,
    List.isEmpty_eq_false_iff] at valid
  obtain ⟨⟨⟨some_, dot⟩, -⟩, plain⟩ := valid
  exact ⟨some_, dot, fun c mem => plain_of_refusedChar (by simpa using plain c mem)⟩

/-- What every character of a text satisfies, that of its segments and the separator do. -/
theorem forall_mem_of_segments {p : Char → Prop} (slash : p '/')
    (each : ∀ segment ∈ path.splitOn '/', ∀ c ∈ segment, p c) : ∀ c ∈ path, p c := by
  intro c mem
  by_cases same : c = '/'
  · rw [same]
    exact slash
  · have whole : ['/'].intercalate (path.splitOn '/') = path := List.intercalate_splitOn '/'
    rw [← whole, Lib.mem_intercalate_iff same] at mem
    obtain ⟨segment, inside, mem⟩ := mem
    exact each segment inside c mem

theorem Admitted.plain (held : Admitted bound path) : ∀ c ∈ path, Keys.refusedChar c = false :=
  forall_mem_of_segments (by decide) fun segment mem => (segment_spec (held.segments segment mem).1).2.2

theorem mem_path_of_mem_fileName {c : Char} (mem : c ∈ fileName path) : c ∈ path :=
  (Layout.fileName_suffix path).subset mem

theorem Admitted.plain_key (held : Admitted bound path) :
    ∀ c ∈ rawKey incarnation path sha256 epoch nonce, Keys.refusedChar c = false := by
  have last : ∀ c ∈ fileName path, Keys.refusedChar c = false :=
    fun c mem => held.plain c (mem_path_of_mem_fileName mem)
  have slash : Keys.refusedChar '/' = false := by decide
  have first : Keys.refusedChar 'r' = false := by decide
  have tilde : Keys.refusedChar '~' = false := by decide
  have dash : Keys.refusedChar '-' = false := by decide
  simp only [rawKey_eq, lastName, List.mem_cons, List.mem_append, List.cons_append, List.append_assoc]
  rintro c (rfl | rfl | mem | rfl | mem | rfl | mem | rfl | mem | rfl | mem | rfl | mem)
  · exact first
  · exact slash
  · exact incarnation.not_refused c mem
  · exact slash
  · exact held.plain c mem
  · exact slash
  · exact sha256.not_refused c mem
  · exact slash
  · exact last c mem
  · exact tilde
  · exact epoch.not_refused c mem
  · exact dash
  · exact nonce.not_refused c mem

theorem lastName_segment : lastName path epoch nonce ≠ [] ∧ lastName path epoch nonce ≠ ['.'] := by
  have tilde : '~' ∈ lastName path epoch nonce := by simp [lastName]
  constructor
  · intro none_
    rw [none_] at tilde
    cases tilde
  · intro dot
    rw [dot] at tilde
    exact absurd tilde (by decide)

theorem Admitted.key_segments (held : Admitted bound path) :
    ∀ segment ∈ (rawKey incarnation path sha256 epoch nonce).splitOn '/', segment ≠ [] ∧ segment ≠ ['.'] := by
  rw [rawKey_segments]
  simp only [List.mem_cons, List.mem_append, List.not_mem_nil, or_false]
  rintro segment (rfl | rfl | mem | rfl | rfl)
  · decide
  · exact incarnation.segment
  · obtain ⟨some_, dot, -⟩ := segment_spec (held.segments segment mem).1
    exact ⟨some_, dot⟩
  · exact sha256.segment
  · exact lastName_segment

/-! ### Whether it is stored -/

theorem validate_eq_ok_iff {key : Text} {most : Nat} (some_ : key ≠ []) (short : byteLength key ≤ most)
    (plain : ∀ c ∈ key, Keys.refusedChar c = false)
    (first : (key.splitOn '/').headD [] ≠ Keys.scratch ∧ (key.splitOn '/').headD [] ≠ Keys.backend)
    (segments : ∀ segment ∈ key.splitOn '/', segment ≠ [] ∧ segment ≠ ['.']) :
    Keys.validate key most = .ok () ↔ ¬ "..".toList <:+: key := by
  have full : key.isEmpty = false := by simpa using some_
  have clean : key.any Keys.refusedChar = false := by simpa using plain
  have fits : ¬ byteLength key > most := by omega
  have whole : ((key.splitOn '/').any fun s => s.isEmpty || s == ['.']) = false := by simpa using segments
  rw [Keys.validate, Keys.validatePrefix, if_neg (by simp [full]), if_neg (by simp [full])]
  by_cases dots : "..".toList <:+: key
  · rw [if_pos dots]
    exact iff_of_false (nofun) (not_not_intro dots)
  · rw [if_neg dots, if_neg fits, clean]
    have free : ((key.splitOn '/').headD [] == Keys.scratch || (key.splitOn '/').headD [] == Keys.backend) = false := by
      rw [Bool.or_eq_false_iff, beq_eq_false_iff_ne, beq_eq_false_iff_ne]
      exact first
    simp only [free, whole]
    exact iff_of_true rfl dots

theorem Admitted.validate_iff (held : Admitted (rawPathBound budget) path) :
    Keys.validate (rawKey incarnation path sha256 epoch nonce) budget.key = .ok () ↔
      ¬ "..".toList <:+: path := by
  have short := held.short
  have long : byteLength (fileName path) ≤ byteLength path := by
    obtain ⟨front, whole⟩ := Layout.fileName_suffix path
    have both := byteLength_append front (fileName path)
    rw [whole] at both
    omega
  have some_ := byteLength_pos held.nonempty
  rw [← dots_rawKey_iff]
  refine validate_eq_ok_iff ?_ ?_ held.plain_key ?_ held.key_segments
  · simp [rawKey_eq]
  · rw [byteLength_rawKey]
    simp only [rawPathBound] at short
    omega
  · rw [rawKey_segments]
    change ['r'] ≠ Keys.scratch ∧ ['r'] ≠ Keys.backend
    decide

theorem Admitted.validateSegments (held : Admitted (rawPathBound budget) path) :
    Keys.validateSegments (rawKey incarnation path sha256 epoch nonce) budget.segment = .ok () := by
  have last := (held.segments _ (fileName_mem path)).2
  have some_ := byteLength_pos (segment_spec (held.segments _ (fileName_mem path)).1).1
  simp only [rawPathBound, rawSegmentFrame] at last
  have few : ((rawKey incarnation path sha256 epoch nonce).splitOn '/').any
      (fun s => budget.segment < byteLength s) = false := by
    rw [rawKey_segments]
    simp only [List.any_eq_false, List.mem_cons, List.mem_append, List.not_mem_nil, or_false, decide_eq_true_eq,
      not_lt]
    rintro segment (rfl | rfl | mem | rfl | rfl)
    · have one : byteLength ['r'] = 1 := by decide
      omega
    · rw [Hex.byteLength]
      omega
    · have fits := (held.segments segment mem).2
      simp only [rawPathBound] at fits
      omega
    · rw [Hex.byteLength]
      omega
    · rw [byteLength_lastName, rawSegmentFrame]
      omega
  rw [Keys.validateSegments, few]
  rfl

/-- The key of a path that is admitted within the bound of a store is a key of the store exactly when the
path holds no two dots in a row. -/
theorem admitted_path_is_stored_iff (admitted : admit_ (rawPathBound budget) path = .ok path) :
    (Keys.validate (rawKey incarnation path sha256 epoch nonce) budget.key = .ok () ∧
      Keys.validateSegments (rawKey incarnation path sha256 epoch nonce) budget.segment = .ok ()) ↔
      ¬ "..".toList <:+: path := by
  have held := admitted_of_eq_ok admitted
  rw [and_iff_left held.validateSegments, held.validate_iff]

/-- What the filesystem leaves. -/
def named : KeyBudget := ⟨maxKeyBytes, Keys.maxNameBytes⟩

theorem plain_path_is_stored : Keys.validate
    (rawKey (.uniform 32) "dist/tool.bin".toList (.uniform 64) (.uniform 32) (.uniform 32)) named.key = .ok () := by
  have admitted : admit_ (rawPathBound named) "dist/tool.bin".toList = .ok "dist/tool.bin".toList := by decide
  exact ((admitted_path_is_stored_iff admitted).mpr (by decide)).1

/-- `dist/a..b` is admitted, and no store takes its key. -/
theorem dotted_path_is_not_stored :
    admit_ (rawPathBound named) "dist/a..b".toList = .ok "dist/a..b".toList ∧
      Keys.validate (rawKey (.uniform 32) "dist/a..b".toList (.uniform 64) (.uniform 32) (.uniform 32)) named.key =
        .error (.invalidPath "path must not contain '..'".toList) := by
  decide

end OpenCargo.Raw
