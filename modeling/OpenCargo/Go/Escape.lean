/-
Module: OpenCargo.Go.Escape
Purpose: How a module path travels in a GOPROXY request (`registry/go/escape.rs`): its capitals and its
  exclamation marks are escaped. A path that is escaped is read back. A request whose escapes are well
  formed spells its module as escaping does only where it holds no capital: the name rule judges the
  text without its marks, and lets capitals stand.
Trusted boundary: none
Main exports: validateEscapedModule, unescape_escape, escape_unescape_iff, accepted_is_canonical_iff
-/
import OpenCargo.Layout

namespace OpenCargo.Go

/-! ### The escaping -/

/-- What a character of a path is written as. -/
def escapeChar (c : Char) : Text :=
  if c.isUpper then ['!', c.toLower] else if c == '!' then ['!', '!'] else [c]

/-- `A` becomes `!a`, and `!` becomes `!!`. -/
def escape (path : Text) : Text := path.flatMap escapeChar

/-- A mark that is followed by neither a mark nor a small letter stands for itself. -/
def unescape : Text → Text
  | [] => []
  | [c] => [c]
  | c :: next :: rest =>
      if c == '!' && next == '!' then '!' :: unescape rest
      else if c == '!' && next.isLower then next.toUpper :: unescape rest
      else c :: unescape (next :: rest)

/-- Every `!` is followed by `[a-z]` or another `!`. -/
def escapesWellFormed : Text → Bool
  | [] => true
  | [c] => c != '!'
  | c :: next :: rest =>
      if c == '!' then (next.isLower || next == '!') && escapesWellFormed rest
      else escapesWellFormed (next :: rest)

/-! ### What a request may name -/

/-- `[a-zA-Z0-9._~-]+`, and neither `.` nor `..`. -/
def isValidGoSegment (segment : Text) : Bool :=
  !segment.isEmpty && segment != ['.'] && segment != ['.', '.'] &&
    segment.all fun c => c.isAlphanum || c == '.' || c == '_' || c == '~' || c == '-'

/-- `validate_package_name`, for go. -/
def validatePackageName (name : Text) : Except DomainError Unit :=
  if name.isEmpty || 255 < Keys.byteLength name || !(name.splitOn '/').all isValidGoSegment then
    .error (.invalidName ("invalid go package name: '".toList ++ name ++ "'".toList))
  else .ok ()

def invalidModule (module_ : Text) : AppError :=
  .badRequest ("invalid go module path: '".toList ++ module_ ++ "'".toList)

/-- The name rule on the module with its marks stripped, and every mark before a letter or a mark. -/
def validateEscapedModule (module_ : Text) : Except AppError Unit :=
  if !escapesWellFormed module_ then .error (invalidModule module_)
  else (validatePackageName (module_.filter fun c => c != '!')).mapError fun _ => invalidModule module_

variable {c next : Char} {path rest requested other : Text}

/-! ### Letters -/

theorem capital_iff (c : Char) : c.isUpper = true ↔ 65 ≤ c.toNat ∧ c.toNat ≤ 90 := by
  simp [Char.isUpper, UInt32.le_iff_toNat_le, ← Char.toNat_val]

theorem small_iff (c : Char) : c.isLower = true ↔ 97 ≤ c.toNat ∧ c.toNat ≤ 122 := by
  simp [Char.isLower, UInt32.le_iff_toNat_le, ← Char.toNat_val]

theorem small_of_capital (capital : c.isUpper = true) :
    c.toLower.isLower = true ∧ c.toLower.toUpper = c := by
  obtain ⟨low, high⟩ := (capital_iff c).mp capital
  rw [← Char.ofNat_toNat c]
  generalize c.toNat = n at low high
  interval_cases n <;> decide

theorem capital_of_small (small : next.isLower = true) :
    next.toUpper.isUpper = true ∧ next.toUpper.toLower = next := by
  obtain ⟨low, high⟩ := (small_iff next).mp small
  rw [← Char.ofNat_toNat next]
  generalize next.toNat = n at low high
  interval_cases n <;> decide

theorem ne_mark_of_small (small : next.isLower = true) : next ≠ '!' := by
  rintro rfl
  cases small

theorem not_capital_of_small (small : next.isLower = true) : next.isUpper = false := by
  have range := (small_iff next).mp small
  rw [Bool.eq_false_iff]
  intro capital
  have := (capital_iff next).mp capital
  omega

/-! ### What is escaped is read back -/

theorem unescape_plain (plain : c ≠ '!') : unescape (c :: rest) = c :: unescape rest := by
  cases rest with
  | nil => rfl
  | cons next rest => simp [unescape, plain]

theorem unescape_marks : unescape ('!' :: '!' :: rest) = '!' :: unescape rest := by
  simp [unescape]

theorem unescape_letter (small : next.isLower = true) :
    unescape ('!' :: next :: rest) = next.toUpper :: unescape rest := by
  simp [unescape, ne_mark_of_small small, small]

theorem unescape_escapeChar (c : Char) (rest : Text) :
    unescape (escapeChar c ++ rest) = c :: unescape rest := by
  rw [escapeChar]
  split
  · rename_i capital
    obtain ⟨small, back⟩ := small_of_capital capital
    rw [List.cons_append, List.cons_append, List.nil_append, unescape_letter small, back]
  · split
    · rename_i mark
      rw [beq_iff_eq] at mark
      subst mark
      exact unescape_marks
    · rename_i plain
      rw [beq_iff_eq] at plain
      exact unescape_plain plain

theorem unescape_escape (path : Text) : unescape (escape path) = path := by
  induction path with
  | nil => rfl
  | cons c path ih =>
      rw [escape, List.flatMap_cons, unescape_escapeChar]
      exact congrArg (c :: ·) ih

/-! ### What is read is not always what escaping writes -/

theorem escape_cons (c : Char) (path : Text) : escape (c :: path) = escapeChar c ++ escape path :=
  List.flatMap_cons

/-- A text whose marks are well formed is the escape of what it is read as exactly when no capital was
left in it. -/
theorem escape_unescape_iff (formed : escapesWellFormed requested = true) :
    escape (unescape requested) = requested ↔ ∀ c ∈ requested, c.isUpper = false := by
  fun_induction escapesWellFormed requested with
  | case1 => simp [unescape, escape]
  | case2 c =>
      simp only [bne_iff_ne] at formed
      cases capital : c.isUpper <;> simp [unescape, escape, escapeChar, capital, formed]
  | case3 c next rest mark ih =>
      rw [beq_iff_eq] at mark
      subst mark
      rw [Bool.and_eq_true, Bool.or_eq_true] at formed
      obtain ⟨follows, rest_⟩ := formed
      have kept := ih rest_
      rcases follows with small | marks
      · have first : ('!' : Char).isUpper = false := by decide
        obtain ⟨capital, back⟩ := capital_of_small small
        rw [unescape_letter small, escape_cons, escapeChar, if_pos capital, back]
        simp [kept, first, not_capital_of_small small]
      · have first : ('!' : Char).isUpper = false := by decide
        rw [beq_iff_eq] at marks
        subst marks
        rw [unescape_marks, escape_cons]
        simp [escapeChar, kept, first]
  | case4 c next rest plain ih =>
      rw [beq_iff_eq] at plain
      have kept := ih formed
      rw [unescape_plain plain, escape_cons]
      cases capital : c.isUpper with
      | true =>
          -- the mark that escaping puts in front of a capital is not the capital
          have apart : '!' ≠ c := fun same => plain same.symm
          simp [escapeChar, capital, apart]
      | false => simp [escapeChar, capital, plain, kept]

theorem wellFormed_of_accepted (accepted : validateEscapedModule requested = .ok ()) :
    escapesWellFormed requested = true := by
  rw [validateEscapedModule] at accepted
  split at accepted
  · cases accepted
  · rename_i formed
    simpa using formed

/-- Every path is read back from its escape. An accepted request is the escape of the module it names
exactly when it holds no capital, and among those requests no two name one module. -/
theorem accepted_is_canonical_iff (path requested other : Text) :
    unescape (escape path) = path ∧
      (validateEscapedModule requested = .ok () →
        (escape (unescape requested) = requested ↔ ∀ c ∈ requested, c.isUpper = false)) ∧
      (validateEscapedModule requested = .ok () → validateEscapedModule other = .ok () →
        (∀ c ∈ requested, c.isUpper = false) → (∀ c ∈ other, c.isUpper = false) →
          unescape requested = unescape other → requested = other) := by
  have canonical : ∀ requested, validateEscapedModule requested = .ok () →
      (escape (unescape requested) = requested ↔ ∀ c ∈ requested, c.isUpper = false) :=
    fun requested accepted => escape_unescape_iff (wellFormed_of_accepted accepted)
  refine ⟨unescape_escape path, canonical requested, ?_⟩
  intro accepted accepted' plain plain' same
  calc requested = escape (unescape requested) := ((canonical requested accepted).mpr plain).symm
    _ = escape (unescape other) := by rw [same]
    _ = other := (canonical other accepted').mpr plain'

/-- The hypotheses are met by `example.com/!bad`, the escape of `example.com/Bad`. -/
theorem accepted_bad_is_canonical :
    escape (unescape "example.com/!bad".toList) = "example.com/!bad".toList :=
  ((accepted_is_canonical_iff [] "example.com/!bad".toList []).2.1 (by decide +kernel)).mpr (by simp)

/-- `example.com/Bad` is accepted, names the module that `example.com/!bad` names, and is not its
escape. -/
theorem capital_is_accepted_unescaped :
    validateEscapedModule "example.com/Bad".toList = .ok () ∧
      validateEscapedModule "example.com/!bad".toList = .ok () ∧
      unescape "example.com/Bad".toList = unescape "example.com/!bad".toList ∧
      escape (unescape "example.com/Bad".toList) ≠ "example.com/Bad".toList := by
  decide

end OpenCargo.Go
