/-
Module: OpenCargo.Npm.Names
Purpose: The names and versions npm packages are published under (`crates/domain/src/names.rs`), and the
  file names of their tarballs (`registry/npm/publish.rs`).
Trusted boundary: none
Main exports: buildTarballFilename, version_chars, fileOf_inj, fileOf_shortName_inj
-/
import OpenCargo.Layout

namespace OpenCargo.Npm

open OpenCargo.Lib (splitOnce splitOnce_eq_some)

/-! ### The rules -/

/-- A character of a version. -/
def isVersionChar (c : Char) : Bool := c.isAlphanum || c == '.' || c == '+' || c == '-'

def validateVersion (version : Text) : Except DomainError Unit :=
  if version.isEmpty || decide (128 < Keys.byteLength version) || !version.all isVersionChar then
    .error (.invalidName ("invalid version: '".toList ++ version ++ "'".toList))
  else .ok ()

/-! ### File names -/

/-- The name without its scope. -/
def shortName (package : Text) : Text :=
  match splitOnce '/' package with
  | some (_, name) => name
  | none => package

def fileOf (name version : Text) : Text := name ++ "-".toList ++ version ++ ".tgz".toList

/-- `"@acme/httpclient"` and `"1.0.0"` give `"httpclient-1.0.0.tgz"`. -/
def buildTarballFilename (package version : Text) : Text := fileOf (shortName package) version

variable {package name version version' : Text}

theorem version_chars (valid : validateVersion version = .ok ()) : ∀ c ∈ version, isVersionChar c = true := by
  rw [validateVersion] at valid
  split at valid
  · cases valid
  · rename_i plain
    simp only [Bool.or_eq_true, Bool.not_eq_true', not_or, Bool.not_eq_false] at plain
    exact List.all_eq_true.mp plain.2

theorem slash_notMem_version (valid : validateVersion version = .ok ()) : '/' ∉ version := by
  intro mem
  have char := version_chars valid '/' mem
  revert char
  decide

theorem fileOf_inj (same : fileOf name version = fileOf name version') : version = version' :=
  List.append_cancel_left (List.append_cancel_right same)

theorem count_shortName (package : Text) :
    shortName package = package ∨ package.count '/' = (shortName package).count '/' + 1 := by
  rw [shortName]
  split
  · rename_i scope name cut
    obtain ⟨rfl, clear⟩ := splitOnce_eq_some cut
    right
    rw [List.count_append, List.count_cons_self, List.count_eq_zero.mpr clear, Nat.zero_add]
  · exact .inl rfl

theorem count_fileOf (flat : '/' ∉ version) : (fileOf name version).count '/' = name.count '/' := by
  have dash : ("-".toList).count '/' = 0 := by decide
  have tail : (".tgz".toList).count '/' = 0 := by decide
  rw [fileOf, List.count_append, List.count_append, List.count_append, List.count_eq_zero.mpr flat, dash,
    tail]
  rfl

theorem fileOf_shortName_inj (flat : '/' ∉ version) (flat' : '/' ∉ version')
    (same : fileOf (shortName package) version = fileOf package version') : version = version' := by
  rcases count_shortName package with plain | more
  · rw [plain] at same
    exact fileOf_inj same
  · have slashes := congrArg (List.count '/') same
    rw [count_fileOf flat, count_fileOf flat'] at slashes
    omega

end OpenCargo.Npm
