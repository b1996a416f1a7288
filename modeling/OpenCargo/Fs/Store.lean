/-
Module: OpenCargo.Fs.Store
Purpose: The filesystem adapter of the storage port (`adapters/fs/mod.rs`): keys as paths, a writer's
  scratch file and its landing over the target, copies, relocations, deletions, the listing and the sweep of
  what was abandoned; and what any sequence of these calls makes of the tree.
Trusted boundary: as Fs.Tree; that of the calls of the file system only a rename and a removal are refused
  without a cause in the tree, and that a file that was just renamed can be dated
Main exports: Writer, Store, Act, step
-/
import OpenCargo.Fs.Tree
import OpenCargo.Lib.Run

namespace OpenCargo.Fs

open OpenCargo.Lib

/-! ### Keys and paths -/

/-- `MAX_KEY_BYTES`. -/
def maxKeyBytes : Nat := 1024

/-- A key's path, name by name. -/
def pathOf (key : Text) : Path := key.splitOn '/'

def safePath (key : Text) : Except StorageError Path := do
  Keys.validate key maxKeyBytes
  Keys.validateSegments key Keys.maxNameBytes
  return pathOf key

def safePrefix (root : Text) : Except StorageError Path := do
  Keys.validatePrefix root maxKeyBytes
  Keys.validateSegments root Keys.maxNameBytes
  return if root.isEmpty then [] else pathOf root

def scratchFile (uuid : Text) : Path := [Keys.scratch, uuid]

/-! ### Operations on the tree -/

/-- A directory above the path would have to be where a file is. -/
def inFile (t : Tree) (p : Path) : Bool := t.files.keys.any fun q => q <+: p ∧ q ≠ p

/-- A finished scratch file is renamed over its target. It is left behind where the target's directory cannot be
made, and removed where the rename is refused. -/
def land (t : Tree) (scratch target : Path) (now : Int) (fails : Bool) : Except StorageError Unit × Tree :=
  if inFile t target then (.error .unavailable, t)
  else match t.get scratch with
    | none => (.error .notFound, t)
    | some file =>
        let rest := t.remove scratch
        match if fails then none else rest.place target ⟨file.body, now⟩ with
        | some landed => (.ok (), landed)
        | none => (.error .unavailable, rest)

def copyPath (t : Tree) (source target : Path) (uuid : Text) (now : Int) (fails : Bool) :
    Except StorageError Unit × Tree :=
  match t.get source with
  | none => (.error (if t.isDir source then .unavailable else .notFound), t)
  | some file =>
      match t.place (scratchFile uuid) ⟨file.body, now⟩ with
      | none => (.error .unavailable, t)
      | some copied => land copied (scratchFile uuid) target now fails

/-- How a relocation came to its end: the source was renamed, or copied and left, or was gone before. -/
inductive Relocated where
  | renamed
  | copied
  | before
deriving Repr, DecidableEq, Inhabited

/-- A rename moves whatever is at the source, a directory as well, which then cannot be dated. Where it is refused
(`crosses`: though nothing in the tree is in the way) the source is copied. -/
def relocatePath (t : Tree) (source target : Path) (uuid : Text) (now : Int) (crosses fails : Bool) :
    Except StorageError Relocated × Tree :=
  let copying := copyPath t source target uuid now fails
  if inFile t target then (.error .unavailable, t)
  else match t.get source with
    | some file =>
        match if crosses then none else t.place target ⟨file.body, now⟩ with
        | some placed => (.ok .renamed, if source = target then placed else placed.remove source)
        | none => (copying.1.map fun _ => .copied, copying.2)
    | none =>
        if t.isDir source then
          match if crosses then none else t.rename source target with
          | some moved => (.error .unavailable, moved)
          | none => (copying.1.map fun _ => .copied, copying.2)
        else (if (t.get target).isSome then .ok .before else .error .notFound, t)

structure ObjectMeta where
  key : Text
  size : Nat
  lastModified : Int
deriving Repr, DecidableEq, Inhabited

def objectMeta (entry : Path × File) : ObjectMeta :=
  ⟨['/'].intercalate entry.1, entry.2.body.length, entry.2.modified⟩

def list (t : Tree) (root : Text) : Except StorageError (List ObjectMeta) := do
  let path ← safePrefix root
  return (t.walk path).map objectMeta

/-- First the scratch files, then the legacy part files wherever they are. -/
def sweepAbandoned (t : Tree) (olderThan : Nat) (now : Int) : Nat × Tree :=
  let cutoff := now - olderThan
  let scratch := t.sweepDir [Keys.scratch] cutoff false
  let t := t.removeAll scratch
  let legacy := t.sweepDir [] cutoff true
  (scratch.length + legacy.length, t.removeAll legacy)

/-! ### Calls -/

structure Writer where
  uuid : Text
  key : Text
  content : Bytes
deriving Repr, DecidableEq, Inhabited

structure Store where
  tree : Tree
  now : Int
  writers : List Writer
  /-- The names that were drawn for scratch files, and those whose files have landed. -/
  drawn : List Text
  landed : List Text
  /-- What was committed, copied or relocated, and not deleted. -/
  objects : Objects Bytes

def begin_ (now : Int) : Store := ⟨.empty, now, [], [], [], []⟩

inductive Act where
  /-- The system's clock is read as that from here on. -/
  | clock (now : Int)
  | open_ (key uuid : Text)
  | write (i : Nat) (chunk : Bytes)
  | commit (i : Nat) (fails : Bool)
  /-- A writer is dropped. -/
  | drop (i : Nat)
  /-- A writer is gone with its process. -/
  | lose (i : Nat)
  | copy (source target uuid : Text) (fails : Bool)
  | relocate (source target uuid : Text) (crosses fails : Bool)
  | delete (key : Text) (fails : Bool)
  | sweep (olderThan : Nat) (now : Int)
deriving Repr, DecidableEq

namespace Store

def openWriter (s : Store) (key uuid : Text) : Store :=
  match safePath key with
  | .error _ => s
  | .ok _ =>
      match s.tree.place (scratchFile uuid) ⟨[], s.now⟩ with
      | none => s
      | some tree => { s with tree, writers := s.writers ++ [⟨uuid, key, []⟩], drawn := uuid :: s.drawn }

/-- A file that was swept is written all the same, and no longer in the tree. -/
def write (s : Store) (i : Nat) (w : Writer) (chunk : Bytes) : Store :=
  let content := w.content ++ chunk
  let kept := (s.tree.get (scratchFile w.uuid)).bind fun _ => s.tree.place (scratchFile w.uuid) ⟨content, s.now⟩
  { s with tree := kept.getD s.tree, writers := s.writers.set i { w with content } }

def commit (s : Store) (i : Nat) (w : Writer) (fails : Bool) : Store :=
  let s := { s with writers := s.writers.eraseIdx i }
  match land s.tree (scratchFile w.uuid) (pathOf w.key) s.now fails with
  | (.ok (), tree) => { s with tree, landed := w.uuid :: s.landed, objects := s.objects.put w.key w.content }
  | (.error _, tree) => { s with tree }

def copy (s : Store) (source target uuid : Text) (fails : Bool) : Store :=
  match safePath source, safePath target with
  | .ok here, .ok there =>
      let s := { s with drawn := uuid :: s.drawn }
      match copyPath s.tree here there uuid s.now fails, s.objects.get source with
      | (.ok (), tree), some body =>
          { s with tree, landed := uuid :: s.landed, objects := s.objects.put target body }
      | (_, tree), _ => { s with tree }
  | _, _ => s

def relocate (s : Store) (source target uuid : Text) (crosses fails : Bool) : Store :=
  match safePath source, safePath target with
  | .ok here, .ok there =>
      let s := { s with drawn := uuid :: s.drawn }
      match relocatePath s.tree here there uuid s.now crosses fails, s.objects.get source with
      | (.ok .renamed, tree), some body =>
          let objects := s.objects.put target body
          { s with tree, objects := if source = target then objects else objects.delete source }
      | (.ok .copied, tree), some body =>
          { s with tree, landed := uuid :: s.landed, objects := s.objects.put target body }
      | (_, tree), _ => { s with tree }
  | _, _ => s

def delete (s : Store) (key : Text) (fails : Bool) : Store :=
  match safePath key with
  | .error _ => s
  | .ok path =>
      if fails then s
      else { s with tree := s.tree.remove path, objects := s.objects.delete key }

end Store

/-- A name that is drawn for a scratch file was not drawn before. -/
def step (s : Store) : Act → Option Store
  | .clock now => some { s with now }
  | .open_ key uuid => if uuid ∈ s.drawn then none else some (s.openWriter key uuid)
  | .write i chunk => (s.writers[i]?).map fun w => s.write i w chunk
  | .commit i fails => (s.writers[i]?).map fun w => s.commit i w fails
  | .drop i => (s.writers[i]?).map fun w =>
      { s with tree := s.tree.remove (scratchFile w.uuid), writers := s.writers.eraseIdx i }
  | .lose i => (s.writers[i]?).map fun _ => { s with writers := s.writers.eraseIdx i }
  | .copy source target uuid fails =>
      if uuid ∈ s.drawn then none else some (s.copy source target uuid fails)
  | .relocate source target uuid crosses fails =>
      if uuid ∈ s.drawn then none else some (s.relocate source target uuid crosses fails)
  | .delete key fails => some (s.delete key fails)
  | .sweep olderThan now => some { s with tree := (sweepAbandoned s.tree olderThan now).2 }

end OpenCargo.Fs
