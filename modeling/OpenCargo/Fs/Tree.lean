/-
Module: OpenCargo.Fs.Tree
Purpose: A directory of files as the filesystem adapter of the storage port finds it (`adapters/fs/mod.rs`):
  files by their path, a directory being whatever a file lies in; the walk that lists, and the walk that
  sweeps, one directory after the other.
Trusted boundary: that nothing in the tree is a symbolic link, and that no other process writes it; a
  directory no file lies in is left out
Main exports: Tree.sweepDir, mem_walk, nodup_walk, of_mem_sweepDir
-/
import OpenCargo.Lib.Entries
import OpenCargo.Lib.Worklist
import OpenCargo.Storage

namespace OpenCargo.Fs

open OpenCargo.Lib

/-! ### The tree -/

/-- A path below the base, name by name. -/
abbrev Path := List Text

structure File where
  body : Bytes
  modified : Int
deriving Repr, DecidableEq, Inhabited

/-- No file lies in another. -/
structure Tree where
  files : Entries Path File
  apart : ∀ p ∈ files.keys, ∀ q ∈ files.keys, p <+: q → p = q

namespace Tree

def empty : Tree := ⟨⟨[], .nil⟩, fun _ mem => nomatch mem⟩

variable {t u : Tree} {p q : Path} {f g : File}

def get (t : Tree) (p : Path) : Option File := t.files.get p

/-- A file lies in it. -/
def isDir (t : Tree) (p : Path) : Bool := t.files.keys.any fun q => p <+: q ∧ p ≠ q

/-- A file can stand there: neither does a file lie in it, nor it in a file. -/
def Stands (t : Tree) (p : Path) : Prop :=
  p ≠ [] ∧ ∀ q ∈ t.files.keys, (p <+: q → p = q) ∧ (q <+: p → q = p)

instance : Decidable (t.Stands p) := inferInstanceAs (Decidable (_ ∧ _))

theorem mem_keys_iff : p ∈ t.files.keys ↔ ∃ f, t.get p = some f := Entries.mem_keys_iff

theorem eq_of_prefix (one : t.get p = some f) (two : t.get q = some g) (less : p <+: q) : p = q :=
  t.apart p (mem_keys_iff.mpr ⟨f, one⟩) q (mem_keys_iff.mpr ⟨g, two⟩) less

theorem apart_set (stands : t.Stands p) :
    ∀ a ∈ (t.files.set p f).keys, ∀ b ∈ (t.files.set p f).keys, a <+: b → a = b := by
  have known : ∀ c ∈ (t.files.set p f).keys, c = p ∨ c ∈ t.files.keys := by
    intro c mem
    obtain ⟨g, held⟩ := Entries.mem_keys_iff.mp mem
    rw [Entries.get_set] at held
    split at held
    · exact .inl ‹_›
    · exact .inr (Entries.mem_keys_iff.mpr ⟨g, held⟩)
  intro a one b two less
  rcases known a one with own | here
  · rcases known b two with own' | there
    · rw [own, own']
    · exact own ▸ (stands.2 b there).1 (own ▸ less)
  · rcases known b two with own' | there
    · exact own' ▸ (stands.2 a here).2 (own' ▸ less)
    · exact t.apart a here b there less

/-- A file is written over whatever file stood there. -/
def place (t : Tree) (p : Path) (f : File) : Option Tree :=
  if stands : t.Stands p then some ⟨t.files.set p f, apart_set stands⟩ else none

theorem place_of_get (there : t.get p = some f) (some_ : p ≠ []) (g : File) : ∃ u, t.place p g = some u := by
  have here := mem_keys_iff.mpr ⟨f, there⟩
  have stands : t.Stands p := ⟨some_, fun q mem => ⟨t.apart p here q mem, t.apart q mem p here⟩⟩
  exact ⟨_, dif_pos stands⟩

theorem keys_eraseAll {ps : List Path} : ∀ c ∈ (t.files.eraseAll ps).keys, c ∈ t.files.keys := by
  intro c mem
  obtain ⟨g, held⟩ := Entries.mem_keys_iff.mp mem
  exact Entries.mem_keys_iff.mpr ⟨g, (Entries.get_eraseAll.mp held).2⟩

def removeAll (t : Tree) (ps : List Path) : Tree :=
  ⟨t.files.eraseAll ps, fun a one b two => t.apart a (keys_eraseAll a one) b (keys_eraseAll b two)⟩

def remove (t : Tree) (p : Path) : Tree := t.removeAll [p]

theorem get_place (placed : t.place p f = some u) : u.get q = if q = p then some f else t.get q := by
  rw [place] at placed
  split at placed
  · cases placed
    exact Entries.get_set
  · cases placed

theorem get_removeAll {ps : List Path} : (t.removeAll ps).get q = some f ↔ q ∉ ps ∧ t.get q = some f :=
  Entries.get_eraseAll

theorem get_remove : (t.remove p).get q = some f ↔ q ≠ p ∧ t.get q = some f := by
  rw [remove, get_removeAll, List.mem_singleton]

/-! ### A directory is renamed -/

/-- Where a path goes when a directory is renamed. -/
def moved (source target p : Path) : Path := if source <+: p then target ++ p.drop source.length else p

/-- There is nothing at the target, which does not lie in the source, nor in a file. -/
def Vacant (t : Tree) (source target : Path) : Prop :=
  target ≠ [] ∧ ¬source <+: target ∧ ∀ q ∈ t.files.keys, ¬target <+: q ∧ ¬q <+: target

instance {source target : Path} : Decidable (t.Vacant source target) := inferInstanceAs (Decidable (_ ∧ _))

theorem moved_prefix {source target a b : Path} (vacant : t.Vacant source target) (one : a ∈ t.files.keys)
    (two : b ∈ t.files.keys) (less : moved source target a <+: moved source target b) : a <+: b := by
  rw [moved, moved] at less
  by_cases from_ : source <+: a <;> by_cases from_' : source <+: b
  · obtain ⟨x, rfl⟩ := from_
    obtain ⟨y, rfl⟩ := from_'
    simpa using less
  · rw [if_pos from_, if_neg from_'] at less
    exact absurd ((List.prefix_append target _).trans less) (vacant.2.2 b two).1
  · rw [if_neg from_, if_pos from_'] at less
    obtain ⟨y, rfl⟩ := from_'
    rcases List.prefix_or_prefix_of_prefix less (List.prefix_append target _) with above | inside
    · exact absurd above (vacant.2.2 a one).2
    · exact absurd inside (vacant.2.2 a one).1
  · rwa [if_neg from_, if_neg from_'] at less

/-- The files, each where it goes. -/
def movedFiles (t : Tree) (source target : Path) : List (Path × File) :=
  t.files.toList.map fun entry => (moved source target entry.1, entry.2)

theorem keys_movedFiles {source target : Path} :
    (t.movedFiles source target).map Prod.fst = t.files.keys.map (moved source target) := by
  rw [movedFiles, Entries.keys, List.map_map, List.map_map]
  rfl

theorem nodup_movedFiles {source target : Path} (vacant : t.Vacant source target) :
    ((t.movedFiles source target).map Prod.fst).Nodup := by
  rw [keys_movedFiles]
  refine List.Nodup.map_on (fun a one b two same => ?_) t.files.unique
  have less := moved_prefix vacant one two (same ▸ List.prefix_refl _)
  have more := moved_prefix vacant two one (same ▸ List.prefix_refl _)
  exact less.eq_of_length_le more.length_le

theorem apart_movedFiles {source target : Path} (vacant : t.Vacant source target) :
    ∀ a ∈ (t.movedFiles source target).map Prod.fst, ∀ b ∈ (t.movedFiles source target).map Prod.fst,
      a <+: b → a = b := by
  rw [keys_movedFiles]
  intro _ one _ two less
  obtain ⟨a, here, rfl⟩ := List.mem_map.mp one
  obtain ⟨b, there, rfl⟩ := List.mem_map.mp two
  rw [t.apart a here b there ( moved_prefix vacant here there less)]

/-- `rename` of a directory: everything in it goes along. -/
def rename (t : Tree) (source target : Path) : Option Tree :=
  if vacant : t.Vacant source target then
    some ⟨⟨t.movedFiles source target, nodup_movedFiles vacant⟩, apart_movedFiles vacant⟩
  else none

/-! ### The walks -/

/-- `LEGACY_PART`. -/
def legacyPart : Text := ".part-".toList

/-- The file name of the path contains it. -/
def isLegacyPart (p : Path) : Bool := p.getLast?.any fun name => legacyPart <:+: name

/-- The trees a listing skips. -/
def reserved (p : Path) : Bool := [Keys.scratch] <+: p || [Keys.backend] <+: p

/-- What stands in a directory, in the order of the names. -/
def entriesOf (t : Tree) (dir : Path) : List Path :=
  ((childrenOf t.files.keys dir).mergeSort fun a b => a ≤ b).map fun name => dir ++ [name]

/-- One path of the walk that lists: what it yields. -/
def listed (t : Tree) (p : Path) : List (Path × File) :=
  if reserved p then []
  else match t.get p with
    | some file => if isLegacyPart p then [] else [(p, file)]
    | none => []

/-- And the paths it goes on to. -/
def onward (t : Tree) (p : Path) : List Path :=
  if reserved p then []
  else match t.get p with
    | some _ => []
    | none => t.entriesOf p

/-- Every committed file under the root, the reserved trees and the legacy part files skipped, one directory at a
time. Each round is nearer to the files, which bounds them. -/
def walk (t : Tree) (root : Path) : List (Path × File) :=
  explore (fun rest new => rest ++ new) t.onward t.listed (below t.files.keys root) [root]

/-- What a sweep of one directory removes from it. -/
def sweptIn (t : Tree) (cutoff : Int) (legacyOnly : Bool) (dir : Path) : List Path :=
  (t.entriesOf dir).filter fun p => (t.get p).any fun file =>
    (!legacyOnly || isLegacyPart p) && decide (file.modified < cutoff)

/-- The directories in it that are swept as well. -/
def sweptBelow (t : Tree) (legacyOnly : Bool) (dir : Path) : List Path :=
  (t.entriesOf dir).filter fun p => (t.get p).isNone && !(legacyOnly && p == [Keys.scratch])

/-- `sweep_dir`: the files it removes. The last directory that was found is the next one to be read. -/
def sweepDir (t : Tree) (dir : Path) (cutoff : Int) (legacyOnly : Bool) : List Path :=
  explore (fun rest new => new.reverse ++ rest) (t.sweptBelow legacyOnly) (t.sweptIn cutoff legacyOnly)
    (below t.files.keys dir) [dir]

section Walks

/-! ### What a walk finds -/

theorem sum_entriesOf (t : Tree) (dir : Path) (f : Path → Nat) :
    ((t.entriesOf dir).map f).sum = ((childrenOf t.files.keys dir).map fun name => f (dir ++ [name])).sum := by
  rw [entriesOf, List.map_map]
  exact ((List.mergeSort_perm _ _).map _).sum_eq

theorem sum_below_entriesOf (dir : Path) :
    ((t.entriesOf dir).map (below t.files.keys)).sum < below t.files.keys dir := by
  rw [sum_entriesOf]
  exact sum_below_childrenOf

theorem below_pos (paths : List Path) (dir : Path) : 0 < below paths dir := by
  rw [below]
  omega

theorem sum_leading (there : t.get p = some f) (other : p ≠ q) (v : Nat) :
    ((t.entriesOf q).map fun r => if r <+: p then v else 0).sum = if q <+: p then v else 0 := by
  rw [sum_entriesOf]
  exact sum_childrenOf (mem_keys_iff.mpr ⟨f, there⟩) other v

theorem onward_lighter (q : Path) : ((t.onward q).map (below t.files.keys)).sum < below t.files.keys q := by
  rw [onward]
  split
  · exact below_pos _ q
  · split
    · exact below_pos _ q
    · exact sum_below_entriesOf q

/-- A file under the root that is to be listed. -/
def Visible (p : Path) : Prop := reserved p = false ∧ isLegacyPart p = false

instance : Decidable (Visible p) := inferInstanceAs (Decidable (_ ∧ _))

theorem reserved_of_prefix (res : reserved q = true) (less : q <+: p) : reserved p = true := by
  rw [reserved, Bool.or_eq_true, decide_eq_true_iff, decide_eq_true_iff] at res ⊢
  exact res.imp (fun one => one.trans less) fun two => two.trans less

/-- How often the walk from `q` is to yield the file at `p`. -/
def due (p q : Path) : Nat := if q <+: p then (if Visible p then 1 else 0) else 0

theorem due_of_apart (apart : ¬q <+: p) : due p q = 0 := if_neg apart

theorem due_of_reserved (res : reserved q = true) : due p q = 0 := by
  by_cases less : q <+: p
  · have hidden : ¬Visible p := fun visible =>
      Bool.false_ne_true (visible.1.symm.trans ( reserved_of_prefix res less))
    rw [due, if_pos less, if_neg hidden]
  · exact due_of_apart less

/-- What one path of the walk yields, and what the paths it goes on to are to yield. -/
theorem count_listed (there : t.get p = some f) (q : Path) :
    (t.listed q).count (p, f) + ((t.onward q).map (due p)).sum = due p q := by
  rw [listed, onward]
  by_cases res : reserved q = true
  · rw [if_pos res, if_pos res, due_of_reserved res]
    rfl
  · rw [if_neg res, if_neg res]
    cases stands : t.get q with
    | some g =>
        by_cases own : q = p
        · subst own
          obtain rfl : f = g := Option.some.inj (there.symm.trans stands)
          have open_ : reserved q = false := by simpa using res
          rw [due, if_pos (List.prefix_refl _)]
          by_cases legacy : isLegacyPart q = true <;> simp [legacy, Visible, open_]
        · rw [due_of_apart fun less => own ( eq_of_prefix stands there less)]
          dsimp only
          split
          · rfl
          · simp [own]
    | none =>
        have other : p ≠ q := by
          rintro rfl
          rw [there] at stands
          cases stands
        exact (Nat.zero_add _).trans (sum_leading there other _)

theorem count_walk (root : Path) (there : t.get p = some f) : (t.walk root).count (p, f) = due p root := by
  have adds : ∀ rest new : List Path, (rest ++ new).Perm (rest ++ new) := fun _ _ => List.Perm.refl _
  have enough : ([root].map (below t.files.keys)).sum ≤ below t.files.keys root := Nat.le_of_eq List.sum_singleton
  exact (count_explore (below t.files.keys) (due p) (p, f) adds onward_lighter (count_listed there) enough).trans
    List.sum_singleton

/-- The walk yields each file under the root that is to be listed once, and nothing else. -/
theorem mem_walk {root : Path} : (p, f) ∈ t.walk root ↔ t.get p = some f ∧ root <+: p ∧ Visible p := by
  constructor
  · intro mem
    have there : t.get p = some f := by
      obtain ⟨q, -, yields⟩ := exists_of_mem_explore (P := fun _ => True) (fun _ _ => List.Perm.refl _)
        (fun _ _ _ _ => trivial) (fun _ _ => trivial) mem
      rw [listed] at yields
      split at yields
      · cases yields
      · split at yields
        · rename_i g held
          split at yields
          · cases yields
          · cases List.mem_singleton.mp yields
            exact held
        · cases yields
    have found := List.count_pos_iff.mpr mem
    rw [count_walk root there, due] at found
    split at found
    · split at found
      · exact ⟨there, ‹_›, ‹_›⟩
      · cases found
    · cases found
  · rintro ⟨there, less, visible⟩
    refine List.count_pos_iff.mp ?_
    rw [count_walk root there, due, if_pos less, if_pos visible]
    exact Nat.one_pos

theorem nodup_walk (root : Path) : (t.walk root).Nodup := by
  refine List.nodup_iff_count_le_one.mpr fun entry => ?_
  obtain ⟨p, f⟩ := entry
  by_cases mem : (p, f) ∈ t.walk root
  · rw [count_walk root (mem_walk.mp mem).1, due]
    split
    · split <;> omega
    · omega
  · rw [List.count_eq_zero_of_not_mem mem]
    exact Nat.zero_le 1

/-- A file is swept: it is old enough, and its name is a scratch file's, where only those are swept. -/
def Swept (cutoff : Int) (legacyOnly : Bool) (p : Path) (f : File) : Prop :=
  f.modified < cutoff ∧ (legacyOnly = true → isLegacyPart p = true)

theorem of_mem_sweepDir {dir : Path} {cutoff : Int} {legacyOnly : Bool} (mem : p ∈ t.sweepDir dir cutoff legacyOnly) :
    dir <+: p ∧ ∃ f, t.get p = some f ∧ Swept cutoff legacyOnly p f := by
  have inside : ∀ q, dir <+: q → ∀ r ∈ t.entriesOf q, dir <+: r := by
    intro q less r entry
    obtain ⟨name, _, rfl⟩ := List.mem_map.mp entry
    exact less.trans (List.prefix_append q [name])
  have adds : ∀ rest new : List Path, (new.reverse ++ rest).Perm (rest ++ new) := fun rest new =>
    List.perm_append_comm.trans ((List.reverse_perm new).append_left rest)
  obtain ⟨q, less, removed⟩ := exists_of_mem_explore (P := fun q => dir <+: q) adds
    (fun q less r goes => inside q less r (List.mem_of_mem_filter goes))
    (fun q start => List.mem_singleton.mp start ▸ List.prefix_refl dir) mem
  obtain ⟨entry, old⟩ := List.mem_filter.mp removed
  obtain ⟨f, there, eligible⟩ := (Option.any_eq_true _ _).mp old
  refine ⟨inside q less p entry, f, there, ?_⟩
  rw [Bool.and_eq_true, decide_eq_true_iff] at eligible
  refine ⟨eligible.2, fun only => ?_⟩
  rw [only] at eligible
  exact eligible.1

end Walks

end Tree

end OpenCargo.Fs
