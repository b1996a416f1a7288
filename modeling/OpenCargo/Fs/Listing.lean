/-
Module: OpenCargo.Fs.Listing
Purpose: What the filesystem adapter lists and sweeps, against what was committed and not deleted: exactly
  that, and scratch files that never landed, as long as no file is named like a legacy part and no
  relocation names a directory.
Trusted boundary: as Fs.Store
Main exports: Inv, Inv.step, Right, listed_of_plain
-/
import OpenCargo.Fs.Store
import OpenCargo.Lib.Fallible

namespace OpenCargo.Fs

open OpenCargo.Lib

variable {t u : Tree} {objects : Objects Bytes} {drawn landed : List Text} {key root uuid : Text} {p q : Path}
  {f g : File}

/-! ### Keys and their paths -/

theorem safePath_eq_ok {path : Path} (safe : safePath key = .ok path) :
    path = pathOf key ∧ key ≠ [] ∧ Tree.reserved (pathOf key) = false := by
  rw [safePath] at safe
  obtain ⟨_, valid, rest⟩ := bind_eq_ok.mp safe
  obtain ⟨_, _, same⟩ := bind_eq_ok.mp rest
  cases same
  rw [Keys.validate] at valid
  split at valid
  · cases valid
  · rename_i some_
    refine ⟨rfl, by simpa using some_, ?_⟩
    rw [Keys.validatePrefix, if_neg some_] at valid
    split at valid
    · cases valid
    · split at valid
      · cases valid
      · split at valid
        · cases valid
        · dsimp only at valid
          split at valid
          · cases valid
          · rename_i free
            rw [Bool.or_eq_true, not_or, beq_iff_eq, beq_iff_eq] at free
            obtain ⟨first, more, pieces⟩ := List.exists_cons_of_ne_nil (List.splitOn_ne_nil '/' key)
            rw [pieces, List.headD_cons] at free
            rw [Tree.reserved, pathOf, pieces, Bool.or_eq_false_iff, decide_eq_false_iff_not,
              decide_eq_false_iff_not, List.cons_prefix_cons, List.cons_prefix_cons]
            exact ⟨fun both => free.1 both.1.symm, fun both => free.2 both.1.symm⟩

theorem join_pathOf (key : Text) : ['/'].intercalate (pathOf key) = key := List.intercalate_splitOn '/'

theorem pathOf_injective {other : Text} (same : pathOf key = pathOf other) : key = other := by
  rw [← join_pathOf key, same, join_pathOf other]

theorem prefix_pathOf : pathOf root <+: pathOf key ↔ Covers root key := by
  constructor
  · rintro ⟨more, same⟩
    cases more with
    | nil =>
        rw [List.append_nil] at same
        exact .inl (pathOf_injective same).symm
    | cons first more =>
        right
        refine within_iff.mpr ⟨['/'].intercalate (first :: more), ?_⟩
        have some_ : pathOf root ≠ [] := List.splitOn_ne_nil '/' root
        rw [← join_pathOf key, ← same, intercalate_append_cons some_]
        exact congrArg (· ++ _) (join_pathOf root)
  · rintro (rfl | within)
    · exact List.prefix_refl _
    · obtain ⟨rest, rfl⟩ := within_iff.mp within
      rw [pathOf, pathOf, List.splitOn_append_cons_self]
      exact List.prefix_append _ _

theorem safePrefix_eq_ok {path : Path} (safe : safePrefix root = .ok path) :
    path <+: pathOf key ↔ Keys.under key root = true := by
  rw [safePrefix] at safe
  obtain ⟨_, _, rest⟩ := bind_eq_ok.mp safe
  obtain ⟨_, _, same⟩ := bind_eq_ok.mp rest
  cases same
  rw [Keys.under_iff]
  by_cases empty : root = []
  · subst empty
    simp
  · have some_ : root.isEmpty = false := by simpa using empty
    rw [some_, if_neg Bool.false_ne_true, prefix_pathOf]
    simp [empty]

/-! ### The tree and the objects -/

/-- Every object is in the tree, at the path of a key that is free of reserved and of legacy names; and what else
is there is scratch that has not landed. -/
structure Agrees (t : Tree) (objects : Objects Bytes) (drawn landed : List Text) : Prop where
  keyed : ∀ key body, objects.get key = some body →
    ∃ f, t.get (pathOf key) = some f ∧ f.body = body ∧ Tree.Visible (pathOf key)
  filed : ∀ p f, t.get p = some f → (∃ uuid ∈ drawn, uuid ∉ landed ∧ p = scratchFile uuid) ∨
    ∃ key, p = pathOf key ∧ objects.get key = some f.body

theorem reserved_scratchFile : Tree.reserved (scratchFile uuid) = true := by
  rw [Tree.reserved, scratchFile, Bool.or_eq_true, decide_eq_true_iff]
  exact .inl (List.prefix_append [Keys.scratch] [uuid])

theorem pathOf_ne_scratchFile (open_ : Tree.reserved (pathOf key) = false) : pathOf key ≠ scratchFile uuid := by
  intro same
  rw [same, reserved_scratchFile] at open_
  cases open_

namespace Agrees

theorem empty : Agrees .empty [] drawn landed where
  keyed _ _ held := nomatch held
  filed _ _ there := nomatch there

theorem draw (agrees : Agrees t objects drawn landed) : Agrees t objects (uuid :: drawn) landed where
  keyed := agrees.keyed
  filed p f there := (agrees.filed p f there).imp_left
    fun ⟨other, mem, fresh, same⟩ => ⟨other, List.mem_cons_of_mem _ mem, fresh, same⟩

theorem land (agrees : Agrees t objects drawn landed) (gone : t.get (scratchFile uuid) = none) :
    Agrees t objects drawn (uuid :: landed) where
  keyed := agrees.keyed
  filed p f there := by
    refine (agrees.filed p f there).imp_left fun ⟨other, mem, fresh, same⟩ => ⟨other, mem, fun landed => ?_, same⟩
    rcases List.mem_cons.mp landed with own | old
    · rw [same, own, gone] at there
      cases there
    · exact fresh old

theorem placeScratch (agrees : Agrees t objects drawn landed) (mem : uuid ∈ drawn) (fresh : uuid ∉ landed)
    (placed : t.place (scratchFile uuid) f = some u) : Agrees u objects drawn landed where
  keyed key body held := by
    obtain ⟨g, there, same, visible⟩ := agrees.keyed key body held
    refine ⟨g, ?_, same, visible⟩
    rw [Tree.get_place placed, if_neg (pathOf_ne_scratchFile visible.1), there]
  filed p g there := by
    rw [Tree.get_place placed] at there
    split at there
    · exact .inl ⟨uuid, mem, fresh, ‹_›⟩
    · exact agrees.filed p g there

theorem removeScratch (agrees : Agrees t objects drawn landed) {ps : List Path}
    (scratch : ∀ p ∈ ps, Tree.reserved p = true) : Agrees (t.removeAll ps) objects drawn landed where
  keyed key body held := by
    obtain ⟨f, there, same, visible⟩ := agrees.keyed key body held
    refine ⟨f, Tree.get_removeAll.mpr ⟨fun mem => ?_, there⟩, same, visible⟩
    exact Bool.false_ne_true (visible.1.symm.trans (scratch _ mem))
  filed p f there := agrees.filed p f (Tree.get_removeAll.mp there).2

theorem place (agrees : Agrees t objects drawn landed) (visible : Tree.Visible (pathOf key))
    (placed : t.place (pathOf key) f = some u) : Agrees u (objects.put key f.body) drawn landed where
  keyed other body held := by
    by_cases same : other = key
    · subst same
      rw [Objects.get_put_self] at held
      refine ⟨f, ?_, Option.some.inj held, visible⟩
      rw [Tree.get_place placed, if_pos rfl]
    · rw [Objects.get_put_ne same] at held
      obtain ⟨g, there, body_, visible_⟩ := agrees.keyed other body held
      refine ⟨g, ?_, body_, visible_⟩
      rw [Tree.get_place placed, if_neg fun equal => same (pathOf_injective equal), there]
  filed p g there := by
    rw [Tree.get_place placed] at there
    split at there
    · cases there
      exact .inr ⟨key, ‹_›, Objects.get_put_self⟩
    · rename_i other
      refine (agrees.filed p g there).imp_right fun ⟨key', same, held⟩ => ⟨key', same, ?_⟩
      rw [Objects.get_put_ne fun equal => other (same.trans (congrArg pathOf equal)), held]

theorem remove (agrees : Agrees t objects drawn landed) (key : Text) :
    Agrees (t.remove (pathOf key)) (objects.delete key) drawn landed where
  keyed other body held := by
    have apart : other ≠ key := by
      rintro rfl
      rw [Objects.get_delete_self] at held
      cases held
    rw [Objects.get_delete_ne apart] at held
    obtain ⟨f, there, same, visible⟩ := agrees.keyed other body held
    exact ⟨f, Tree.get_remove.mpr ⟨fun equal => apart (pathOf_injective equal), there⟩, same, visible⟩
  filed p f there := by
    obtain ⟨other, there⟩ := Tree.get_remove.mp there
    refine (agrees.filed p f there).imp_right fun ⟨key', same, held⟩ => ⟨key', same, ?_⟩
    rw [Objects.get_delete_ne fun equal => other (same.trans (congrArg pathOf equal)), held]

end Agrees

/-! ### The operations -/

/-- The scratch files but one are as they were, or gone. -/
def Spares (uuid : Text) (t u : Tree) : Prop :=
  ∀ other f, other ≠ uuid → u.get (scratchFile other) = some f → t.get (scratchFile other) = some f

theorem scratchFile_injective {other : Text} (same : scratchFile other = scratchFile uuid) : other = uuid :=
  (List.cons.inj (List.cons.inj same).2).1

theorem Spares.refl : Spares uuid t t := fun _ _ _ there => there

theorem Spares.trans {v : Tree} (one : Spares uuid t u) (two : Spares uuid u v) : Spares uuid t v :=
  fun other f apart there => one other f apart (two other f apart there)

theorem Spares.place (placed : t.place p f = some u) (open_ : ∀ other, other ≠ uuid → scratchFile other ≠ p) :
    Spares uuid t u := by
  intro other g apart there
  rwa [Tree.get_place placed, if_neg (open_ other apart)] at there

theorem Spares.removeAll {ps : List Path} : Spares uuid t (t.removeAll ps) :=
  fun _ _ _ there => (Tree.get_removeAll.mp there).2

section Landing

variable {content : Bytes} (now : Int) (fails : Bool)

theorem land_spec (agrees : Agrees t objects drawn landed) (visible : Tree.Visible (pathOf key))
    (body : ∀ f, t.get (scratchFile uuid) = some f → f.body = content) :
    Spares uuid t (land t (scratchFile uuid) (pathOf key) now fails).2 ∧
      match (land t (scratchFile uuid) (pathOf key) now fails).1 with
      | .ok () => Agrees (land t (scratchFile uuid) (pathOf key) now fails).2 (objects.put key content) drawn
          (uuid :: landed)
      | .error _ => Agrees (land t (scratchFile uuid) (pathOf key) now fails).2 objects drawn landed := by
  have apart : pathOf key ≠ scratchFile uuid := pathOf_ne_scratchFile visible.1
  have removed : Agrees (t.remove (scratchFile uuid)) objects drawn landed :=
    agrees.removeScratch fun p mem => List.mem_singleton.mp mem ▸ reserved_scratchFile
  rw [land]
  split
  · exact ⟨.refl, agrees⟩
  · cases there : t.get (scratchFile uuid) with
    | none => exact ⟨.refl, agrees⟩
    | some file =>
        dsimp only
        split
        · rename_i landed_ placed
          split at placed
          · cases placed
          · refine ⟨Spares.removeAll.trans (.place placed fun other _ same => ?_), ?_⟩
            · exact pathOf_ne_scratchFile visible.1 same.symm
            · rw [← body file there]
              refine (removed.place visible placed).land ?_
              rw [Tree.get_place placed, if_neg (Ne.symm apart)]
              refine Option.eq_none_iff_forall_ne_some.mpr fun f still => ?_
              exact (Tree.get_remove.mp still).1 rfl
        · exact ⟨.removeAll, removed⟩

theorem Agrees.object_of_get (agrees : Agrees t objects drawn landed) (open_ : Tree.reserved (pathOf key) = false)
    (there : t.get (pathOf key) = some f) : objects.get key = some f.body := by
  rcases agrees.filed _ f there with ⟨other, _, _, same⟩ | ⟨other, same, held⟩
  · exact absurd same (pathOf_ne_scratchFile open_)
  · rw [pathOf_injective same, held]

variable {source target : Text}

theorem copyPath_spec (agrees : Agrees t objects drawn landed) (new : uuid ∉ landed)
    (open_ : Tree.reserved (pathOf source) = false) (visible : Tree.Visible (pathOf target)) :
    Spares uuid t (copyPath t (pathOf source) (pathOf target) uuid now fails).2 ∧
      match (copyPath t (pathOf source) (pathOf target) uuid now fails).1 with
      | .ok () => ∃ body, objects.get source = some body ∧
          Agrees (copyPath t (pathOf source) (pathOf target) uuid now fails).2 (objects.put target body)
            (uuid :: drawn) (uuid :: landed)
      | .error _ => Agrees (copyPath t (pathOf source) (pathOf target) uuid now fails).2 objects
          (uuid :: drawn) landed := by
  rw [copyPath]
  cases there : t.get (pathOf source) with
  | none => exact ⟨.refl, agrees.draw⟩
  | some file =>
      dsimp only
      cases placed : t.place (scratchFile uuid) ⟨file.body, now⟩ with
      | none => exact ⟨.refl, agrees.draw⟩
      | some copied =>
          have scratched := agrees.draw.placeScratch List.mem_cons_self new placed
          have body : ∀ f, copied.get (scratchFile uuid) = some f → f.body = file.body := by
            intro f held
            rw [Tree.get_place placed, if_pos rfl] at held
            cases held
            rfl
          obtain ⟨spares, outcome⟩ := land_spec now fails scratched visible body
          refine ⟨Spares.trans (.place placed fun other apart same => apart (scratchFile_injective same)) spares, ?_⟩
          dsimp only
          split <;> rename_i answer
          · rw [answer] at outcome
            exact ⟨file.body, agrees.object_of_get open_ there, outcome⟩
          · rw [answer] at outcome
            exact outcome

/-- A relocation of what is not a directory renames an object, or copies it, or leaves the objects as they were. -/
theorem relocatePath_spec (crosses : Bool) (agrees : Agrees t objects drawn landed) (new : uuid ∉ landed)
    (open_ : Tree.reserved (pathOf source) = false) (visible : Tree.Visible (pathOf target))
    (file_ : t.isDir (pathOf source) = false) :
    Spares uuid t (relocatePath t (pathOf source) (pathOf target) uuid now crosses fails).2 ∧
      match (relocatePath t (pathOf source) (pathOf target) uuid now crosses fails).1 with
      | .ok .renamed => ∃ body, objects.get source = some body ∧
          Agrees (relocatePath t (pathOf source) (pathOf target) uuid now crosses fails).2
            (if source = target then objects.put target body else (objects.put target body).delete source)
            (uuid :: drawn) landed
      | .ok .copied => ∃ body, objects.get source = some body ∧
          Agrees (relocatePath t (pathOf source) (pathOf target) uuid now crosses fails).2
            (objects.put target body) (uuid :: drawn) (uuid :: landed)
      | _ => Agrees (relocatePath t (pathOf source) (pathOf target) uuid now crosses fails).2 objects
          (uuid :: drawn) landed := by
  have copies := copyPath_spec now fails agrees new open_ visible
  rw [relocatePath]
  generalize copyPath t (pathOf source) (pathOf target) uuid now fails = copying at copies ⊢
  obtain ⟨answer, tree⟩ := copying
  dsimp only at copies ⊢
  split
  · exact ⟨.refl, agrees.draw⟩
  · cases there : t.get (pathOf source) with
    | none =>
        dsimp only
        rw [file_, if_neg Bool.false_ne_true]
        dsimp only
        by_cases before : (t.get (pathOf target)).isSome = true
        · rw [if_pos before]
          exact ⟨.refl, agrees.draw⟩
        · rw [if_neg before]
          exact ⟨.refl, agrees.draw⟩
    | some file =>
        have held := agrees.object_of_get open_ there
        dsimp only
        split
        · rename_i placed_ placed
          split at placed
          · cases placed
          · have spare : Spares uuid t placed_ := .place placed fun other _ same =>
              pathOf_ne_scratchFile visible.1 same.symm
            have drew : Agrees t objects (uuid :: drawn) landed := agrees.draw
            have put := drew.place visible placed
            dsimp only
            by_cases same : source = target
            · rw [if_pos (congrArg pathOf same)]
              refine ⟨spare, file.body, held, ?_⟩
              rw [if_pos same]
              exact put
            · rw [if_neg fun equal => same (pathOf_injective equal)]
              refine ⟨spare.trans .removeAll, file.body, held, ?_⟩
              rw [if_neg same]
              exact put.remove source
        · refine ⟨copies.1, ?_⟩
          cases answer with
          | error e => exact copies.2
          | ok _ => exact copies.2

end Landing

/-! ### Every step -/

/-- No target is named like a legacy part, and no relocation names a directory. -/
def Plain (s : Store) : Act → Prop
  | .commit i _ => ∀ w ∈ s.writers[i]?, Tree.isLegacyPart (pathOf w.key) = false
  | .copy _ target _ _ => Tree.isLegacyPart (pathOf target) = false
  | .relocate source target _ _ _ =>
      Tree.isLegacyPart (pathOf target) = false ∧ s.tree.isDir (pathOf source) = false
  | _ => True

structure Inv (s : Store) : Prop where
  agrees : Agrees s.tree s.objects s.drawn s.landed
  opened : ∀ w ∈ s.writers, w.uuid ∈ s.drawn ∧ w.uuid ∉ s.landed ∧ Tree.reserved (pathOf w.key) = false
  /-- What a writer was given is in its scratch file, as long as that is there. -/
  written : ∀ w ∈ s.writers, ∀ f, s.tree.get (scratchFile w.uuid) = some f → f.body = w.content
  apart : (s.writers.map Writer.uuid).Nodup
  past : ∀ uuid ∈ s.landed, uuid ∈ s.drawn

section Steps

variable {s s' : Store} {act : Act}

theorem inv_begin {now : Int} : Inv (begin_ now) :=
  ⟨.empty, nofun, nofun, .nil, nofun⟩

/-- A step that opens no writer: those that are left know what they knew, where the one scratch it writes is
none of theirs. -/
theorem Inv.others (inv : Inv s) {tree : Tree} {writers : List Writer} {drawn landed : List Text}
    {objects : Objects Bytes} (agrees : Agrees tree objects drawn landed) (fewer : writers.Sublist s.writers)
    (spares : Spares uuid s.tree tree) (mine : ∀ w ∈ writers, w.uuid ≠ uuid)
    (more : ∀ other ∈ s.drawn, other ∈ drawn) (lands : ∀ other ∈ landed, other = uuid ∨ other ∈ s.landed)
    (own : uuid ∈ landed → uuid ∈ drawn) :
    Inv { s with tree, writers, drawn, landed, objects } where
  agrees := agrees
  opened w mem := by
    obtain ⟨drew, fresh, open_⟩ := inv.opened w (fewer.mem mem)
    exact ⟨more _ drew, fun landed => (lands _ landed).elim (mine w mem) fresh, open_⟩
  written w mem f there := inv.written w (fewer.mem mem) f (spares w.uuid f (mine w mem) there)
  apart := inv.apart.sublist (fewer.map _)
  past other mem := by
    rcases lands other mem with rfl | old
    · exact own mem
    · exact more _ (inv.past other old)

theorem Inv.uuid_ne_of_ne (inv : Inv s) {i j : Nat} {w other : Writer} (there : s.writers[i]? = some w)
    (held : s.writers[j]? = some other) (apart : j ≠ i) : other.uuid ≠ w.uuid := by
  intro same
  have named : (s.writers.map Writer.uuid)[j]? = (s.writers.map Writer.uuid)[i]? := by
    rw [List.getElem?_map, List.getElem?_map, held, there, Option.map_some, Option.map_some, same]
  have within : j < (s.writers.map Writer.uuid).length := by
    rw [List.length_map]
    exact (List.getElem?_eq_some_iff.mp held).1
  exact apart ((List.getElem?_inj within inv.apart).mp named)

theorem Inv.eraseIdx_ne (inv : Inv s) {i : Nat} {w : Writer} (there : s.writers[i]? = some w) :
    ∀ other ∈ s.writers.eraseIdx i, other.uuid ≠ w.uuid := by
  intro other mem
  obtain ⟨j, apart, held⟩ := List.mem_eraseIdx_iff_getElem?.mp mem
  exact inv.uuid_ne_of_ne there held apart

theorem Inv.uuid_ne (inv : Inv s) (new : uuid ∉ s.drawn) : ∀ w ∈ s.writers, w.uuid ≠ uuid :=
  fun w mem same => new (same ▸ (inv.opened w mem).1)

theorem Inv.openWriter (inv : Inv s) (new : uuid ∉ s.drawn) : Inv (s.openWriter key uuid) := by
  rw [Store.openWriter]
  split
  · exact inv
  · rename_i path safe
    split
    · exact inv
    · rename_i tree placed
      have fresh : uuid ∉ s.landed := fun mem => new (inv.past uuid mem)
      have drew : Agrees s.tree s.objects (uuid :: s.drawn) s.landed := inv.agrees.draw
      refine ⟨drew.placeScratch List.mem_cons_self fresh placed, ?_, ?_, ?_, ?_⟩
      · intro w mem
        rcases List.mem_append.mp mem with old | own
        · obtain ⟨drew, fresh, open_⟩ := inv.opened w old
          exact ⟨List.mem_cons_of_mem _ drew, fresh, open_⟩
        · cases List.mem_singleton.mp own
          exact ⟨List.mem_cons_self, fresh, (safePath_eq_ok safe).2.2⟩
      · intro w mem f there
        dsimp only at there
        rw [Tree.get_place placed] at there
        rcases List.mem_append.mp mem with old | own
        · rw [if_neg fun same => inv.uuid_ne new w old (scratchFile_injective same)] at there
          exact inv.written w old f there
        · cases List.mem_singleton.mp own
          rw [if_pos rfl] at there
          cases there
          rfl
      · dsimp only
        rw [List.map_append, List.nodup_append]
        refine ⟨inv.apart, List.nodup_singleton _, fun a one b two same => ?_⟩
        obtain ⟨w, mem, rfl⟩ := List.mem_map.mp one
        exact inv.uuid_ne new w mem (same.trans (List.mem_singleton.mp two))
      · exact fun other mem => List.mem_cons_of_mem _ (inv.past other mem)

theorem Inv.write {i : Nat} {w : Writer} {chunk : Bytes} (inv : Inv s) (there : s.writers[i]? = some w) :
    Inv (s.write i w chunk) := by
  obtain ⟨drew, fresh, open_⟩ := inv.opened w (List.mem_of_getElem? there)
  have known : ∀ other ∈ s.writers.set i { w with content := w.content ++ chunk },
      other = { w with content := w.content ++ chunk } ∨ other ∈ s.writers ∧ other.uuid ≠ w.uuid := by
    intro other mem
    obtain ⟨j, held⟩ := List.mem_iff_getElem?.mp mem
    rw [List.getElem?_set] at held
    split at held
    · split at held
      · exact .inl (Option.some.inj held).symm
      · cases held
    · exact .inr ⟨List.mem_of_getElem? held, inv.uuid_ne_of_ne there held (Ne.symm ‹_›)⟩
  have uuids : (s.writers.set i { w with content := w.content ++ chunk }).map Writer.uuid =
      s.writers.map Writer.uuid := by
    refine List.ext_getElem? fun j => ?_
    rw [List.getElem?_map, List.getElem?_map, List.getElem?_set]
    split
    · rename_i own
      subst own
      rw [if_pos (List.getElem?_eq_some_iff.mp there).1, there]
      rfl
    · rfl
  have opened : ∀ other ∈ s.writers.set i { w with content := w.content ++ chunk },
      other.uuid ∈ s.drawn ∧ other.uuid ∉ s.landed ∧ Tree.reserved (pathOf other.key) = false := by
    intro other mem
    rcases known other mem with rfl | old
    · exact ⟨drew, fresh, open_⟩
    · exact inv.opened other old.1
  rw [Store.write]
  cases kept : (s.tree.get (scratchFile w.uuid)).bind fun _ =>
      s.tree.place (scratchFile w.uuid) ⟨w.content ++ chunk, s.now⟩ with
  | none =>
      refine ⟨inv.agrees, opened, fun other mem f held => ?_, uuids ▸ inv.apart, inv.past⟩
      rcases known other mem with rfl | old
      · -- a file that is there can be written
        rw [Option.getD_none] at held
        obtain ⟨tree, placed⟩ := Tree.place_of_get held (List.cons_ne_nil _ _) ⟨w.content ++ chunk, s.now⟩
        rw [held, Option.bind_some, placed] at kept
        cases kept
      · exact inv.written other old.1 f held
  | some tree =>
      obtain ⟨_, _, placed⟩ := Option.bind_eq_some_iff.mp kept
      refine ⟨inv.agrees.placeScratch drew fresh placed, opened, fun other mem f held => ?_, uuids ▸ inv.apart,
        inv.past⟩
      rw [Option.getD_some, Tree.get_place placed] at held
      rcases known other mem with rfl | old
      · rw [if_pos rfl] at held
        cases held
        rfl
      · rw [if_neg fun same => old.2 (scratchFile_injective same)] at held
        exact inv.written other old.1 f held

theorem Inv.copy {source target : Text} {fails : Bool} (inv : Inv s) (new : uuid ∉ s.drawn)
    (plain : Tree.isLegacyPart (pathOf target) = false) : Inv (s.copy source target uuid fails) := by
  rw [Store.copy]
  split
  · rename_i here there safe safe'
    obtain ⟨rfl, -, open_⟩ := safePath_eq_ok safe
    obtain ⟨rfl, -, open_'⟩ := safePath_eq_ok safe'
    have fresh : uuid ∉ s.landed := fun mem => new (inv.past uuid mem)
    obtain ⟨spares, outcome⟩ :=
      copyPath_spec s.now fails inv.agrees fresh open_ ⟨open_', plain⟩
    dsimp only
    generalize copyPath s.tree (pathOf source) (pathOf target) uuid s.now fails = copying at spares outcome ⊢
    obtain ⟨answer, tree⟩ := copying
    cases answer with
    | ok _ =>
        obtain ⟨body, held, agrees⟩ := outcome
        rw [held]
        exact inv.others agrees (List.Sublist.refl _) spares (inv.uuid_ne new) (fun _ => List.mem_cons_of_mem _)
          (fun _ => List.mem_cons.mp) fun _ => List.mem_cons_self
    | error e =>
        exact inv.others outcome (List.Sublist.refl _) spares (inv.uuid_ne new) (fun _ => List.mem_cons_of_mem _)
          (fun _ => .inr) fun _ => List.mem_cons_self
  · exact inv

theorem Inv.relocate {source target : Text} {crosses fails : Bool} (inv : Inv s) (new : uuid ∉ s.drawn)
    (plain : Tree.isLegacyPart (pathOf target) = false) (file_ : s.tree.isDir (pathOf source) = false) :
    Inv (s.relocate source target uuid crosses fails) := by
  rw [Store.relocate]
  split
  · rename_i here there safe safe'
    obtain ⟨rfl, -, open_⟩ := safePath_eq_ok safe
    obtain ⟨rfl, -, open_'⟩ := safePath_eq_ok safe'
    have fresh : uuid ∉ s.landed := fun mem => new (inv.past uuid mem)
    obtain ⟨spares, outcome⟩ := relocatePath_spec s.now fails crosses inv.agrees
      fresh open_ ⟨open_', plain⟩ file_
    dsimp only
    generalize relocatePath s.tree (pathOf source) (pathOf target) uuid s.now crosses fails = relocating
      at spares outcome ⊢
    obtain ⟨answer, tree⟩ := relocating
    cases answer with
    | ok ended =>
        cases ended with
        | renamed =>
            obtain ⟨body, held, agrees⟩ := outcome
            rw [held]
            exact inv.others agrees (List.Sublist.refl _) spares (inv.uuid_ne new)
              (fun _ => List.mem_cons_of_mem _) (fun _ => .inr) fun _ => List.mem_cons_self
        | copied =>
            obtain ⟨body, held, agrees⟩ := outcome
            rw [held]
            exact inv.others agrees (List.Sublist.refl _) spares (inv.uuid_ne new)
              (fun _ => List.mem_cons_of_mem _) (fun _ => List.mem_cons.mp) fun _ => List.mem_cons_self
        | before =>
            exact inv.others outcome (List.Sublist.refl _) spares (inv.uuid_ne new)
              (fun _ => List.mem_cons_of_mem _) (fun _ => .inr) fun _ => List.mem_cons_self
    | error e =>
        exact inv.others outcome (List.Sublist.refl _) spares (inv.uuid_ne new) (fun _ => List.mem_cons_of_mem _)
          (fun _ => .inr) fun _ => List.mem_cons_self
  · exact inv

theorem Inv.delete {fails : Bool} (inv : Inv s) : Inv (s.delete key fails) := by
  rw [Store.delete]
  split
  · exact inv
  · rename_i path safe
    split
    · exact inv
    · cases (safePath_eq_ok safe).1
      exact ⟨inv.agrees.remove key, inv.opened, fun w mem f there => inv.written w mem f (Tree.get_remove.mp there).2,
        inv.apart, inv.past⟩

theorem scratch_of_swept {olderThan : Nat} {now : Int} (inv : Inv s) (there : s.tree.get p = some f)
    (gone : (sweepAbandoned s.tree olderThan now).2.get p = none) :
    ∃ uuid ∈ s.drawn, uuid ∉ s.landed ∧ p = scratchFile uuid := by
  rcases inv.agrees.filed p f there with scratch | ⟨key, rfl, held⟩
  · exact scratch
  · obtain ⟨_, _, _, visible⟩ := inv.agrees.keyed key f.body held
    refine absurd gone (Option.ne_none_iff_exists'.mpr ⟨f, ?_⟩)
    refine Tree.get_removeAll.mpr ⟨fun mem => ?_, Tree.get_removeAll.mpr ⟨fun mem => ?_, there⟩⟩
    · obtain ⟨-, g, -, swept⟩ := Tree.of_mem_sweepDir mem
      exact Bool.false_ne_true (visible.2.symm.trans (swept.2 rfl))
    · obtain ⟨inside, -⟩ := Tree.of_mem_sweepDir mem
      have reserved : Tree.reserved (pathOf key) = true := by
        rw [Tree.reserved, Bool.or_eq_true, decide_eq_true_iff]
        exact .inl inside
      exact Bool.false_ne_true (visible.1.symm.trans reserved)

theorem Inv.sweep {olderThan : Nat} {now : Int} (inv : Inv s) :
    Inv { s with tree := (sweepAbandoned s.tree olderThan now).2 } := by
  have fewer : ∀ p f, (sweepAbandoned s.tree olderThan now).2.get p = some f → s.tree.get p = some f :=
    fun p f there => (Tree.get_removeAll.mp (Tree.get_removeAll.mp there).2).2
  refine ⟨⟨fun key body held => ?_, fun p f there => inv.agrees.filed p f (fewer p f there)⟩, inv.opened,
    fun w mem f there => inv.written w mem f (fewer _ f there), inv.apart, inv.past⟩
  obtain ⟨f, there, same, visible⟩ := inv.agrees.keyed key body held
  cases left : (sweepAbandoned s.tree olderThan now).2.get (pathOf key) with
  | none =>
      obtain ⟨_, _, _, same⟩ := scratch_of_swept inv there left
      exact absurd same (pathOf_ne_scratchFile visible.1)
  | some g =>
      obtain rfl := Option.some.inj ((fewer _ g left).symm.trans there)
      exact ⟨g, rfl, same, visible⟩

theorem Inv.step (inv : Inv s) (plain : Plain s act) (taken : step s act = some s') : Inv s' := by
  cases act with
  | clock now =>
      cases taken
      exact ⟨inv.agrees, inv.opened, inv.written, inv.apart, inv.past⟩
  | open_ key uuid =>
      rw [Fs.step] at taken
      split at taken
      · cases taken
      · rename_i new
        cases taken
        exact inv.openWriter new
  | write i chunk =>
      obtain ⟨w, there, rfl⟩ := Option.map_eq_some_iff.mp taken
      exact inv.write there
  | commit i fails =>
      obtain ⟨w, there, rfl⟩ := Option.map_eq_some_iff.mp taken
      obtain ⟨drew, fresh, open_⟩ := inv.opened w (List.mem_of_getElem? there)
      have landing := land_spec s.now fails inv.agrees ⟨open_, plain w there⟩
        (inv.written w (List.mem_of_getElem? there))
      rw [Store.commit]
      dsimp only
      generalize land s.tree (scratchFile w.uuid) (pathOf w.key) s.now fails = landed at landing ⊢
      obtain ⟨answer, tree⟩ := landed
      cases answer with
      | ok _ =>
          exact inv.others landing.2 (List.eraseIdx_sublist _ _) landing.1 (inv.eraseIdx_ne there) (fun _ mem => mem)
            (fun _ mem => List.mem_cons.mp mem) fun _ => drew
      | error e =>
          exact inv.others landing.2 (List.eraseIdx_sublist _ _) landing.1 (inv.eraseIdx_ne there) (fun _ mem => mem)
            (fun _ mem => .inr mem) fun _ => drew
  | drop i =>
      obtain ⟨w, there, rfl⟩ := Option.map_eq_some_iff.mp taken
      have removed : Agrees (s.tree.remove (scratchFile w.uuid)) s.objects s.drawn s.landed :=
        inv.agrees.removeScratch fun p mem => List.mem_singleton.mp mem ▸ reserved_scratchFile
      exact inv.others removed (List.eraseIdx_sublist _ _) .removeAll (inv.eraseIdx_ne there) (fun _ mem => mem)
        (fun _ mem => .inr mem) (inv.past _)
  | lose i =>
      obtain ⟨w, there, rfl⟩ := Option.map_eq_some_iff.mp taken
      exact inv.others inv.agrees (List.eraseIdx_sublist _ _) .refl (inv.eraseIdx_ne there) (fun _ mem => mem)
        (fun _ mem => .inr mem) (inv.past _)
  | copy source target uuid fails =>
      rw [Fs.step] at taken
      split at taken
      · cases taken
      · rename_i new
        cases taken
        exact inv.copy new plain
  | relocate source target uuid crosses fails =>
      rw [Fs.step] at taken
      split at taken
      · cases taken
      · rename_i new
        cases taken
        exact inv.relocate new plain.1 plain.2
  | delete key fails =>
      cases taken
      exact inv.delete
  | sweep olderThan now =>
      cases taken
      exact inv.sweep

end Steps

/-! ### What is listed and what is swept -/

/-- A listing shows the objects under its root, each once and with its size, and a sweep removes only scratch that
never landed. -/
structure Right (s : Store) : Prop where
  listed : ∀ root path, safePrefix root = .ok path → ∃ items, list s.tree root = .ok items ∧
    (items.map ObjectMeta.key).Nodup ∧
    ∀ key size, (∃ item ∈ items, item.key = key ∧ item.size = size) ↔
      Keys.under key root = true ∧ ∃ body, s.objects.get key = some body ∧ body.length = size
  swept : ∀ olderThan now p f, s.tree.get p = some f → (sweepAbandoned s.tree olderThan now).2.get p = none →
    ∃ uuid ∈ s.drawn, uuid ∉ s.landed ∧ p = scratchFile uuid

section Runs

variable {s : Store}

theorem Agrees.of_mem_walk (agrees : Agrees t objects drawn landed) {path : Path} (mem : (p, f) ∈ t.walk path) :
    ∃ key, p = pathOf key ∧ objects.get key = some f.body := by
  obtain ⟨there, -, visible⟩ := Tree.mem_walk.mp mem
  rcases agrees.filed p f there with ⟨uuid, _, _, rfl⟩ | named
  · exact absurd (visible.1.symm.trans reserved_scratchFile) Bool.false_ne_true
  · exact named

theorem Inv.right (inv : Inv s) : Right s where
  listed root path safe := by
    refine ⟨(s.tree.walk path).map objectMeta, ?_, ?_, fun key size => ?_⟩
    · rw [list, safe]
      rfl
    · rw [List.map_map]
      refine List.Nodup.map_on (fun one here two there same => ?_) (Tree.nodup_walk path)
      obtain ⟨key, named, -⟩ := inv.agrees.of_mem_walk here
      obtain ⟨other, named', -⟩ := inv.agrees.of_mem_walk there
      have paths : one.1 = two.1 := by
        rw [Function.comp_apply, Function.comp_apply, objectMeta, objectMeta, named, named', join_pathOf,
          join_pathOf] at same
        exact named.trans ((congrArg pathOf same).trans named'.symm)
      have held := (Tree.mem_walk.mp here).1
      rw [paths] at held
      exact Prod.ext paths (Option.some.inj (held.symm.trans (Tree.mem_walk.mp there).1))
    · constructor
      · rintro ⟨_, mem, rfl, rfl⟩
        obtain ⟨⟨p, f⟩, found, rfl⟩ := List.mem_map.mp mem
        obtain ⟨key, rfl, held⟩ := inv.agrees.of_mem_walk found
        have same : (objectMeta (pathOf key, f)).key = key := join_pathOf key
        rw [same]
        exact ⟨(safePrefix_eq_ok safe).mp (Tree.mem_walk.mp found).2.1, f.body, held, rfl⟩
      · rintro ⟨under, body, held, rfl⟩
        obtain ⟨f, there, rfl, visible⟩ := inv.agrees.keyed key body held
        have found := Tree.mem_walk.mpr ⟨there, (safePrefix_eq_ok safe).mpr under, visible⟩
        exact ⟨objectMeta (pathOf key, f), List.mem_map_of_mem found, join_pathOf key, rfl⟩
  swept _ _ _ _ there gone := scratch_of_swept inv there gone

/-- As long as nothing is committed, copied or relocated to a name like a legacy part's, and no directory is
relocated, what is listed is what was committed and not deleted, and what is swept never landed. -/
theorem listed_of_plain (now : Int) (acts : List Act)
    (run : Run step (fun u act _ => Plain u act) (begin_ now) acts s) : Right s := by
  refine (run.invariant Inv inv_begin ?_).right
  intro _ _ _ inv taken plain
  exact inv.step plain taken

/-! ### An object that is named like a legacy part -/

section Example

/-- A file is written in two chunks and committed, and another writer is left behind; a copy is made of the file,
it is relocated, and an hour later all that is old is swept. -/
def written (key : Text) : List Act :=
  [.open_ key "u1".toList, .write 0 [1, 2], .open_ key "u2".toList, .write 0 [3], .commit 0 false, .lose 0,
    .copy key (key ++ ".bak".toList) "u3".toList false, .relocate key ("moved/".toList ++ key) "u4".toList false false,
    .sweep 600 3600]

instance (s : Store) (act : Act) : Decidable (Plain s act) :=
  match act with
  | .clock _ => inferInstanceAs (Decidable True)
  | .open_ .. => inferInstanceAs (Decidable True)
  | .write .. => inferInstanceAs (Decidable True)
  | .commit i _ => inferInstanceAs (Decidable (∀ w ∈ s.writers[i]?, Tree.isLegacyPart (pathOf w.key) = false))
  | .drop _ => inferInstanceAs (Decidable True)
  | .lose _ => inferInstanceAs (Decidable True)
  | .copy .. => inferInstanceAs (Decidable (_ = _))
  | .relocate .. => inferInstanceAs (Decidable (_ ∧ _))
  | .delete .. => inferInstanceAs (Decidable True)
  | .sweep .. => inferInstanceAs (Decidable True)

theorem listed_of_written : ∃ s,
    Run step (fun u act _ => Plain u act) (begin_ 0) (written "npm/a-1.0.0.tgz".toList) s ∧ Right s := by
  obtain ⟨s, run, -⟩ := Run.of_test step (fun u act _ => Plain u act) (begin_ 0) (written "npm/a-1.0.0.tgz".toList)
    (fun _ => true) (by decide +kernel)
  exact ⟨s, run, listed_of_plain 0 _ run⟩

/-- A committed file whose name holds `.part-` is not listed. -/
theorem committed_not_listed : ¬∀ acts s, Run step Any (begin_ 0) acts s → Right s := by
  intro right
  obtain ⟨s, run, hidden⟩ := Run.of_test step Any (begin_ 0)
    [.open_ "raw/disk.part-1".toList "u1".toList, .write 0 [1], .commit 0 false]
    (fun s => decide (s.objects.get "raw/disk.part-1".toList = some [1]) && decide (list s.tree [] = .ok []))
    (by decide +kernel)
  obtain ⟨held, empty⟩ := Bool.and_eq_true_iff.mp hidden
  obtain ⟨items, listed, -, all⟩ := (right _ s run).listed [] [] rfl
  rw [of_decide_eq_true empty] at listed
  cases listed
  obtain ⟨_, mem, -⟩ := (all "raw/disk.part-1".toList 1).mpr ⟨rfl, [1], of_decide_eq_true held, rfl⟩
  cases mem

end Example

end Runs

end OpenCargo.Fs
