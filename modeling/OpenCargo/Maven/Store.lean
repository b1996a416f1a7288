/-
Module: OpenCargo.Maven.Store
Purpose: The Maven tables (migration 024) and the transactions over them
  (`adapters/sqlite/maven.rs`). A row of `maven_units` carries the value it is joined with. The
  reclamation tables, as a transaction finds them, are an argument.
Trusted boundary: none
Main exports: Advanced, apply_spec, apply_counters, refuseUnit_spec
-/
import OpenCargo.Lib.Rows
import OpenCargo.Maven.Rules
import OpenCargo.Reclaim.Store

namespace OpenCargo.Maven

open OpenCargo.Lib (updateAt upsert)
open OpenCargo.Reclaim (PinToken)

/-! ### The rows -/

/-- `maven_units`, joined with its `maven_values`. -/
structure UnitRow where
  id : Nat
  key : UnitKey
  revision : Int
  depositor : Text
  contested : Bool
  refused : Bool
  visibleAt : Option Int
  createdAt : Int
deriving Repr, DecidableEq, Inhabited

/-- `maven_files`. -/
structure FileRow where
  unitId : Nat
  filename : Text
  physicalKey : Text
  size : Int
  digests : Digests
  depositor : Text
  createdAt : Int
deriving Repr, DecidableEq, Inhabited

/-- `UNIQUE(unit_id, filename)`. -/
def FileRow.slot (row : FileRow) : Nat × Text := (row.unitId, row.filename)

/-- `maven_declarations`. The column `algorithm` holds `as_str`, which `parse` reads back. -/
structure DeclarationRow where
  unitId : Nat
  filename : Text
  algorithm : SumAlgorithm
  value : Text
  createdAt : Int
deriving Repr, DecidableEq, Inhabited

/-- `PRIMARY KEY (unit_id, filename, algorithm)`. -/
def DeclarationRow.slot (row : DeclarationRow) : Nat × Text × SumAlgorithm :=
  (row.unitId, row.filename, row.algorithm)

/-- `maven_counters`. -/
structure CounterRow where
  repository : Int
  scope : Text
  counter : Nat
  updatedAt : Int
deriving Repr, DecidableEq, Inhabited

def CounterRow.slot (row : CounterRow) : Int × Text := (row.repository, row.scope)

structure Tables where
  units : List UnitRow
  files : List FileRow
  declarations : List DeclarationRow
  counters : List CounterRow
deriving Repr, DecidableEq, Inhabited

/-! ### What a unit is read as -/

/-- `file_of`. -/
def FileRow.stored (row : FileRow) : StoredFile where
  filename := row.filename
  physicalKey := row.physicalKey
  size := row.size
  digests := row.digests
  depositor := row.depositor
  createdAt := readTs row.createdAt

def DeclarationRow.declaration (row : DeclarationRow) : Declaration :=
  ⟨row.filename, row.algorithm, row.value⟩

/-- What `unit` makes of its three statements. -/
def UnitRow.unit (row : UnitRow) (files : List StoredFile) (declarations : List Declaration) :
    Unit where
  version := row.key.version
  build := row.key.build
  revision := row.revision
  depositor := row.depositor
  contested := row.contested
  refused := row.refused
  visibleAt := row.visibleAt.map readTs
  createdAt := readTs row.createdAt
  files := files
  declarations := declarations

namespace Tables

def unitRow (tables : Tables) (key : UnitKey) : Option UnitRow :=
  tables.units.find? fun row => row.key == key

/-- `files_of`, for one unit. -/
def filesOf (tables : Tables) (unit : Nat) : List StoredFile :=
  ((tables.files.filter fun row => row.unitId == unit).insertionSort fun a b =>
    a.filename ≤ b.filename).map FileRow.stored

/-- The statement of `unit` that reads the declarations. -/
def declarationsOf (tables : Tables) (unit : Nat) : List Declaration :=
  ((tables.declarations.filter fun row => row.unitId == unit).insertionSort fun a b =>
    a.filename < b.filename ∨
      (a.filename = b.filename ∧ a.algorithm.asStr ≤ b.algorithm.asStr)).map
    DeclarationRow.declaration

/-- `MavenFileStore::unit`, when nothing happens between its statements. -/
def unit (tables : Tables) (key : UnitKey) : Option Unit :=
  (tables.unitRow key).map fun row =>
    row.unit (tables.filesOf row.id) (tables.declarationsOf row.id)

end Tables

/-! ### The transactions -/

structure NewFile where
  filename : Text
  physicalKey : Text
  size : Int
  digests : Digests
  depositor : Text
deriving Repr, DecidableEq, Inhabited

def NewFile.row (file : NewFile) (unit : Nat) (now : Instant) : FileRow where
  unitId := unit
  filename := file.filename
  physicalKey := file.physicalKey
  size := file.size
  digests := file.digests
  depositor := file.depositor
  createdAt := bindTs now

/-- One compare-and-set on a unit. -/
structure UnitChange where
  key : UnitKey
  /-- The revision the change was decided on; `none` creates the unit. -/
  revision : Option Int
  /-- The first depositor, recorded when the change creates the unit. -/
  depositor : Text
  file : Option NewFile
  declarations : List Declaration
  contest : Bool
  reveal : Bool
  scopes : List Text
  pins : List PinToken
  now : Instant
deriving Repr, DecidableEq, Inhabited

/-- `INSERT INTO maven_units`: the columns it does not name have their defaults. -/
def UnitChange.row (change : UnitChange) (id : Nat) : UnitRow where
  id := id
  key := change.key
  revision := 1
  depositor := change.depositor
  contested := false
  refused := false
  visibleAt := none
  createdAt := bindTs change.now

structure Changed where
  revision : Int
  /-- Keys no row references any more, enqueued in the change's transaction. -/
  released : List Text
deriving Repr, DecidableEq, Inhabited

namespace Tables

/-- `UPDATE maven_units SET … WHERE id = ?1`. -/
def onUnit (tables : Tables) (unit : Nat) (f : UnitRow → UnitRow) : Tables :=
  { tables with units := updateAt UnitRow.id unit f tables.units }

/-- The rowid an `INTEGER PRIMARY KEY` is given. -/
def nextId (tables : Tables) : Nat := (tables.units.map UnitRow.id).foldr max 0 + 1

/-- The unit the change applies to, at its next revision; `none` when the revision it was decided on is
gone. -/
def advance (tables : Tables) (change : UnitChange) : Option (Nat × Int × Tables) :=
  match change.revision with
  | none =>
      if tables.units.any fun row => row.key == change.key then none
      else
        some (tables.nextId, 1,
          { tables with units := tables.units ++ [change.row tables.nextId] })
  | some revision =>
      match tables.unitRow change.key with
      | none => none
      | some row =>
          if row.revision = revision then
            some (row.id, revision + 1,
              tables.onUnit row.id fun r => { r with revision := r.revision + 1 })
          else none

/-- The declarations about a file of the unit go. -/
def forgetDeclared (tables : Tables) (unit : Nat) (filename : Text) : Tables :=
  { tables with
    declarations := tables.declarations.filter fun row =>
      !(row.unitId == unit && row.filename == filename) }

/-- The file inserted or replaced; the replaced key, when it is another one. -/
def putFile (tables : Tables) (unit : Nat) (change : UnitChange) : List Text × Tables :=
  match change.file with
  | none => ([], tables)
  | some file =>
      let old := (tables.files.find? fun row =>
        row.unitId == unit && row.filename == file.filename).map FileRow.physicalKey
      let kept := if old.isSome then tables.forgetDeclared unit file.filename else tables
      let row := file.row unit change.now
      (old.toList.filter (· != file.physicalKey),
        { kept with files := upsert FileRow.slot (fun _ => row) row kept.files })

/-- `INSERT INTO maven_declarations … ON CONFLICT … DO UPDATE SET value`. -/
def declare (unit : Nat) (now : Instant) (tables : Tables) (d : Declaration) : Tables :=
  let row : DeclarationRow := ⟨unit, d.filename, d.algorithm, d.value, bindTs now⟩
  { tables with
    declarations := upsert DeclarationRow.slot (fun r => { r with value := d.value }) row
      tables.declarations }

def bump (tables : Tables) (repository : Int) (scopes : List Text) (now : Instant) : Tables :=
  { tables with
    counters := scopes.foldl (fun counters scope =>
      upsert CounterRow.slot
        (fun r => { r with counter := r.counter + 1, updatedAt := bindTs now })
        ⟨repository, scope, 1, bindTs now⟩ counters) tables.counters }

/-- `contested = 1`. -/
def markContested (tables : Tables) (unit : Nat) : Tables :=
  tables.onUnit unit fun r => { r with contested := true }

/-- `visible_at = ?2 … AND visible_at IS NULL`. -/
def markVisible (tables : Tables) (unit : Nat) (now : Instant) : Tables :=
  tables.onUnit unit fun r => { r with visibleAt := some (r.visibleAt.getD (bindTs now)) }

def mark (tables : Tables) (unit : Nat) (change : UnitChange) : Tables :=
  let contested := if change.contest then tables.markContested unit else tables
  if change.reveal then contested.markVisible unit change.now else contested

/-- `apply`; an error rolls the transaction back. -/
def apply (tables : Tables) (reclaim : Reclaim.Tables) (change : UnitChange) :
    Except StoreError (Changed × Reclaim.Tables × Tables) :=
  match reclaim.spendPins change.pins with
  | .error revoked => .error (.superseded revoked)
  | .ok reclaim =>
      match tables.advance change with
      | none => .error .conflict
      | some (unit, revision, advanced) =>
          let (released, put) := advanced.putFile unit change
          let declared := change.declarations.foldl (declare unit change.now) put
          .ok (⟨revision, released⟩, reclaim.enqueueKeys released change.now,
            (declared.mark unit change).bump change.key.repository change.scopes change.now)

/-- `revision = revision + 1, refused = 1`. -/
def markRefused (tables : Tables) (unit : Nat) : Tables :=
  tables.onUnit unit fun r => { r with revision := r.revision + 1, refused := true }

/-- `DELETE FROM … WHERE unit_id = ?1`, for the files and the declarations. -/
def emptied (tables : Tables) (unit : Nat) : Tables :=
  { tables with
    files := tables.files.filter fun row => row.unitId != unit
    declarations := tables.declarations.filter fun row => row.unitId != unit }

/-- `refuse_unit`. -/
def refuseUnit (tables : Tables) (reclaim : Reclaim.Tables) (key : UnitKey) (revision : Int)
    (scopes : List Text) (now : Instant) : Except StoreError (Changed × Reclaim.Tables × Tables) :=
  match tables.unitRow key with
  | none => .error .notFound
  | some row =>
      if row.revision ≠ revision then .error .conflict
      else
        let released := (tables.filesOf row.id).map StoredFile.physicalKey
        .ok (⟨revision + 1, released⟩, reclaim.enqueueKeys released now,
          ((tables.markRefused row.id).emptied row.id).bump key.repository scopes now)

end Tables

/-! ### The keys of the tables -/

/-- What the schema keeps: ids and keys name one unit, a file is one of its unit's under its name, and
a file or a declaration is of a unit that is there. -/
structure Sound (tables : Tables) : Prop where
  ids : (tables.units.map UnitRow.id).Nodup
  keys : (tables.units.map UnitRow.key).Nodup
  slots : (tables.files.map FileRow.slot).Nodup
  files : ∀ row ∈ tables.files, row.unitId ∈ tables.units.map UnitRow.id
  declarations : ∀ row ∈ tables.declarations, row.unitId ∈ tables.units.map UnitRow.id

section Views

variable {tables : Tables} {key : UnitKey} {row : UnitRow} {unit : Nat} {filename : Text}

theorem mem_of_unitRow (found : tables.unitRow key = some row) :
    row ∈ tables.units ∧ row.key = key :=
  ⟨List.mem_of_find?_eq_some found, by simpa using List.find?_some found⟩

theorem mem_filesOf {f : StoredFile} :
    f ∈ tables.filesOf unit ↔ ∃ row ∈ tables.files, row.unitId = unit ∧ row.stored = f := by
  simp only [Tables.filesOf, List.mem_map, List.mem_insertionSort, List.mem_filter, beq_iff_eq]
  constructor
  · rintro ⟨row, ⟨mem, own⟩, same⟩
    exact ⟨row, mem, own, same⟩
  · rintro ⟨row, mem, own, same⟩
    exact ⟨row, ⟨mem, own⟩, same⟩

theorem mem_declarationsOf {d : Declaration} :
    d ∈ tables.declarationsOf unit ↔
      ∃ row ∈ tables.declarations, row.unitId = unit ∧ row.declaration = d := by
  simp only [Tables.declarationsOf, List.mem_map, List.mem_insertionSort, List.mem_filter,
    beq_iff_eq]
  constructor
  · rintro ⟨row, ⟨mem, own⟩, same⟩
    exact ⟨row, mem, own, same⟩
  · rintro ⟨row, mem, own, same⟩
    exact ⟨row, ⟨mem, own⟩, same⟩

theorem Sound.file_iff (sound : Sound tables) {declarations : List Declaration} {f : StoredFile} :
    (row.unit (tables.filesOf row.id) declarations).file filename = some f ↔
      ∃ r ∈ tables.files, r.unitId = row.id ∧ r.filename = filename ∧ r.stored = f := by
  constructor
  · intro found
    have ⟨mem, named⟩ := mem_of_file found
    have ⟨r, held, own, same⟩ := mem_filesOf.mp mem
    exact ⟨r, held, own, by rw [← named, ← same]; rfl, same⟩
  · rintro ⟨r, held, own, named, same⟩
    have here : f ∈ tables.filesOf row.id := mem_filesOf.mpr ⟨r, held, own, same⟩
    have called : f.filename = filename := by rw [← same]; exact named
    cases found : (row.unit (tables.filesOf row.id) declarations).file filename with
    | none => exact absurd called (by simpa using List.find?_eq_none.mp found f here)
    | some g =>
        have ⟨mem, named'⟩ := mem_of_file found
        have ⟨r', held', own', same'⟩ := mem_filesOf.mp mem
        have slot : r'.slot = r.slot := by
          have name' : r'.filename = filename := by rw [← named', ← same']; rfl
          simp [FileRow.slot, own, own', named, name']
        have one : r' = r := List.inj_on_of_nodup_map sound.slots held' held slot
        rw [← same', one, same]

theorem Sound.file_of_mem (sound : Sound tables) {read : Unit} {f : StoredFile}
    (found : tables.unit key = some read) (mem : f ∈ read.files) :
    read.file f.filename = some f := by
  simp only [Tables.unit, Option.map_eq_some_iff] at found
  obtain ⟨row, _, rfl⟩ := found
  have ⟨r, held, own, same⟩ := mem_filesOf.mp mem
  exact sound.file_iff.mpr ⟨r, held, own, by rw [← same]; rfl, same⟩

theorem Sound.id_ne (sound : Sound tables) {other : UnitKey} {row' : UnitRow}
    (found : tables.unitRow key = some row) (found' : tables.unitRow other = some row')
    (apart : key ≠ other) : row.id ≠ row'.id := by
  intro same
  have ⟨mem, keyed⟩ := mem_of_unitRow found
  have ⟨mem', keyed'⟩ := mem_of_unitRow found'
  have one : row = row' := List.inj_on_of_nodup_map sound.ids mem mem' same
  exact apart (by rw [← keyed, ← keyed', one])

end Views

/-! ### What an operation on one unit leaves alone -/

/-- `t` is `s` but for what is of the unit. -/
structure Outside (unit : Nat) (s t : Tables) : Prop where
  rows : ∀ key, (∀ row, s.unitRow key = some row → row.id ≠ unit) → t.unitRow key = s.unitRow key
  files : ∀ id, id ≠ unit → t.filesOf id = s.filesOf id
  declarations : ∀ id, id ≠ unit → t.declarationsOf id = s.declarationsOf id

namespace Outside

variable {unit : Nat} {s t u : Tables}

theorem refl : Outside unit s s := ⟨fun _ _ => rfl, fun _ _ => rfl, fun _ _ => rfl⟩

theorem trans (first : Outside unit s t) (second : Outside unit t u) : Outside unit s u where
  rows key apart := by
    have same := first.rows key apart
    rw [second.rows key (same ▸ apart), same]
  files id other := (second.files id other).trans (first.files id other)
  declarations id other := (second.declarations id other).trans (first.declarations id other)

theorem onUnit {f : UnitRow → UnitRow} (keeps : ∀ row, (f row).key = row.key) :
    Outside unit s (s.onUnit unit f) where
  rows key apart := by
    simp only [Tables.unitRow, Tables.onUnit]
    rw [Lib.find?_updateAt fun row _ => by rw [keeps]]
    cases found : s.units.find? fun row => row.key == key with
    | none => rfl
    | some row => simp [apart row found]
  files _ _ := rfl
  declarations _ _ := rfl

theorem bump {repository : Int} {scopes : List Text} {now : Instant} :
    Outside unit s (s.bump repository scopes now) :=
  ⟨fun _ _ => rfl, fun _ _ => rfl, fun _ _ => rfl⟩

theorem filter_apart {α : Type} {rows : List α} (owner : α → Nat) {id : Nat} {p : α → Bool}
    (drops : ∀ row, p row = false → owner row = unit) (other : id ≠ unit) :
    (rows.filter p).filter (fun row => owner row == id) = rows.filter fun row => owner row == id := by
  rw [List.filter_filter]
  apply List.filter_congr
  intro row _
  cases dropped : p row with
  | true => simp
  | false =>
      have own := drops row dropped
      simp [own, other.symm]

theorem forgetDeclared {filename : Text} : Outside unit s (s.forgetDeclared unit filename) where
  rows _ _ := rfl
  files _ _ := rfl
  declarations id other := by
    simp only [Tables.declarationsOf, Tables.forgetDeclared]
    rw [filter_apart DeclarationRow.unitId (fun row dropped => ?_) other]
    simp only [Bool.not_eq_false', Bool.and_eq_true, beq_iff_eq] at dropped
    exact dropped.1

theorem putFile {change : UnitChange} : Outside unit s (s.putFile unit change).2 := by
  cases file : change.file with
  | none =>
      simp only [Tables.putFile, file]
      exact refl
  | some new =>
      simp only [Tables.putFile, file]
      have kept : Outside unit s
          (if ((s.files.find? fun row => row.unitId == unit && row.filename == new.filename).map
            FileRow.physicalKey).isSome = true then s.forgetDeclared unit new.filename else s) := by
        split
        · exact forgetDeclared
        · exact refl
      apply kept.trans
      refine ⟨fun _ _ => rfl, fun id other => ?_, fun _ _ => rfl⟩
      simp only [Tables.filesOf]
      rw [Lib.filter_upsert]
      · simpa [NewFile.row] using other.symm
      · intro row same
        have own : row.unitId = unit := congrArg Prod.fst same
        simp [own, NewFile.row, other.symm]

theorem declare {now : Instant} {d : Declaration} :
    Outside unit s (Tables.declare unit now s d) where
  rows _ _ := rfl
  files _ _ := rfl
  declarations id other := by
    simp only [Tables.declarationsOf, Tables.declare]
    rw [Lib.filter_upsert]
    · simpa using other.symm
    · intro row same
      have own : row.unitId = unit := congrArg Prod.fst same
      simp [own, other.symm]

theorem emptied : Outside unit s (s.emptied unit) where
  rows _ _ := rfl
  files id other := by
    simp only [Tables.filesOf, Tables.emptied]
    rw [filter_apart FileRow.unitId (by simp) other]
  declarations id other := by
    simp only [Tables.declarationsOf, Tables.emptied]
    rw [filter_apart DeclarationRow.unitId (by simp) other]

theorem mark {change : UnitChange} : Outside unit s (s.mark unit change) := by
  simp only [Tables.mark, Tables.markContested, Tables.markVisible]
  split <;> split
  · have contested : Outside unit s (s.markContested unit) := onUnit fun _ => rfl
    exact contested.trans (onUnit fun _ => rfl)
  · exact onUnit fun _ => rfl
  · exact onUnit fun _ => rfl
  · exact refl

theorem declareAll {now : Instant} {ds : List Declaration} :
    Outside unit s (ds.foldl (Tables.declare unit now) s) := by
  induction ds generalizing s with
  | nil => exact refl
  | cons d ds ih => exact declare.trans ih

end Outside

/-! ### The transactions keep the keys -/

namespace Sound

variable {tables : Tables} {unit : Nat}

theorem onUnit {f : UnitRow → UnitRow} (sound : Sound tables) (id : ∀ row, (f row).id = row.id)
    (key : ∀ row, (f row).key = row.key) : Sound (tables.onUnit unit f) where
  ids := by
    rw [Tables.onUnit, Lib.map_updateAt fun row _ => id row]
    exact sound.ids
  keys := by
    rw [Tables.onUnit, Lib.map_updateAt fun row _ => key row]
    exact sound.keys
  slots := sound.slots
  files row mem := by
    rw [Tables.onUnit, Lib.map_updateAt fun row _ => id row]
    exact sound.files row mem
  declarations row mem := by
    rw [Tables.onUnit, Lib.map_updateAt fun row _ => id row]
    exact sound.declarations row mem

theorem bump {repository : Int} {scopes : List Text} {now : Instant} (sound : Sound tables) :
    Sound (tables.bump repository scopes now) :=
  ⟨sound.ids, sound.keys, sound.slots, sound.files, sound.declarations⟩

theorem forgetDeclared {filename : Text} (sound : Sound tables) :
    Sound (tables.forgetDeclared unit filename) :=
  ⟨sound.ids, sound.keys, sound.slots, sound.files, fun row mem =>
    sound.declarations row (List.mem_of_mem_filter mem)⟩

theorem putFile {change : UnitChange} (sound : Sound tables)
    (here : unit ∈ tables.units.map UnitRow.id) : Sound (tables.putFile unit change).2 := by
  cases file : change.file with
  | none =>
      simp only [Tables.putFile, file]
      exact sound
  | some new =>
      simp only [Tables.putFile, file]
      have upserts : ∀ kept : Tables, Sound kept → kept.units = tables.units →
          Sound { kept with
            files := upsert FileRow.slot (fun _ => new.row unit change.now)
              (new.row unit change.now) kept.files } := by
        intro kept sound units
        refine ⟨sound.ids, sound.keys, ?_, ?_, sound.declarations⟩
        · exact Lib.nodup_upsert (fun _ same => same.symm) sound.slots
        · intro row mem
          rcases Lib.mem_upsert_over.mp mem with rfl | ⟨old, _⟩
          · exact units ▸ here
          · exact sound.files row old
      split
      · exact upserts _ sound.forgetDeclared rfl
      · exact upserts _ sound rfl

theorem declare {now : Instant} {d : Declaration} (sound : Sound tables)
    (here : unit ∈ tables.units.map UnitRow.id) : Sound (Tables.declare unit now tables d) := by
  refine ⟨sound.ids, sound.keys, sound.slots, sound.files, fun row mem => ?_⟩
  rcases Lib.mem_upsert.mp mem with ⟨old, _⟩ | ⟨merged, held, _, rfl⟩ | ⟨_, rfl⟩
  · exact sound.declarations row old
  · exact sound.declarations merged held
  · exact here

theorem emptied (sound : Sound tables) : Sound (tables.emptied unit) where
  ids := sound.ids
  keys := sound.keys
  slots := sound.slots.sublist (List.filter_sublist.map _)
  files row mem := sound.files row (List.mem_of_mem_filter mem)
  declarations row mem := sound.declarations row (List.mem_of_mem_filter mem)

theorem mark {change : UnitChange} (sound : Sound tables) : Sound (tables.mark unit change) := by
  simp only [Tables.mark, Tables.markContested, Tables.markVisible]
  split <;> split
  · have contested : Sound (tables.markContested unit) :=
      sound.onUnit (fun _ => rfl) fun _ => rfl
    exact contested.onUnit (fun _ => rfl) fun _ => rfl
  · exact sound.onUnit (fun _ => rfl) fun _ => rfl
  · exact sound.onUnit (fun _ => rfl) fun _ => rfl
  · exact sound

theorem declareAll {now : Instant} {ds : List Declaration} (sound : Sound tables)
    (here : unit ∈ tables.units.map UnitRow.id) :
    Sound (ds.foldl (Tables.declare unit now) tables) := by
  induction ds generalizing tables with
  | nil => exact sound
  | cons d ds ih => exact ih (sound.declare here) here

end Sound

/-! ### What a change does -/

/-- The file a change stores, as it is read back. -/
def NewFile.stored (file : NewFile) (now : Instant) : StoredFile where
  filename := file.filename
  physicalKey := file.physicalKey
  size := file.size
  digests := file.digests
  depositor := file.depositor
  createdAt := readTs (bindTs now)

/-- What a change makes of the unit it was decided on. -/
structure Advanced (change : UnitChange) (before : Option Unit) (after : Unit) : Prop where
  decided : before.map Unit.revision = change.revision
  revision : after.revision = before.elim 1 (·.revision + 1)
  depositor : after.depositor = before.elim change.depositor Unit.depositor
  contested : after.contested = (before.any Unit.contested || change.contest)
  refused : after.refused = before.any Unit.refused
  visibleAt : after.visibleAt.isSome =
    (before.any (fun unit => unit.visibleAt.isSome) || change.reveal)
  file : ∀ name f, after.file name = some f ↔
    (∃ new, change.file = some new ∧ new.filename = name ∧ new.stored change.now = f) ∨
      ((∀ new, change.file = some new → new.filename ≠ name) ∧
        ∃ unit, before = some unit ∧ unit.file name = some f)
  declared : ∀ d ∈ after.declarations, d ∈ change.declarations ∨
    ∃ unit, before = some unit ∧ d ∈ unit.declarations ∧
      ∀ new, change.file = some new → new.filename = d.filename → unit.file d.filename = none

/-- One unit, as its rows. -/
structure Held where
  row : UnitRow
  files : List StoredFile
  declarations : List Declaration
deriving Repr, DecidableEq, Inhabited

def Held.unit (held : Held) : Unit := held.row.unit held.files held.declarations

def Tables.held (tables : Tables) (key : UnitKey) : Option Held :=
  (tables.unitRow key).map fun row => ⟨row, tables.filesOf row.id, tables.declarationsOf row.id⟩

theorem unit_eq_held {tables : Tables} {key : UnitKey} :
    tables.unit key = (tables.held key).map Held.unit := by
  simp only [Tables.unit, Tables.held, Option.map_map]
  rfl

section Specs

variable {s t : Tables} {change : UnitChange} {unit : Nat} {revision : Int} {key : UnitKey}
  {row : UnitRow}

theorem unitRow_onUnit {f : UnitRow → UnitRow} (keeps : ∀ row, (f row).key = row.key)
    (found : s.unitRow key = some row) (own : row.id = unit) :
    (s.onUnit unit f).unitRow key = some (f row) := by
  simp only [Tables.unitRow, Tables.onUnit] at found ⊢
  rw [Lib.find?_updateAt fun row _ => by rw [keeps], found]
  simp [own]

theorem lt_nextId {id : Nat} (mem : id ∈ s.units.map UnitRow.id) : id < s.nextId := by
  have below : ∀ ids : List Nat, id ∈ ids → id ≤ ids.foldr max 0 := by
    intro ids mem
    induction ids with
    | nil => cases mem
    | cons n ids ih =>
        rcases List.mem_cons.mp mem with rfl | later
        · exact Nat.le_max_left ..
        · exact (ih later).trans (Nat.le_max_right ..)
  exact Nat.lt_succ_of_le (below _ mem)

/-- Where a change starts from: the unit's row at its next revision, and what it was before. -/
structure Begun (change : UnitChange) (s t : Tables) (row : UnitRow) : Prop where
  sound : Sound t
  files : t.files = s.files
  declarations : t.declarations = s.declarations
  others : ∀ key, key ≠ change.key → t.unitRow key = s.unitRow key
  found : t.unitRow change.key = some row
  old : (s.unitRow change.key = none ∧ change.revision = none ∧
      (∀ r ∈ s.files, r.unitId ≠ row.id) ∧ (∀ r ∈ s.declarations, r.unitId ≠ row.id) ∧
      row = change.row row.id) ∨
    ∃ old, s.unitRow change.key = some old ∧ change.revision = some old.revision ∧
      row = { old with revision := old.revision + 1 }

theorem advance_spec (sound : Sound s) (advanced : s.advance change = some (unit, revision, t)) :
    ∃ row, row.id = unit ∧ Begun change s t row := by
  cases decided : change.revision with
  | none =>
      simp only [Tables.advance, decided] at advanced
      split at advanced
      · cases advanced
      · rename_i untaken
        have free : ∀ row ∈ s.units, row.key ≠ change.key := by simpa using untaken
        have absent : s.unitRow change.key = none := by
          simpa [Tables.unitRow] using free
        cases advanced
        have fresh : ∀ id ∈ s.units.map UnitRow.id, id ≠ (change.row s.nextId).id :=
          fun id mem => (lt_nextId mem).ne
        refine ⟨change.row s.nextId, rfl, ?_⟩
        refine
          { sound := ⟨?_, ?_, sound.slots, ?_, ?_⟩
            files := rfl
            declarations := rfl
            others := ?_
            found := ?_
            old := .inl ⟨absent, decided, ?_, ?_, rfl⟩ }
        · rw [List.map_append, List.nodup_append]
          refine ⟨sound.ids, by simp, fun id mem other new => ?_⟩
          cases List.mem_singleton.mp new
          exact fresh id mem
        · rw [List.map_append, List.nodup_append]
          refine ⟨sound.keys, by simp, fun key mem other new => ?_⟩
          cases List.mem_singleton.mp new
          have ⟨row, held, same⟩ := List.mem_map.mp mem
          exact same ▸ free row held
        · intro row mem
          rw [List.map_append]
          exact List.mem_append_left _ (sound.files row mem)
        · intro row mem
          rw [List.map_append]
          exact List.mem_append_left _ (sound.declarations row mem)
        · intro key other
          simp only [Tables.unitRow, List.find?_append]
          have skipped : (change.row s.nextId).key ≠ key := other.symm
          simp [skipped]
        · simp only [Tables.unitRow] at absent ⊢
          rw [List.find?_append, absent]
          simp [UnitChange.row]
        · exact fun r mem => fresh r.unitId (sound.files r mem)
        · exact fun r mem => fresh r.unitId (sound.declarations r mem)
  | some judged =>
      simp only [Tables.advance, decided] at advanced
      cases found : s.unitRow change.key with
      | none => simp [found] at advanced
      | some old =>
          simp only [found] at advanced
          split at advanced
          · rename_i same
            cases advanced
            have outside : Outside old.id s
                (s.onUnit old.id fun r => { r with revision := r.revision + 1 }) :=
              Outside.onUnit fun _ => rfl
            refine ⟨{ old with revision := old.revision + 1 }, rfl, ?_⟩
            refine
              { sound := sound.onUnit (fun _ => rfl) fun _ => rfl
                files := rfl
                declarations := rfl
                others := ?_
                found := unitRow_onUnit (fun _ => rfl) found rfl
                old := .inr ⟨old, found, by rw [decided, same], rfl⟩ }
            intro key other
            exact outside.rows key fun row here => sound.id_ne here found other
          · cases advanced

theorem mem_putFile {r : FileRow} :
    r ∈ (s.putFile unit change).2.files ↔
      (∃ new, change.file = some new ∧ r = new.row unit change.now) ∨
        (r ∈ s.files ∧ ∀ new, change.file = some new →
          ¬(r.unitId = unit ∧ r.filename = new.filename)) := by
  cases file : change.file with
  | none => simp [Tables.putFile, file]
  | some new =>
      have files : (s.putFile unit change).2.files =
          upsert FileRow.slot (fun _ => new.row unit change.now) (new.row unit change.now)
            s.files := by
        simp only [Tables.putFile, file]
        split <;> rfl
      rw [files, Lib.mem_upsert_over]
      simp [FileRow.slot, NewFile.row]

theorem mem_putFile_declarations {r : DeclarationRow}
    (mem : r ∈ (s.putFile unit change).2.declarations) :
    r ∈ s.declarations ∧ ∀ new, change.file = some new → r.unitId = unit →
      r.filename = new.filename → ∀ f ∈ s.files, f.unitId = unit → f.filename ≠ new.filename := by
  cases file : change.file with
  | none =>
      simp only [Tables.putFile, file] at mem
      exact ⟨mem, by simp⟩
  | some new =>
      simp only [Tables.putFile, file] at mem
      split at mem
      · have ⟨held, other⟩ := List.mem_filter.mp mem
        refine ⟨held, fun _ same own named => ?_⟩
        cases same
        simp [own, named] at other
      · rename_i absent
        have none : ∀ f ∈ s.files, f.unitId = unit → f.filename ≠ new.filename := by
          simpa using absent
        refine ⟨mem, fun _ same _ _ => ?_⟩
        cases same
        exact none

theorem mem_declareAll {now : Instant} {ds : List Declaration} {r : DeclarationRow}
    (mem : r ∈ (ds.foldl (Tables.declare unit now) s).declarations) :
    r.declaration ∈ ds ∨ r ∈ s.declarations := by
  induction ds generalizing s with
  | nil => exact .inr mem
  | cons d ds ih =>
      rcases ih mem with later | earlier
      · exact .inl (List.mem_cons_of_mem _ later)
      · rcases Lib.mem_upsert.mp earlier with ⟨old, _⟩ | ⟨old, _, same, rfl⟩ | ⟨_, rfl⟩
        · exact .inr old
        · have named : old.filename = d.filename := congrArg (fun slot => slot.2.1) same
          have algorithm : old.algorithm = d.algorithm := congrArg (fun slot => slot.2.2) same
          refine .inl (List.mem_cons.mpr (.inl ?_))
          simp [DeclarationRow.declaration, named, algorithm]
        · exact .inl List.mem_cons_self

/-- The marks of a change, on the unit's row. -/
def UnitChange.mark (change : UnitChange) (row : UnitRow) : UnitRow :=
  let contested := if change.contest then { row with contested := true } else row
  if change.reveal then
    { contested with visibleAt := some (contested.visibleAt.getD (bindTs change.now)) }
  else contested

theorem unitRow_mark (found : s.unitRow key = some row) (own : row.id = unit) :
    (s.mark unit change).unitRow key = some (change.mark row) := by
  simp only [Tables.mark, UnitChange.mark, Tables.markContested, Tables.markVisible]
  split <;> split
  · exact unitRow_onUnit (fun _ => rfl) (unitRow_onUnit (fun _ => rfl) found own) own
  · exact unitRow_onUnit (fun _ => rfl) found own
  · exact unitRow_onUnit (fun _ => rfl) found own
  · exact found

theorem mark_files : (s.mark unit change).files = s.files := by
  simp only [Tables.mark]
  split <;> split <;> rfl

theorem mark_declarations : (s.mark unit change).declarations = s.declarations := by
  simp only [Tables.mark]
  split <;> split <;> rfl

/-- What a change does once it has its row: it puts its file and its declarations, and marks the row. -/
theorem apply_begun {reclaim reclaim' : Reclaim.Tables} {changed : Changed}
    (applied : s.apply reclaim change = .ok (changed, reclaim', t)) :
    ∃ unit revision begun, s.advance change = some (unit, revision, begun) ∧
      t = ((change.declarations.foldl (Tables.declare unit change.now)
        (begun.putFile unit change).2).mark unit change).bump change.key.repository change.scopes
          change.now := by
  simp only [Tables.apply] at applied
  split at applied
  · cases applied
  · split at applied
    · cases applied
    · rename_i unit revision begun advanced
      cases applied
      exact ⟨unit, revision, begun, advanced, rfl⟩

/-- A change's row, before its marks, against the unit the change was decided on. -/
structure Precedes (change : UnitChange) (s : Tables) (before : Option Unit) (row : UnitRow) :
    Prop where
  decided : before.map Unit.revision = change.revision
  revision : before.elim 1 (·.revision + 1) = row.revision
  depositor : before.elim change.depositor Unit.depositor = row.depositor
  contested : before.any Unit.contested = row.contested
  refused : before.any Unit.refused = row.refused
  visibleAt : before.any (fun unit => unit.visibleAt.isSome) = row.visibleAt.isSome
  file : ∀ name f, (∃ unit, before = some unit ∧ unit.file name = some f) ↔
    ∃ r ∈ s.files, r.unitId = row.id ∧ r.filename = name ∧ r.stored = f
  declared : ∀ d, (∃ unit, before = some unit ∧ d ∈ unit.declarations) ↔
    ∃ r ∈ s.declarations, r.unitId = row.id ∧ r.declaration = d

theorem Begun.precedes (sound : Sound s) (begun : Begun change s t row) :
    Precedes change s (s.unit change.key) row := by
  rcases begun.old with ⟨absent, created, files, declarations, fresh⟩ | ⟨old, found, judged, next⟩
  · have none : s.unit change.key = none := by simp [Tables.unit, absent]
    rw [none]
    refine ⟨created.symm, ?_, ?_, ?_, ?_, ?_, fun name f => ?_, fun d => ?_⟩
    iterate 5
      rw [fresh]
      rfl
    · simp only [reduceCtorEq, false_and, exists_false, false_iff]
      rintro ⟨r, mem, own, _⟩
      exact files r mem own
    · simp only [reduceCtorEq, false_and, exists_false, false_iff]
      rintro ⟨r, mem, own, _⟩
      exact declarations r mem own
  · have some : s.unit change.key =
        some (old.unit (s.filesOf old.id) (s.declarationsOf old.id)) := by
      simp [Tables.unit, found]
    rw [some, next]
    refine ⟨judged.symm, rfl, rfl, rfl, rfl, ?_, fun name f => ?_, fun d => ?_⟩
    · simp [UnitRow.unit]
    · simp only [Option.some.injEq, exists_eq_left']
      exact sound.file_iff
    · simp only [Option.some.injEq, exists_eq_left']
      exact mem_declarationsOf

theorem mark_row (change : UnitChange) (row : UnitRow) :
    (change.mark row).id = row.id ∧ (change.mark row).revision = row.revision ∧
      (change.mark row).depositor = row.depositor ∧
      (change.mark row).contested = (row.contested || change.contest) ∧
      (change.mark row).refused = row.refused ∧
      (change.mark row).visibleAt.isSome = (row.visibleAt.isSome || change.reveal) := by
  cases contest : change.contest <;> cases reveal : change.reveal <;>
    simp [UnitChange.mark, contest, reveal]

theorem putFile_units : (s.putFile unit change).2.units = s.units := by
  cases file : change.file with
  | none => simp only [Tables.putFile, file]
  | some new =>
      simp only [Tables.putFile, file]
      split <;> rfl

theorem declareAll_units {now : Instant} {ds : List Declaration} :
    (ds.foldl (Tables.declare unit now) s).units = s.units := by
  induction ds generalizing s with
  | nil => rfl
  | cons d ds ih => exact ih

theorem declareAll_files {now : Instant} {ds : List Declaration} :
    (ds.foldl (Tables.declare unit now) s).files = s.files := by
  induction ds generalizing s with
  | nil => rfl
  | cons d ds ih => exact ih

theorem Sound.held_outside {other : UnitKey} (sound : Sound s) (found : s.unitRow key = some row)
    (outside : Outside row.id s t) (apart : other ≠ key) : t.held other = s.held other := by
  have ids : ∀ r, s.unitRow other = some r → r.id ≠ row.id := fun r here =>
    sound.id_ne here found apart
  rw [Tables.held, Tables.held, outside.rows other ids]
  cases here : s.unitRow other with
  | none => rfl
  | some r => simp [outside.files r.id (ids r here), outside.declarations r.id (ids r here)]

theorem Begun.held {u : Tables} (begun : Begun change s t row) (outside : Outside row.id t u)
    (other : key ≠ change.key) : u.held key = s.held key := by
  rw [begun.sound.held_outside begun.found outside other, Tables.held, Tables.held,
    begun.others key other]
  simp only [Tables.filesOf, Tables.declarationsOf, begun.files, begun.declarations]

theorem Begun.files_iff (begun : Begun change s t row) {name : Text} {f : StoredFile} :
    (∃ r ∈ (t.putFile row.id change).2.files,
      r.unitId = row.id ∧ r.filename = name ∧ r.stored = f) ↔
      (∃ new, change.file = some new ∧ new.filename = name ∧ new.stored change.now = f) ∨
        ((∀ new, change.file = some new → new.filename ≠ name) ∧
          ∃ r ∈ s.files, r.unitId = row.id ∧ r.filename = name ∧ r.stored = f) := by
  constructor
  · rintro ⟨r, mem, own, named, same⟩
    rw [mem_putFile, begun.files] at mem
    rcases mem with ⟨new, stored, rfl⟩ | ⟨old, apart⟩
    · exact .inl ⟨new, stored, named, same⟩
    · refine .inr ⟨fun new stored named' => apart new stored ⟨own, ?_⟩, r, old, own, named, same⟩
      rw [named, named']
  · rintro (⟨new, stored, named, same⟩ | ⟨apart, r, old, own, named, same⟩)
    · refine ⟨new.row row.id change.now, ?_, rfl, named, same⟩
      rw [mem_putFile]
      exact .inl ⟨new, stored, rfl⟩
    · refine ⟨r, ?_, own, named, same⟩
      rw [mem_putFile, begun.files]
      exact .inr ⟨old, fun new stored both => apart new stored (both.2.symm.trans named)⟩

/-- A declaration of the unit, once the change has put its own, is one it sent, or one that was there
and that no file of its name replaced. -/
theorem Begun.declared (begun : Begun change s t row) {r : DeclarationRow}
    (held : r ∈ (change.declarations.foldl (Tables.declare row.id change.now)
      (t.putFile row.id change).2).declarations) (own : r.unitId = row.id) :
    r.declaration ∈ change.declarations ∨
      (r ∈ s.declarations ∧ ∀ new, change.file = some new → new.filename = r.filename →
        ∀ f ∈ s.files, f.unitId = row.id → f.filename ≠ r.filename) := by
  rcases mem_declareAll held with sent | kept
  · exact .inl sent
  · have ⟨old, unfiled⟩ := mem_putFile_declarations kept
    rw [begun.declarations] at old
    rw [begun.files] at unfiled
    refine .inr ⟨old, fun new stored named f mem own' => ?_⟩
    rw [← named]
    exact unfiled new stored own named.symm f mem own'

/-- A change that is applied was decided on the unit as it is, and makes of it what it says; no other
unit is touched. -/
theorem apply_spec {reclaim reclaim' : Reclaim.Tables} {changed : Changed} (sound : Sound s)
    (applied : s.apply reclaim change = .ok (changed, reclaim', t)) :
    Sound t ∧ (∀ key, key ≠ change.key → t.held key = s.held key) ∧
      ∃ after, t.unit change.key = some after ∧ Advanced change (s.unit change.key) after := by
  obtain ⟨unit, revision, begun, advanced, final⟩ := apply_begun applied
  have ⟨row, own, start⟩ := advance_spec sound advanced
  subst own
  have here : row.id ∈ begun.units.map UnitRow.id :=
    List.mem_map_of_mem (mem_of_unitRow start.found).1
  have still : row.id ∈ (begun.putFile row.id change).2.units.map UnitRow.id := by
    rw [putFile_units]
    exact here
  have sound' : Sound t := by
    rw [final]
    exact ((start.sound.putFile here).declareAll still).mark.bump
  have outside : Outside row.id begun t := by
    rw [final]
    exact Outside.putFile.trans (Outside.declareAll.trans (Outside.mark.trans Outside.bump))
  have found : t.unitRow change.key = some (change.mark row) := by
    rw [final]
    apply unitRow_mark _ rfl
    simp only [Tables.unitRow, declareAll_units, putFile_units]
    exact start.found
  have files : t.files = (begun.putFile row.id change).2.files := by
    rw [final]
    exact mark_files.trans declareAll_files
  have declarations : t.declarations = (change.declarations.foldl
      (Tables.declare row.id change.now) (begun.putFile row.id change).2).declarations := by
    rw [final]
    exact mark_declarations
  have ⟨id, revision, depositor, contested, refused, visible⟩ := mark_row change row
  have before := start.precedes sound
  refine ⟨sound', fun key other => start.held outside other, _, by rw [Tables.unit, found]; rfl, ?_⟩
  refine
    { decided := before.decided
      revision := revision.trans before.revision.symm
      depositor := depositor.trans before.depositor.symm
      contested := by rw [before.contested]; exact contested
      refused := refused.trans before.refused.symm
      visibleAt := by rw [before.visibleAt, ← visible]; simp [UnitRow.unit]
      file := fun name f => ?_
      declared := fun d mem => ?_ }
  · rw [sound'.file_iff, id, before.file, files]
    exact start.files_iff
  · have mem' : d ∈ t.declarationsOf row.id := id ▸ mem
    obtain ⟨r, held, own, rfl⟩ := mem_declarationsOf.mp mem'
    rw [declarations] at held
    rcases start.declared held own with sent | ⟨old, unfiled⟩
    · exact .inl sent
    · have ⟨unit, was, declared⟩ := (before.declared r.declaration).mpr ⟨r, old, own, rfl⟩
      refine .inr ⟨unit, was, declared, fun new stored named => ?_⟩
      -- a file under this name would be a row of the unit
      cases filed : unit.file r.declaration.filename with
      | none => rfl
      | some f =>
          have ⟨g, mem, own', named', _⟩ := (before.file _ f).mp ⟨unit, was, filed⟩
          exact absurd named' (unfiled new stored named g mem own')

theorem mark_counters : (s.mark unit change).counters = s.counters := by
  simp only [Tables.mark]
  split <;> split <;> rfl

theorem putFile_counters : (s.putFile unit change).2.counters = s.counters := by
  cases file : change.file with
  | none => simp only [Tables.putFile, file]
  | some new =>
      simp only [Tables.putFile, file]
      split <;> rfl

theorem declareAll_counters {now : Instant} {ds : List Declaration} :
    (ds.foldl (Tables.declare unit now) s).counters = s.counters := by
  induction ds generalizing s with
  | nil => rfl
  | cons d ds ih => exact ih

theorem advance_counters (advanced : s.advance change = some (unit, revision, t)) :
    t.counters = s.counters := by
  simp only [Tables.advance] at advanced
  split at advanced
  · split at advanced
    · cases advanced
    · cases advanced
      rfl
  · split at advanced
    · cases advanced
    · split at advanced
      · cases advanced
        rfl
      · cases advanced

theorem apply_counters {reclaim reclaim' : Reclaim.Tables} {changed : Changed}
    (applied : s.apply reclaim change = .ok (changed, reclaim', t)) :
    t.counters = (s.bump change.key.repository change.scopes change.now).counters := by
  obtain ⟨unit, revision, begun, advanced, rfl⟩ := apply_begun applied
  simp only [Tables.bump, mark_counters, declareAll_counters, putFile_counters,
    advance_counters advanced]

/-- What a refusal makes of a unit. -/
structure Emptied (before after : Unit) : Prop where
  revision : after.revision = before.revision + 1
  depositor : after.depositor = before.depositor
  refused : after.refused = true
  files : after.files = []
  declarations : after.declarations = []

theorem refuseUnit_spec {reclaim reclaim' : Reclaim.Tables} {changed : Changed}
    {scopes : List Text} {now : Instant} (sound : Sound s)
    (refused : s.refuseUnit reclaim key revision scopes now = .ok (changed, reclaim', t)) :
    Sound t ∧ (∀ other, other ≠ key → t.held other = s.held other) ∧
      ∃ before after, s.unit key = some before ∧ before.revision = revision ∧
        t.unit key = some after ∧ Emptied before after := by
  cases found : s.unitRow key with
  | none => simp [Tables.refuseUnit, found] at refused
  | some row =>
      simp only [Tables.refuseUnit, found] at refused
      split at refused
      · cases refused
      · rename_i judged
        cases refused
        have next : Sound (s.markRefused row.id) := sound.onUnit (fun _ => rfl) fun _ => rfl
        have marked : Outside row.id s (s.markRefused row.id) := Outside.onUnit fun _ => rfl
        have outside := marked.trans (Outside.emptied.trans
          (Outside.bump : Outside row.id _ (Tables.bump _ key.repository scopes now)))
        have row' : (((s.markRefused row.id).emptied row.id).bump key.repository scopes
            now).unitRow key =
            some { row with revision := row.revision + 1, refused := true } :=
          unitRow_onUnit (fun _ => rfl) found rfl
        refine ⟨next.emptied.bump, fun other apart => sound.held_outside found outside apart,
          row.unit (s.filesOf row.id) (s.declarationsOf row.id), _, ?_, not_not.mp judged,
          by rw [Tables.unit, row']; rfl, ?_⟩
        · simp [Tables.unit, found]
        · refine ⟨rfl, rfl, rfl, ?_, ?_⟩
          · apply List.eq_nil_iff_forall_not_mem.mpr
            intro f mem
            have ⟨r, held, own, _⟩ := mem_filesOf.mp mem
            have ⟨_, other⟩ := List.mem_filter.mp held
            simp [own] at other
          · apply List.eq_nil_iff_forall_not_mem.mpr
            intro d mem
            have ⟨r, held, own, _⟩ := mem_declarationsOf.mp mem
            have ⟨_, other⟩ := List.mem_filter.mp held
            simp [own] at other

theorem refuseUnit_counters {reclaim reclaim' : Reclaim.Tables} {changed : Changed}
    {scopes : List Text} {now : Instant}
    (refused : s.refuseUnit reclaim key revision scopes now = .ok (changed, reclaim', t)) :
    t.counters = (s.bump key.repository scopes now).counters := by
  simp only [Tables.refuseUnit] at refused
  split at refused
  · cases refused
  · split at refused
    · cases refused
    · cases refused
      rfl

end Specs

end OpenCargo.Maven
