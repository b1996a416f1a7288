/-
Module: OpenCargo.Maven.Validators
Purpose: What an `ETag` of a `maven-metadata.xml` says of its body. A body is assembled from the visible
  units, the hints and the plugins of clients; the counter its `ETag` shows moves with the units, but not
  with every hint, and a directory may change from a group's to an artifact's.
Trusted boundary: none
Main exports: shownCounter, shownBody, Standing.covers, equal_etags_name_one_body
-/
import OpenCargo.Maven.Gated
import OpenCargo.Maven.Metadata

namespace OpenCargo.Maven

open OpenCargo.Lib

/-! ### The counters -/

section Counters

variable {s t : Tables} {repository : Int} {scope : Text} {scopes : List Text} {now : Instant}

theorem counter_congr (same : t.counters = s.counters) (repository : Int) (scope : Text) :
    t.counter repository scope = s.counter repository scope := by
  rw [Tables.counter, Tables.counter, same]

theorem counter_value :
    (s.counter repository scope).value =
      (s.counters.find? fun row => row.slot == (repository, scope)).elim 0 CounterRow.counter := by
  rw [Tables.counter]
  split <;> rename_i found <;> rw [found] <;> rfl

theorem find?_bump_self (s : Tables) (repository : Int) (scope : Text) (now : Instant) :
    (s.bump repository [scope] now).counters.find? (fun row => row.slot == (repository, scope)) =
      some ((s.counters.find? fun row => row.slot == (repository, scope)).elim
        ⟨repository, scope, 1, bindTs now⟩
        fun r => { r with counter := r.counter + 1, updatedAt := bindTs now }) := by
  have keeps : ∀ r : CounterRow,
      CounterRow.slot { r with counter := r.counter + 1, updatedAt := bindTs now } = r.slot :=
    fun _ => rfl
  have new : CounterRow.slot ⟨repository, scope, 1, bindTs now⟩ = (repository, scope) := rfl
  rw [← new]
  exact find?_upsert_self fun r _ => keeps r

theorem counter_bump_self (s : Tables) (repository : Int) (scope : Text) (now : Instant) :
    ((s.bump repository [scope] now).counter repository scope).value =
      (s.counter repository scope).value + 1 := by
  rw [counter_value, counter_value, find?_bump_self]
  cases s.counters.find? _ <;> rfl

theorem counter_bump_of_ne {repository' : Int} {moved : Text}
    (other : (repository, scope) ≠ (repository', moved)) :
    ((s.bump repository' [moved] now).counter repository scope).value =
      (s.counter repository scope).value := by
  have keeps : ∀ r : CounterRow,
      CounterRow.slot { r with counter := r.counter + 1, updatedAt := bindTs now } = r.slot :=
    fun _ => rfl
  have same : (s.bump repository' [moved] now).counters.find?
      (fun row => row.slot == (repository, scope)) =
      s.counters.find? fun row => row.slot == (repository, scope) := by
    apply find?_upsert_of_ne fun r _ => keeps r
    exact other
  rw [counter_value, counter_value, same]

theorem counter_le_bump (repository' : Int) :
    (s.counter repository scope).value ≤
      ((s.bump repository' scopes now).counter repository scope).value := by
  induction scopes generalizing s with
  | nil => exact Nat.le_refl _
  | cons first scopes ih =>
      have one : (s.counter repository scope).value ≤
          ((s.bump repository' [first] now).counter repository scope).value := by
        by_cases own : (repository, scope) = (repository', first)
        · cases own
          rw [counter_bump_self]
          exact Nat.le_succ _
        · rw [counter_bump_of_ne own]
      exact one.trans ih

theorem counter_lt_bump (moved : scope ∈ scopes) :
    (s.counter repository scope).value <
      ((s.bump repository scopes now).counter repository scope).value := by
  induction scopes generalizing s with
  | nil => cases moved
  | cons first scopes ih =>
      by_cases own : scope = first
      · subst own
        have one := counter_bump_self s repository scope now
        have rest : ((s.bump repository [scope] now).counter repository scope).value ≤
            ((s.bump repository (scope :: scopes) now).counter repository scope).value :=
          counter_le_bump repository
        omega
      · have later : ((s.bump repository [first] now).counter repository scope).value <
            ((s.bump repository (first :: scopes) now).counter repository scope).value :=
          ih (by simpa [own] using moved)
        rwa [counter_bump_of_ne (by simpa using own)] at later

end Counters

/-! ### The units of an artifact -/

section Views

variable {s t : Tables} {repository : Int} {ga version : Text} {row : UnitRow}

theorem Sound.unitRow_iff (sound : Sound s) {key : UnitKey} :
    s.unitRow key = some row ↔ row ∈ s.units ∧ row.key = key := by
  constructor
  · exact mem_of_unitRow
  · rintro ⟨mem, rfl⟩
    exact find?_of_unique sound.keys mem

theorem mem_artifactRows :
    row ∈ s.artifactRows repository ga ↔
      row ∈ s.units ∧ row.key.repository = repository ∧ row.key.ga = ga := by
  simp [Tables.artifactRows]

theorem Sound.artifactRows_ordered (sound : Sound s) :
    (s.artifactRows repository ga).Pairwise fun a b => a.id < b.id := by
  apply ordered_insertionSort
  exact sound.ids.sublist (List.filter_sublist.map _)

theorem artifact_filter_eq (sound : Sound s) (sound' : Sound t) {p : UnitKey → Bool}
    (same : ∀ key, key.repository = repository → key.ga = ga → p key = true →
      t.held key = s.held key) :
    ((t.artifactRows repository ga).filter fun row => p row.key).map
        (fun row => row.view (t.filesOf row.id)) =
      ((s.artifactRows repository ga).filter fun row => p row.key).map
        fun row => row.view (s.filesOf row.id) := by
  have moved : ∀ {a b : Tables} {row : UnitRow}, Sound a → Sound b →
      (∀ key, key.repository = repository → key.ga = ga → p key = true →
        a.held key = b.held key) →
      row ∈ (a.artifactRows repository ga).filter (fun row => p row.key) →
      row ∈ (b.artifactRows repository ga).filter (fun row => p row.key) ∧
        a.filesOf row.id = b.filesOf row.id := by
    intro a b row first second agree mem
    obtain ⟨mem, chosen⟩ := List.mem_filter.mp mem
    obtain ⟨held, own, named⟩ := mem_artifactRows.mp mem
    have found := first.unitRow_iff.mpr ⟨held, rfl⟩
    have both := agree row.key own named chosen
    rw [Tables.held, found, Option.map_some, Tables.held] at both
    obtain ⟨row', found', same⟩ := Option.map_eq_some_iff.mp both.symm
    simp only [Held.mk.injEq] at same
    obtain ⟨rfl, files, -⟩ := same
    refine ⟨List.mem_filter.mpr ⟨mem_artifactRows.mpr ⟨?_, own, named⟩, chosen⟩, files.symm⟩
    exact (mem_of_unitRow found').1
  have rows : (t.artifactRows repository ga).filter (fun row => p row.key) =
      (s.artifactRows repository ga).filter fun row => p row.key := by
    apply eq_of_ordered (sound'.artifactRows_ordered.filter _)
      (sound.artifactRows_ordered.filter _)
    intro row
    constructor
    · exact fun mem => (moved sound' sound same mem).1
    · exact fun mem => (moved sound sound'
        (fun key own named chosen => (same key own named chosen).symm) mem).1
  rw [rows]
  apply List.map_congr_left
  intro row mem
  rw [← rows] at mem
  rw [(moved sound' sound same mem).2]

theorem artifact_eq (sound : Sound s) (sound' : Sound t)
    (same : ∀ key, key.repository = repository → key.ga = ga → t.held key = s.held key) :
    t.artifact repository ga = s.artifact repository ga := by
  have filtered := artifact_filter_eq sound sound' (p := fun _ => true)
    fun key own named _ => same key own named
  simpa [Tables.artifact] using filtered

/-- The units a snapshot's document is rendered from. -/
def snapshotUnits (tables : Tables) (repository : Int) (ga version : Text) : List UnitView :=
  (visible (tables.artifact repository ga)).filter fun unit => unit.version == version

theorem snapshotUnits_eq (sound : Sound s) (sound' : Sound t)
    (same : ∀ key, key.repository = repository → key.ga = ga → key.version = version →
      t.held key = s.held key) :
    snapshotUnits t repository ga version = snapshotUnits s repository ga version := by
  have swapped : ∀ tables : Tables, snapshotUnits tables repository ga version =
      visible (((tables.artifactRows repository ga).filter fun row => row.key.version == version).map
        fun row => row.view (tables.filesOf row.id)) := by
    intro tables
    rw [snapshotUnits, visible, visible, List.filter_comm, Tables.artifact, List.filter_map]
    rfl
  rw [swapped, swapped]
  congr 1
  apply artifact_filter_eq sound sound' (p := fun key => key.version == version)
  intro key own named chosen
  exact same key own named (by simpa using chosen)

end Views

/-! ### The directories -/

section Directories

variable {path group artifact : Text} {dir dir' above : List Text} {sum : Option SumAlgorithm}

theorem parse_metadata (parsed : MavenPath.parse path = .ok ⟨.metadata dir, sum⟩) :
    ∀ segment ∈ dir, '/' ∉ segment := by
  simp only [MavenPath.parse] at parsed
  split at parsed
  · cases parsed
  · rename_i accepted
    have valid : ∀ segment ∈ path.splitOn '/', validSegment segment = true := by
      simp only [Bool.or_eq_true, not_or, Bool.not_eq_true', Bool.not_eq_true] at accepted
      simpa using accepted.2
    split at parsed
    · split at parsed
      · cases parsed
      · cases parsed
        intro segment mem slash
        have inPath := List.mem_of_mem_dropLast mem
        exact absurd (validSegment_chars (valid segment inPath) '/' slash) (by decide)
    · split at parsed
      · cases parsed
      · split at parsed <;> cases parsed

theorem dotted_eq_map (plain : ∀ segment ∈ dir, '/' ∉ segment) :
    dotted dir = (['/'].intercalate dir).map fun c => if c = '/' then '.' else c := by
  rw [map_intercalate, dotted]
  have kept : dir.map (List.map fun c => if c = '/' then '.' else c) = dir := by
    refine (List.map_congr_left fun segment mem => ?_).trans (List.map_id dir)
    refine (List.map_congr_left fun c inside => ?_).trans (List.map_id segment)
    have other : c ≠ '/' := by rintro rfl; exact plain segment mem inside
    rw [if_neg other, id_eq]
  rw [kept, if_pos rfl]

theorem level_artifact_spec (level : MetadataLevel.of dir = some (.artifact group artifact)) :
    ∃ above, above ≠ [] ∧ dir = above ++ [artifact] ∧ group = dotted above := by
  rw [MetadataLevel.of] at level
  split at level
  · rename_i last above' rest split
    split at level
    · cases level
    · cases level
      refine ⟨(above' :: rest).reverse, by simp, ?_, rfl⟩
      simpa using congrArg List.reverse split
  · cases level

theorem level_snapshot_spec {gav : Gav} (level : MetadataLevel.of dir = some (.snapshot gav)) :
    isSnapshot gav.version = true := by
  rw [MetadataLevel.of] at level
  split at level
  · split at level
    · rename_i spelled
      cases level
      simp only [Bool.and_eq_true] at spelled
      exact spelled.1
    · cases level
  · cases level

/-- A directory that is written like the one an artifact's hints are read from is the artifact's, or is
spelled like a snapshot's. -/
theorem level_of_hintsDir (plain : ∀ segment ∈ dir, '/' ∉ segment)
    (plain' : ∀ segment ∈ dir', '/' ∉ segment)
    (level : MetadataLevel.of dir = some (.artifact group artifact))
    (written : ['/'].intercalate dir' = hintsDir group artifact) :
    MetadataLevel.of dir' = some (.artifact group artifact) ∨
      ∃ gav, MetadataLevel.of dir' = some (.snapshot gav) := by
  obtain ⟨above, nonempty, rfl, rfl⟩ := level_artifact_spec level
  have unslashed : ∀ segment ∈ above, '/' ∉ segment := fun segment mem =>
    plain segment (List.mem_append_left _ mem)
  have last : '/' ∉ artifact := plain artifact (by simp)
  obtain rfl | ⟨above', artifact', rfl⟩ := List.eq_nil_or_concat' dir'
  · simp [hintsDir] at written
  · have last' : '/' ∉ artifact' := plain' artifact' (by simp)
    have nonempty' : above' ≠ [] := by
      rintro rfl
      apply last'
      have slash : '/' ∈ hintsDir (dotted above) artifact := by simp [hintsDir]
      simpa [← written] using slash
    rw [intercalate_concat nonempty', hintsDir] at written
    obtain ⟨fronts, rfl⟩ := append_cons_inj_last last' last written
    -- back from slashes to dots, nothing of the group's name is lost
    have names : dotted above' = dotted above := by
      have back : (dotted above).map ((fun c => if c = '/' then '.' else c) ∘
          fun c => if c = '.' then '/' else c) = dotted above := by
        refine (List.map_congr_left fun c inside => ?_).trans (List.map_id _)
        have other : c ≠ '/' := by
          rintro rfl
          obtain ⟨segment, mem, slash⟩ := (mem_intercalate_iff (by decide)).mp inside
          exact unslashed segment mem slash
        by_cases dot : c = '.' <;> simp [dot, other]
      rw [dotted_eq_map fun segment mem => plain' segment (List.mem_append_left _ mem), fronts,
        List.map_map, back]
    by_cases snap : isSnapshot artifact' = true ∧ 2 ≤ above'.length
    · obtain ⟨higher, name, rfl⟩ := List.eq_nil_or_concat' above' |>.resolve_left nonempty'
      have deep : higher ≠ [] := by rintro rfl; simp at snap
      exact .inr ⟨_, level_of_snapshot_artifact deep snap.1⟩
    · rw [level_of_artifact nonempty' snap, names]
      exact .inl rfl

end Directories

/-- A unit of the artifact is visible. -/
def Shown (server : Server) (repository : Int) (ga : Text) : Prop :=
  visible (server.tables.artifact repository ga) ≠ []

instance (server : Server) (repository : Int) (ga : Text) : Decidable (Shown server repository ga) :=
  inferInstanceAs (Decidable (_ ≠ _))

theorem shown_iff {server : Server} {repository : Int} {ga : Text} (sound : Sound server.tables) :
    Shown server repository ga ↔ ∃ key unit, key.repository = repository ∧ key.ga = ga ∧
      server.unit key = some unit ∧ unit.visible = true := by
  constructor
  · intro some
    obtain ⟨view, mem⟩ := List.exists_mem_of_ne_nil _ some
    obtain ⟨read, shown⟩ := List.mem_filter.mp mem
    obtain ⟨row, inside, rfl⟩ := List.mem_map.mp read
    obtain ⟨held, own, named⟩ := mem_artifactRows.mp inside
    refine ⟨row.key, row.unit (server.tables.filesOf row.id) (server.tables.declarationsOf row.id),
      own, named, ?_, shown⟩
    rw [Server.unit, Tables.unit, sound.unitRow_iff.mpr ⟨held, rfl⟩]
    rfl
  · rintro ⟨key, unit, own, named, found, shown⟩
    obtain ⟨row, here, rfl⟩ := Option.map_eq_some_iff.mp found
    obtain ⟨held, rfl⟩ := mem_of_unitRow here
    refine List.ne_nil_of_mem (a := row.view (server.tables.filesOf row.id)) ?_
    refine List.mem_filter.mpr ⟨?_, shown⟩
    exact List.mem_map.mpr ⟨row, mem_artifactRows.mpr ⟨held, own, named⟩, rfl⟩

/-! ### What is asked of a step -/

/-- A plugin list, or a document put where a snapshot's is, leaves the hints of a shown artifact as they
are: it moves another counter than the artifact's. -/
def KeepsHints (env : Env) (u : Server) : ServerAct → Prop
  | .put repository path _ body _ _ =>
      ∀ dir parsed, MavenPath.parse path = .ok ⟨.metadata dir, none⟩ → env.parse body = .ok parsed →
        (parsed.plugins ≠ [] ∨ ∃ gav, MetadataLevel.of dir = some (.snapshot gav)) →
        ∀ group artifact, hintsDir group artifact = ['/'].intercalate dir →
          Shown u repository (group ++ ':' :: artifact) →
          u.hints repository (['/'].intercalate dir) = ⟨parsed.release, parsed.latest⟩
  | _ => True

/-- When the first unit of an artifact is shown, the artifact's counter is not behind the one of the
group that is written like it. -/
def CaughtUp (u v : Server) : Prop :=
  ∀ repository group artifact, ¬Shown u repository (group ++ ':' :: artifact) →
    Shown v repository (group ++ ':' :: artifact) →
    (u.tables.counter repository (scopeGroup (group ++ '.' :: artifact))).value ≤
      (u.tables.counter repository (scopeArtifact (group ++ ':' :: artifact))).value

def Covered (env : Env) (u : Server) (act : ServerAct) (v : Server) : Prop :=
  KeepsHints env u act ∧ CaughtUp u v

/-! ### What a step does to what is rendered -/

section Steps

variable {env : Env} {window : Int} {u v : Server} {act : ServerAct} {repository : Int}
  {ga version group artifact : Text} {dir : List Text}

theorem Moves.write {good : Digests → Prop} {r : Request} {s t : Tables} (moves : Moves good r s t) :
    t = s ∨ ((∀ key, key ≠ r.key → t.held key = s.held key) ∧
      ∃ now, t.counters = (s.bump r.key.repository r.scopes now).counters) := by
  cases moves with
  | same kept => exact .inl kept
  | changed _ others _ _ counters => exact .inr ⟨others, _, counters⟩
  | emptied others _ _ counters => exact .inr ⟨others, _, counters⟩

theorem Took.counters (took : Took env window u act v) (repository : Int) (scope : Text) :
    (u.tables.counter repository scope).value ≤ (v.tables.counter repository scope).value := by
  cases took with
  | refused same => rw [same]
  | deposit _ _ _ _ begun =>
      rw [begun]
      exact Nat.le_refl _
  | began _ begun =>
      rw [begun]
      exact Nat.le_refl _
  | recorded _ _ _ recorded =>
      rw [recorded]
      exact counter_le_bump _
  | moved _ _ _ moves =>
      rcases moves.write with same | ⟨_, now, counters⟩
      · rw [same]
      · rw [counter_congr counters]
        exact counter_le_bump _

/-- Units are written under the counters that cover them: where a counter that does not cover a key's
unit stands still, the unit does. -/
theorem Took.held (standing : Standing env window u) (took : Took env window u act v) {key : UnitKey}
    {scope : Text} (covered : ∀ r : Request, r.Scoped → r.key = key → scope ∈ r.scopes)
    (still : (u.tables.counter key.repository scope).value =
      (v.tables.counter key.repository scope).value) :
    v.tables.held key = u.tables.held key := by
  cases took with
  | refused same => rw [same]
  | deposit _ _ _ _ begun => rw [begun]; rfl
  | began _ begun => rw [begun]; rfl
  | recorded _ _ _ recorded => rw [recorded]; rfl
  | moved _ call _ moves =>
      rcases moves.write with same | ⟨others, now, counters⟩
      · rw [same]
      · refine others key ?_
        rintro rfl
        have names := standing.requests _ (List.mem_of_getElem? call)
        rw [counter_congr counters] at still
        exact absurd still (Nat.ne_of_lt (counter_lt_bump (covered _ names rfl)))

theorem Took.artifact_eq (standing : Standing env window u) (standing' : Standing env window v)
    (took : Took env window u act v)
    (still : (u.tables.counter repository (scopeArtifact ga)).value =
      (v.tables.counter repository (scopeArtifact ga)).value) :
    v.tables.artifact repository ga = u.tables.artifact repository ga := by
  apply Maven.artifact_eq standing.kept.inv standing'.kept.inv
  rintro key rfl rfl
  apply took.held standing _ still
  rintro r names rfl
  exact names.artifact

theorem Took.snapshotUnits_eq (standing : Standing env window u) (standing' : Standing env window v)
    (took : Took env window u act v) (snap : isSnapshot version = true)
    (still : (u.tables.counter repository (scopeSnapshot ga version)).value =
      (v.tables.counter repository (scopeSnapshot ga version)).value) :
    snapshotUnits v.tables repository ga version = snapshotUnits u.tables repository ga version := by
  apply Maven.snapshotUnits_eq standing.kept.inv standing'.kept.inv
  rintro key rfl rfl rfl
  apply took.held standing _ still
  rintro r names rfl
  exact names.snapshot snap

theorem Took.shown (standing : Standing env window u) (standing' : Standing env window v)
    (took : Took env window u act v) (shown : Shown u repository ga) : Shown v repository ga := by
  rw [shown_iff standing.kept.inv] at shown
  rw [shown_iff standing'.kept.inv]
  obtain ⟨key, unit, own, named, found, visible⟩ := shown
  cases took with
  | refused same => exact ⟨key, unit, own, named, same ▸ found, visible⟩
  | deposit _ _ _ _ begun => exact ⟨key, unit, own, named, by rw [begun]; exact found, visible⟩
  | began _ begun => exact ⟨key, unit, own, named, by rw [begun]; exact found, visible⟩
  | recorded _ _ _ recorded =>
      exact ⟨key, unit, own, named, by rw [recorded]; exact found, visible⟩
  | moved _ _ does =>
      rcases does.unit key with same | ⟨_, after, found', written⟩
      · exact ⟨key, unit, own, named, same.trans found, visible⟩
      · have found : u.tables.unit key = some unit := found
        rw [found] at written
        exact ⟨key, after, own, named, found', (written.frozen visible).visible⟩

theorem clientDocument_spec {body : Bytes} {doc : ClientMetadata} {scopes : List Text}
    (read : clientDocument env repository dir body = .ok (doc, scopes)) :
    ∃ parsed, env.parse body = .ok parsed ∧ doc.slot = (repository, ['/'].intercalate dir) ∧
      doc.release = parsed.release ∧ doc.latest = parsed.latest ∧ doc.plugins = parsed.plugins ∧
      (parsed.plugins ≠ [] → scopes = [scopeGroup (dotted dir)]) ∧
      (parsed.plugins = [] → ∀ group artifact,
        MetadataLevel.of dir = some (.artifact group artifact) →
          scopes = [scopeArtifact (group ++ ':' :: artifact)]) := by
  simp only [clientDocument] at read
  split at read
  · cases read
  · rename_i parsed known
    cases read
    refine ⟨parsed, known, rfl, rfl, rfl, rfl, fun any => ?_, fun none group artifact level => ?_⟩
    · simp [any]
    · simp [none, level]

theorem client_record_self {doc : ClientMetadata} {scopes : List Text} {now : Instant} :
    (u.record doc scopes now).client doc.repository doc.dir = some doc := by
  have keeps (row : ClientMetadata) (same : row.slot = doc.slot) : doc.slot = row.slot := same.symm
  have found : (upsert ClientMetadata.slot (fun _ => doc) doc u.clients).find?
      (fun row => row.slot == doc.slot) = _ := find?_upsert_self keeps
  refine found.trans ?_
  cases u.clients.find? fun row => row.slot == doc.slot <;> rfl

theorem client_record_of_ne {doc : ClientMetadata} {scopes : List Text} {now : Instant}
    {dir : Text} (other : (repository, dir) ≠ doc.slot) :
    (u.record doc scopes now).client repository dir = u.client repository dir := by
  have keeps (row : ClientMetadata) (same : row.slot = doc.slot) : doc.slot = row.slot := same.symm
  exact find?_upsert_of_ne keeps other

/-- A document is kept for the directory `text` of the repository. -/
structure Documents (env : Env) (u : Server) (act : ServerAct) (v : Server) (repository : Int)
    (text : Text) (dir : List Text) (parsed : Parsed) : Prop where
  written : ['/'].intercalate dir = text
  plain : ∀ segment ∈ dir, '/' ∉ segment
  client : ∃ doc, v.client repository text = some doc ∧ doc.plugins = parsed.plugins
  hints : v.hints repository text = ⟨parsed.release, parsed.latest⟩
  moved : ∃ scopes now, v.tables = u.tables.bump repository scopes now ∧
    (parsed.plugins ≠ [] → scopeGroup (dotted dir) ∈ scopes) ∧
    (parsed.plugins = [] → ∀ group artifact,
      MetadataLevel.of dir = some (.artifact group artifact) →
        scopeArtifact (group ++ ':' :: artifact) ∈ scopes)
  keeps : KeepsHints env u act →
    (parsed.plugins ≠ [] ∨ ∃ gav, MetadataLevel.of dir = some (.snapshot gav)) →
    ∀ group artifact, hintsDir group artifact = text →
      Shown u repository (group ++ ':' :: artifact) → u.hints repository text = v.hints repository text

theorem Took.document (took : Took env window u act v) (repository : Int) (text : Text) :
    v.client repository text = u.client repository text ∨
      ∃ dir parsed, Documents env u act v repository text dir parsed := by
  cases took with
  | refused same => exact .inl (by rw [same])
  | deposit _ _ _ _ begun => exact .inl (by rw [begun]; rfl)
  | began _ begun => exact .inl (by rw [begun]; rfl)
  | moved _ _ _ _ _ clients _ => exact .inl (by rw [Server.client, Server.client, clients])
  | @recorded repository' _ _ _ _ now dir doc scopes came parsed read recorded =>
      obtain ⟨known, reads, slot, release, latest, plugins, group, level⟩ := clientDocument_spec read
      subst recorded
      by_cases own : (repository, text) = doc.slot
      · have found : (u.record doc scopes now).client doc.repository doc.dir = some doc :=
          client_record_self
        cases own.trans slot
        obtain ⟨inRepository, inDir⟩ := Prod.mk.inj own
        rw [← inRepository, ← inDir] at found
        have hints : (u.record doc scopes now).hints repository (['/'].intercalate dir) =
            ⟨known.release, known.latest⟩ := by
          rw [Server.hints, found]
          simp [release, latest]
        refine .inr ⟨dir, known, rfl, parse_metadata parsed, ⟨doc, found, plugins⟩, hints,
          ⟨scopes, now, by rw [inRepository]; rfl, fun any => ?_, fun none group artifact is => ?_⟩, ?_⟩
        · rw [group any]
          exact List.mem_singleton_self _
        · rw [level none group artifact is]
          exact List.mem_singleton_self _
        · intro keeps kind group artifact is shown
          subst came
          have same := keeps dir known parsed reads kind group artifact is shown
          exact same.trans hints.symm
      · exact .inl (client_record_of_ne own)

theorem Took.plugins (took : Took env window u act v) (plain : ∀ segment ∈ dir, '/' ∉ segment)
    (still : (u.tables.counter repository (scopeGroup (dotted dir))).value =
      (v.tables.counter repository (scopeGroup (dotted dir))).value) {doc : ClientMetadata}
    (found : v.client repository (['/'].intercalate dir) = some doc) (any : doc.plugins ≠ []) :
    u.client repository (['/'].intercalate dir) = some doc := by
  rcases took.document repository (['/'].intercalate dir) with same | ⟨dir', parsed, documents⟩
  · rw [← same, found]
  · obtain ⟨doc', found', plugins⟩ := documents.client
    cases found.symm.trans found'
    obtain ⟨scopes, now, tables, moved, -⟩ := documents.moved
    have names : dotted dir' = dotted dir := by
      rw [dotted_eq_map plain, dotted_eq_map documents.plain, documents.written]
    have mem := moved (plugins ▸ any)
    rw [names] at mem
    rw [tables] at still
    exact absurd still (Nat.ne_of_lt (counter_lt_bump mem))

/-- The hints of an artifact that is shown change with its counter, where the step keeps to that. -/
theorem Took.hints (took : Took env window u act v) (keeps : KeepsHints env u act)
    (plain : ∀ segment ∈ dir, '/' ∉ segment)
    (level : MetadataLevel.of dir = some (.artifact group artifact))
    (shown : Shown u repository (group ++ ':' :: artifact))
    (still : (u.tables.counter repository (scopeArtifact (group ++ ':' :: artifact))).value =
      (v.tables.counter repository (scopeArtifact (group ++ ':' :: artifact))).value) :
    v.hints repository (hintsDir group artifact) = u.hints repository (hintsDir group artifact) := by
  rcases took.document repository (hintsDir group artifact) with same | ⟨dir', parsed, documents⟩
  · rw [Server.hints, Server.hints, same]
  · by_cases kind : parsed.plugins ≠ [] ∨ ∃ gav, MetadataLevel.of dir' = some (.snapshot gav)
    · exact (documents.keeps keeps kind group artifact rfl shown).symm
    · obtain ⟨none, other⟩ := not_or.mp kind
      have artifacts : MetadataLevel.of dir' = some (.artifact group artifact) :=
        (level_of_hintsDir plain documents.plain level documents.written).resolve_right other
      obtain ⟨scopes, now, tables, -, moved⟩ := documents.moved
      rw [tables] at still
      have mem := moved (not_not.mp none) group artifact artifacts
      exact absurd still (Nat.ne_of_lt (counter_lt_bump mem))

end Steps

/-! ### What is shown of a directory, and under which counter -/

section Rendering

variable (stamp : Instant → Text) (server : Server) (repository : Int) (dir : List Text)

def groupBody : Option Text :=
  (server.client repository (['/'].intercalate dir)).bind fun doc =>
    if doc.plugins.isEmpty then none else some (GroupLevel.mk doc.plugins).render

/-- The counter that the `ETag` of the directory's document shows. -/
def shownCounter : Nat :=
  match MetadataLevel.of dir with
  | some (.snapshot gav) =>
      (server.tables.counter repository (scopeSnapshot gav.ga gav.version)).value
  | some (.artifact group artifact) =>
      if Shown server repository (group ++ ':' :: artifact) then
        (server.tables.counter repository (scopeArtifact (group ++ ':' :: artifact))).value
      else
        (server.tables.counter repository (scopeGroup (dotted dir))).value
  | none => (server.tables.counter repository (scopeGroup (dotted dir))).value

def artifactBody (group artifact : Text) : Text :=
  (artifactLevel stamp group artifact
    (visible (server.tables.artifact repository (group ++ ':' :: artifact)))
    (server.hints repository (hintsDir group artifact))).render

/-- The body of the directory's document. -/
def shownBody : Option Text :=
  match MetadataLevel.of dir with
  | some (.snapshot gav) =>
      (announced (snapshotUnits server.tables repository gav.ga gav.version)).map fun (build, unit) =>
        (snapshotLevel stamp gav build unit).render
  | some (.artifact group artifact) =>
      if Shown server repository (group ++ ':' :: artifact) then
        some (artifactBody stamp server repository group artifact)
      else
        groupBody server repository dir
  | none => groupBody server repository dir

end Rendering

section Tags

variable {stamp : Instant → Text} {packages : Packages} {server : Server} {repository : Int}
  {dir : List Text} {ga scope : Text} {r : Rendered}

theorem dot_notMem_toDigits (n : Nat) : '.' ∉ Nat.toDigits 10 n := fun mem =>
  absurd (Nat.isDigit_of_mem_toDigits (by decide) (by decide) mem) (by decide)

theorem dot_notMem_versionStamp : '.' ∉ (versionStamp packages ga).1 := by
  rw [versionStamp]
  split
  · decide
  · simp [dot_notMem_toDigits]

theorem etagOf_counter {versions versions' : Text} {n m : Nat} (plain : '.' ∉ versions)
    (same : etagOf versions n = etagOf versions' m) : n = m := by
  rw [etagOf, etagOf, List.append_left_inj] at same
  have front : '.' ∉ "\"".toList ++ versions := by simpa using plain
  have digits := ((List.append_cons_inj_of_notMem front (dot_notMem_toDigits n)).mp same).2.2
  rw [← Nat.ofDigitChars_ten_toDigits (n := n), digits, Nat.ofDigitChars_ten_toDigits]

/-- The tag is the one of the counter, under some stamp of the versions. -/
def Tagged (tag : Text) (counter : Nat) : Prop :=
  ∃ versions, '.' ∉ versions ∧ tag = etagOf versions counter

theorem validators_tagged :
    Tagged (validators packages server repository ga scope).etag
      (server.tables.counter repository scope).value :=
  ⟨(versionStamp packages ga).1, dot_notMem_versionStamp, rfl⟩

theorem groupMetadata_shown (found : groupMetadata packages server repository dir = some r) :
    groupBody server repository dir = some r.body ∧
      Tagged r.etag (server.tables.counter repository (scopeGroup (dotted dir))).value := by
  simp only [groupMetadata] at found
  split at found
  · cases found
  · rename_i doc kept
    split at found
    · cases found
    · rename_i any
      cases found
      refine ⟨?_, validators_tagged⟩
      rw [groupBody, kept, Option.bind_some, if_neg any]
      rfl

/-- A document that is answered has the body that is shown, under the counter that is shown. -/
theorem metadata_shown (found : metadata stamp packages server repository dir = some r) :
    shownBody stamp server repository dir = some r.body ∧
      Tagged r.etag (shownCounter server repository dir) := by
  rw [metadata] at found
  rw [shownBody, shownCounter]
  cases level : MetadataLevel.of dir with
  | none =>
      simp only [level] at found ⊢
      exact groupMetadata_shown found
  | some kind =>
      cases kind with
      | snapshot gav =>
          simp only [level, snapshotMetadata] at found ⊢
          split at found
          · cases found
          · rename_i build unit newest
            cases found
            refine ⟨?_, validators_tagged⟩
            rw [snapshotUnits, newest]
            rfl
      | artifact group artifact =>
          simp only [level] at found ⊢
          by_cases shown : Shown server repository (group ++ ':' :: artifact)
          · have some : ¬(visible (server.tables.artifact repository
                (group ++ ':' :: artifact))).isEmpty = true := by simpa [Shown] using shown
            simp only [artifactMetadata, if_neg some] at found
            cases found
            rw [if_pos shown, if_pos shown]
            exact ⟨rfl, validators_tagged⟩
          · have none : (visible (server.tables.artifact repository
                (group ++ ':' :: artifact))).isEmpty = true := by simpa [Shown] using shown
            simp only [artifactMetadata, if_pos none] at found
            rw [if_neg shown, if_neg shown]
            exact groupMetadata_shown found

end Tags

/-! ### Whole runs -/

section Covers

variable {env : Env} {window : Int} {u v : Server} {act : ServerAct} {stamp : Instant → Text}
  {repository : Int} {dir : List Text}

/-- The counter of a document does not go back, and while it stands still no body comes up. -/
def Covers (stamp : Instant → Text) (repository : Int) (dir : List Text) (u v : Server) : Prop :=
  shownCounter u repository dir ≤ shownCounter v repository dir ∧
    (shownCounter u repository dir = shownCounter v repository dir →
      ∀ body, shownBody stamp v repository dir = some body →
        shownBody stamp u repository dir = some body)

theorem Took.groupBody (took : Took env window u act v) (plain : ∀ segment ∈ dir, '/' ∉ segment)
    (still : (u.tables.counter repository (scopeGroup (dotted dir))).value =
      (v.tables.counter repository (scopeGroup (dotted dir))).value) {body : Text}
    (shown : groupBody v repository dir = some body) : groupBody u repository dir = some body := by
  obtain ⟨doc, found, rendered⟩ := Option.bind_eq_some_iff.mp shown
  have any : doc.plugins ≠ [] := by
    intro none
    simp [none] at rendered
  rw [Maven.groupBody, took.plugins plain still found any]
  exact rendered

theorem Took.covers (standing : Standing env window u) (standing' : Standing env window v)
    (took : Took env window u act v) (covered : Covered env u act v)
    (plain : ∀ segment ∈ dir, '/' ∉ segment) : Covers stamp repository dir u v := by
  cases level : MetadataLevel.of dir with
  | none =>
      simp only [Covers, shownCounter, shownBody, level]
      exact ⟨took.counters _ _, fun still body shown => took.groupBody plain still shown⟩
  | some found =>
      cases found with
      | snapshot gav =>
          simp only [Covers, shownCounter, shownBody, level]
          have snap : isSnapshot gav.version = true := level_snapshot_spec level
          refine ⟨took.counters _ _, fun still body shown => ?_⟩
          rw [took.snapshotUnits_eq standing standing' snap still] at shown
          exact shown
      | artifact group artifact =>
          simp only [Covers, shownCounter, shownBody, level]
          by_cases before : Shown u repository (group ++ ':' :: artifact)
          · have after := took.shown standing standing' before
            rw [if_pos before, if_pos after, if_pos before, if_pos after]
            refine ⟨took.counters _ _, fun still body shown => ?_⟩
            rw [artifactBody, took.artifact_eq standing standing' still,
              took.hints covered.1 plain level before still] at shown
            exact shown
          · by_cases after : Shown v repository (group ++ ':' :: artifact)
            · -- the directory becomes an artifact's: its counter is beyond the group's
              rw [if_neg before, if_pos after, if_pos after, if_neg before]
              have caught := covered.2 repository group artifact before after
              have grown := took.counters repository (scopeArtifact (group ++ ':' :: artifact))
              have moved : (u.tables.counter repository
                  (scopeArtifact (group ++ ':' :: artifact))).value ≠
                  (v.tables.counter repository (scopeArtifact (group ++ ':' :: artifact))).value := by
                intro still
                rw [Shown, took.artifact_eq standing standing' still] at after
                exact before after
              have named : dotted dir = group ++ '.' :: artifact := by
                obtain ⟨above, nonempty, rfl, rfl⟩ := level_artifact_spec level
                exact intercalate_concat nonempty
              rw [named]
              refine ⟨by omega, fun still => absurd still (by omega)⟩
            · rw [if_neg before, if_neg after, if_neg after, if_neg before]
              exact ⟨took.counters _ _, fun still body shown => took.groupBody plain still shown⟩

/-- In every run of deposits, documents, promotions and decisions in which each step is covered by the
counters, two documents of one directory that carry the same `ETag` have the same body. -/
theorem equal_etags_name_one_body {before after : List ServerAct} {s t : Server} {path : Text}
    {sum : Option SumAlgorithm} {packages packages' : Packages} {old new : Rendered}
    (reached : Run (Server.step env window) (Covered env) Server.init before s)
    (went : Run (Server.step env window) (Covered env) s after t)
    (asked : MavenPath.parse path = .ok ⟨.metadata dir, sum⟩)
    (first : metadata stamp packages s repository dir = some old)
    (second : metadata stamp packages' t repository dir = some new)
    (same : old.etag = new.etag) : old.body = new.body := by
  have start : Standing env window s :=
    reached.invariant (Standing env window) Standing.init fun _ _ _ standing taken _ =>
      (standing.step taken).1
  have plain := parse_metadata asked
  have stamped : Covers stamp repository dir s t := by
    apply went.stamped (Standing env window) start
    intro u act v standing taken covered
    obtain ⟨standing', took⟩ := standing.step taken
    exact ⟨standing', took.covers standing standing' covered plain⟩
  obtain ⟨oldBody, versions, plainStamp, oldTag⟩ := metadata_shown first
  obtain ⟨newBody, versions', -, newTag⟩ := metadata_shown second
  have counters : shownCounter s repository dir = shownCounter t repository dir :=
    etagOf_counter plainStamp (by rw [← oldTag, ← newTag, same])
  have back := stamped.2 counters new.body newBody
  exact Option.some.inj (oldBody.symm.trans back)

end Covers

/-! ### Two runs -/

/-- A document of a client that says nothing, one with a release, and one with another release and a
plugin. -/
def bare : Bytes := "<metadata/>".toUTF8.data.toList

def released : Bytes :=
  "<metadata><versioning><release>1.0</release></versioning></metadata>".toUTF8.data.toList

def plugged : Bytes :=
  ("<metadata><versioning><release>2.0</release></versioning><plugins><plugin>" ++
    "<prefix>acme</prefix><artifactId>acme-maven-plugin</artifactId>" ++
    "</plugin></plugins></metadata>").toUTF8.data.toList

/-- The digests of `bare`. -/
def bareDigests : Digests where
  sha1 := "1126a334b87160e2fcad658dec76c2a23299d348".toList
  md5 := "5481ab7c3b6dd42d812637349d97800d".toList
  sha256 := "42e78c32e7d5fa6b33d2afb087ebef4524ceae599952001ae7d04f8f32c68741".toList
  sha512 := ("b79d5c7ad469685066efa8156e2107f452acd255b0d575ea0d178b926a5506c9" ++
    "c49dee7d79dd4ec2a0c2c711287a38523c955da90ce9ed74d50d586356217799").toList

/-- The digests of `released`. -/
def releasedDigests : Digests where
  sha1 := "0cdd01a35078299239403155bee0f3f1b1b97726".toList
  md5 := "66aa49e46633f226984f123691b8009c".toList
  sha256 := "3bee114fbdb8629e27bbee9b134cd5cbcce5f7df33f35443c8a3c87754154579".toList
  sha512 := ("450806ae1eb4d9e7c3d2f1f5df296971d66ecfc11049784045a722b6bd162f73" ++
    "d3ae87472f02906a6422cb35bf4984fd69e2b4ea528da5127413eac6888a1b5f").toList

/-- The digests of `plugged`. -/
def pluggedDigests : Digests where
  sha1 := "b1f3306a2e7eb6f6eb779923cb9cc641e41fa978".toList
  md5 := "2587f7033e191bd1df117008c944a9b2".toList
  sha256 := "597b1a9432bc2b63292c569c10650574e3c1ca31c9f43eeaedb7f8da96106deb".toList
  sha512 := ("c1138d1e81379d98781968d18c38ba1095b5f713e916069330baa90d79eb5c1f" ++
    "81303648d1933ca3c556a0bb8f118a68935ae20df3be382bb3bf45eea6cbed8c").toList

/-- The hash functions and the parser, as they answer for these bodies. -/
def documents : Env where
  digestsOf body :=
    if body = project then pomDigests
    else if body = released then releasedDigests
    else if body = plugged then pluggedDigests
    else if body = bare then bareDigests
    else default
  parse body :=
    if body = bare then .ok ⟨none, none, []⟩
    else if body = released then .ok ⟨some "1.0".toList, none, []⟩
    else if body = plugged then
      .ok ⟨some "2.0".toList, none, [⟨"acme".toList, "acme-maven-plugin".toList, []⟩]⟩
    else .error "the root element is not <metadata>".toList

/-- The POM of a version of `lib` is put, and shows it. -/
def shownBy (i : Nat) (version : Text) : List ServerAct :=
  let name := "lib-".toList ++ version ++ ".pom".toList
  [.put 1 ("com/acme/lib/".toList ++ version ++ '/' :: name) alice project (.ok ()) 0,
    .answer i (.received (.ok (10, pomDigests))), .answer i (.done (withPins [])),
    .answer i (.placed (.ok [pinOf name])), .answer i (.done (withPins [])),
    .answer i (.done (withPins [name]))]

def libPath : Text := "com/acme/lib/maven-metadata.xml".toList

def libDir : List Text := ["com".toList, "acme".toList, "lib".toList]

/-- Every instant of these runs is the epoch. -/
def epoch : Instant → Text := fun _ => "19700101000000".toList

/-- A document is no plugin list and no snapshot's: its hints are read where it is put. -/
def inPlace (env : Env) : ServerAct → Bool
  | .put _ path _ body _ _ =>
      match MavenPath.parse path, env.parse body with
      | .ok ⟨.metadata dir, none⟩, .ok parsed =>
          parsed.plugins.isEmpty && (MetadataLevel.of dir).all fun level =>
            match level with
            | .snapshot _ => false
            | .artifact .. => true
      | _, _ => true
  | _ => true

theorem keepsHints_of_inPlace {env : Env} {u : Server} {act : ServerAct}
    (plain : inPlace env act = true) : KeepsHints env u act := by
  cases act with
  | put repository path principal body gate now =>
      intro dir parsed is reads kind
      simp only [inPlace, is, reads, Bool.and_eq_true, List.isEmpty_iff] at plain
      rcases kind with any | ⟨gav, level⟩
      · exact absurd plain.1 any
      · rw [level] at plain
        exact absurd plain.2 (by simp)
  | reconcile | decide | answer => trivial

/-- Nothing is counted yet, or no unit is written. -/
def Quiet (env : Env) (u : Server) (act : ServerAct) (v : Server) : Prop :=
  inPlace env act = true ∧ (u.tables.counters = [] ∨
    (v.tables.units = u.tables.units ∧ v.tables.files = u.tables.files))

instance (env : Env) (u : Server) (act : ServerAct) (v : Server) : Decidable (Quiet env u act v) :=
  inferInstanceAs (Decidable (_ ∧ _))

theorem Quiet.covered {env : Env} {u v : Server} {act : ServerAct} (quiet : Quiet env u act v) :
    Covered env u act v := by
  refine ⟨keepsHints_of_inPlace quiet.1, fun repository group artifact before after => ?_⟩
  rcases quiet.2 with none | ⟨units, files⟩
  · simp [Tables.counter, none]
  · have same : Shown v repository (group ++ ':' :: artifact) ↔
        Shown u repository (group ++ ':' :: artifact) := by
      simp only [Shown, Tables.artifact, Tables.artifactRows, Tables.filesOf, units, files]
    exact absurd (same.mp after) before

theorem covered_of_quiet {env : Env} {window : Int} {s t : Server} {acts : List ServerAct}
    (run : Run (Server.step env window) (Quiet env) s acts t) :
    Run (Server.step env window) (Covered env) s acts t :=
  run.strengthen (fun _ => True) trivial fun _ _ _ _ _ quiet => ⟨trivial, quiet.covered⟩

/-- A document is put in another directory. -/
def otherDocument : List ServerAct :=
  [.put 1 "org/other/maven-metadata.xml".toList alice bare (.ok ()) 0]

/-- It leaves the tag of `lib`, and its body. -/
theorem other_document_leaves_the_tag :
    ∃ (s t : Server) (old new : Rendered),
      metadata epoch (fun _ => none) s 1 libDir = some old ∧
      metadata epoch (fun _ => none) t 1 libDir = some new ∧ s.clients ≠ t.clients ∧
      old.etag = new.etag ∧ old.body = new.body := by
  obtain ⟨s, reached, tested⟩ := Run.of_test (Server.step documents 0) (Quiet documents) Server.init
    (shownBy 0 "1.0".toList)
    (fun s => (exec (checked (Server.step documents 0) (Quiet documents)) s otherDocument).any
      fun t => s.clients != t.clients &&
        ((metadata epoch (fun _ => none) s 1 libDir).any fun old =>
          (metadata epoch (fun _ => none) t 1 libDir).any fun new => old.etag == new.etag))
    (by decide +kernel)
  simp only [Option.any_eq_true, Bool.and_eq_true, bne_iff_ne, ne_eq, beq_iff_eq] at tested
  obtain ⟨t, played, apart, old, first, new, second, same⟩ := tested
  have went : Run (Server.step documents 0) (Quiet documents) s otherDocument t :=
    Run.of_exec_from (Server.step documents 0) (Quiet documents) Run.nil played
  have asked : MavenPath.parse libPath = .ok ⟨.metadata libDir, none⟩ := by decide +kernel
  exact ⟨s, t, old, new, first, second, apart, same, equal_etags_name_one_body
    (covered_of_quiet reached) (covered_of_quiet went) asked first second same⟩

/-- Two versions are shown, and a document names the older one as the release. -/
def releasedOlder : List ServerAct :=
  shownBy 0 "1.0".toList ++ shownBy 1 "2.0".toList ++ [.put 1 libPath alice released (.ok ()) 0]

/-- A document with a plugin in it names the newer one. -/
def releasedNewer : List ServerAct := [.put 1 libPath alice plugged (.ok ()) 0]

/-- It moves the counter of the group `com.acme.lib` and not the one of `com.acme:lib`, whose document
names another release under the tag it had. -/
theorem plugin_list_changes_the_release :
    ¬∀ (env : Env) (window : Int) (stamp : Instant → Text) (before after : List ServerAct)
      (s t : Server) (path : Text) (sum : Option SumAlgorithm) (repository : Int) (dir : List Text)
      (packages packages' : Packages) (old new : Rendered),
      Run (Server.step env window) Any Server.init before s →
      Run (Server.step env window) Any s after t →
      MavenPath.parse path = .ok ⟨.metadata dir, sum⟩ →
      metadata stamp packages s repository dir = some old →
      metadata stamp packages' t repository dir = some new →
      old.etag = new.etag → old.body = new.body := by
  intro all
  obtain ⟨s, reached, tested⟩ := Run.of_test (Server.step documents 0) Any Server.init
    releasedOlder
    (fun s => (exec (checked (Server.step documents 0) Any) s releasedNewer).any
      fun t => (metadata epoch (fun _ => none) s 1 libDir).any fun old =>
          (metadata epoch (fun _ => none) t 1 libDir).any fun new =>
            old.etag == new.etag && old.body != new.body)
    (by decide +kernel)
  simp only [Option.any_eq_true, Bool.and_eq_true, bne_iff_ne, ne_eq, beq_iff_eq] at tested
  obtain ⟨t, played, old, first, new, second, same, apart⟩ := tested
  have went : Run (Server.step documents 0) Any s releasedNewer t :=
    Run.of_exec_from (Server.step documents 0) Any Run.nil played
  have asked : MavenPath.parse libPath = .ok ⟨.metadata libDir, none⟩ := by decide +kernel
  exact apart (all documents 0 epoch releasedOlder releasedNewer s t libPath none 1 libDir
    (fun _ => none) (fun _ => none) old new reached went asked first second same)

end OpenCargo.Maven
