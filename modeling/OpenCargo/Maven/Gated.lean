/-
Module: OpenCargo.Maven.Gated
Purpose: What a deposit makes visible has passed the publish gate. The gate is asked about a main POM, by
  its parsed path; a unit is shown with a file that is named like a POM. Where every file so named is a
  main POM, a unit a deposit shows holds one, and its bytes are bytes the gate let through.
Trusted boundary: none
Main exports: MainPomsOnly, Guarded, Guarded.step, shown_units_hold_a_gated_pom
-/
import OpenCargo.Maven.Safety
import OpenCargo.Maven.Server

namespace OpenCargo.Maven

open OpenCargo.Lib

/-- A stored file is a main POM of the unit, as a path names it, and its bytes passed the gate. -/
def GatedPom (env : Env) (passed : List (Gav × Bytes)) (key : UnitKey) (f : StoredFile) : Prop :=
  ∃ path file body, MavenPath.parse path = .ok ⟨.file file, none⟩ ∧ file.isPom = true ∧
    unitOf key.repository file = key ∧ file.filename = f.filename ∧
    (file.gav, body) ∈ passed ∧ f.digests = env.digestsOf body

/-- A file that is put under a POM's name is a main POM: it has no classifier, and its extension is
`pom`. -/
def MainPomsOnly : ServerAct → Prop
  | .put _ path _ _ _ _ =>
      ∀ file, MavenPath.parse path = .ok ⟨.file file, none⟩ → isPom file.filename = true →
        file.isPom = true
  | _ => True

/-- A request of a client: a file, or a checksum of one. -/
def Request.isDeposit : Request → Bool
  | .file .. | .sum .. => true
  | .promote .. | .decide .. => false

/-- A deposit's step makes the unit visible. -/
def Shows (u : Server) (act : ServerAct) (v : Server) (key : UnitKey) (now : Unit) : Prop :=
  (∃ i luck served m, act = .answer i luck ∧ u.pool.calls[i]? = some (served, m) ∧
    served.request.isDeposit = true) ∧
  (u.unit key).any Unit.visible = false ∧ v.unit key = some now ∧ now.visible = true

/-- A unit that a deposit makes visible holds its main POM, whose bytes passed the gate. -/
def ShowsGated (env : Env) (u : Server) (act : ServerAct) (v : Server) : Prop :=
  ∀ key now, Shows u act v key now →
    ∃ f, now.file f.filename = some f ∧ GatedPom env v.passed key f

/-! ### What a deposit is known to put -/

/-- The file a call deposits was named by a path; under a POM's name it is a main POM that passed. -/
def Submitted (passed : List (Gav × Bytes)) (served : Served) : Prop :=
  ∀ target now, served.request = .file target now →
    ∃ path file repository, MavenPath.parse path = .ok ⟨.file file, none⟩ ∧
      target.unit = unitOf repository file ∧ target.filename = file.filename ∧
      (isPom target.filename = true → file.isPom = true ∧ (file.gav, served.body) ∈ passed)

structure Guarded (env : Env) (window : Int) (server : Server) : Prop where
  standing : Standing env window server
  submitted : ∀ call ∈ server.pool.calls, Submitted server.passed call.1
  poms : ∀ key unit name f, server.unit key = some unit → unit.file name = some f →
    isPom name = true → GatedPom env server.passed key f

section Steps

variable {env : Env} {window : Int} {u v : Server} {act : ServerAct}
  {passed passed' : List (Gav × Bytes)}

theorem GatedPom.mono {key : UnitKey} {f : StoredFile} (gated : GatedPom env passed key f)
    (grown : passed ⊆ passed') : GatedPom env passed' key f := by
  obtain ⟨path, file, body, parsed, pom, own, named, through, same⟩ := gated
  exact ⟨path, file, body, parsed, pom, own, named, grown through, same⟩

theorem Submitted.mono {served : Served} (submitted : Submitted passed served)
    (grown : passed ⊆ passed') : Submitted passed' served := by
  intro target now request
  obtain ⟨path, file, repository, parsed, own, named, pom⟩ := submitted target now request
  exact ⟨path, file, repository, parsed, own, named, fun is => ⟨(pom is).1, grown (pom is).2⟩⟩

theorem Guarded.init : Guarded env window Server.init where
  standing := Standing.init
  submitted := fun _ mem => by cases mem
  poms := fun _ _ _ _ found => by cases found

theorem Submitted.gated {served : Served} {new : NewFile} {now : Instant}
    (submitted : Submitted passed served)
    (carried : CarriesFile (served.Good env) served.request new)
    (pom : isPom new.filename = true) :
    GatedPom env passed served.request.key (new.stored now) := by
  obtain ⟨target, instant, request, filename, good⟩ := carried
  obtain ⟨path, file, repository, parsed, own, named, main⟩ := submitted target instant request
  rw [filename] at pom
  have key : served.request.key = unitOf repository file := by
    rw [request]
    exact own
  refine ⟨path, file, served.body, parsed, (main pom).1, ?_, ?_, (main pom).2, good⟩
  · rw [key]
    rfl
  · rw [NewFile.stored, filename, named]

theorem Moves.poms {served : Served} {s t : Tables} (submitted : Submitted passed served)
    (moves : Moves (served.Good env) served.request s t)
    (poms : ∀ key unit name f, s.unit key = some unit → unit.file name = some f →
      isPom name = true → GatedPom env passed key f) :
    ∀ key unit name f, t.unit key = some unit → unit.file name = some f →
      isPom name = true → GatedPom env passed key f := by
  intro key unit name f found filed pom
  have elsewhere : (∀ key, key ≠ served.request.key → t.held key = s.held key) →
      key ≠ served.request.key → GatedPom env passed key f := by
    intro others apart
    rw [unit_eq_held, others key apart, ← unit_eq_held] at found
    exact poms key unit name f found filed pom
  cases moves with
  | same kept => exact poms key unit name f (kept ▸ found) filed pom
  | @changed sent after carried others found' advanced _ =>
      by_cases own : key = served.request.key
      · subst own
        cases found.symm.trans found'
        rcases (advanced.file name f).mp filed with ⟨new, stored, named, rfl⟩ | ⟨_, old, was, held⟩
        · exact submitted.gated (carried new stored) (named ▸ pom)
        · exact poms _ old name f was held pom
      · exact elsewhere others own
  | @emptied _ before after others found' empties _ =>
      by_cases own : key = served.request.key
      · subst own
        cases found.symm.trans found'
        simp [Unit.file, empties.files] at filed
      · exact elsewhere others own

theorem Guarded.step (guarded : Guarded env window u) (main : MainPomsOnly act)
    (taken : u.step env window act = some v) :
    Guarded env window v ∧ Took env window u act v := by
  obtain ⟨standing, took⟩ := guarded.standing.step taken
  refine ⟨?_, took⟩
  cases took with
  | refused same => exact same ▸ guarded
  | @deposit repository path principal body gate now file passed came parsed grown gated begun =>
      subst came
      refine ⟨standing, ?_, ?_⟩
      · subst begun
        intro call mem
        rcases List.mem_append.mp mem with old | new
        · exact (guarded.submitted call old).mono grown
        · cases List.mem_singleton.mp new
          intro target instant request
          cases request
          refine ⟨path, file, repository, parsed, rfl, rfl, fun pom => ?_⟩
          have isMain := main file parsed pom
          exact ⟨isMain, gated isMain⟩
      · subst begun
        intro key unit name f found filed pom
        exact (guarded.poms key unit name f found filed pom).mono grown
  | @began served other begun =>
      subst begun
      refine ⟨standing, ?_, guarded.poms⟩
      intro call mem
      rcases List.mem_append.mp mem with old | new
      · exact guarded.submitted call old
      · cases List.mem_singleton.mp new
        exact fun target now request => absurd request (other target now)
  | recorded came parsed read recorded =>
      subst recorded
      exact ⟨standing, guarded.submitted, guarded.poms⟩
  | @moved i luck served m came call does moves requests clients passed =>
      have submitted := guarded.submitted _ (List.mem_of_getElem? call)
      refine ⟨standing, ?_, ?_⟩
      · intro other mem
        obtain ⟨m, before⟩ := requests other mem
        rw [passed]
        exact guarded.submitted (other.1, m) before
      · rw [passed]
        exact moves.poms submitted guarded.poms

theorem Written.shows_pom {r : Request} {before : Option Unit} {after : Unit}
    (written : Written window r before after) (deposit : r.isDeposit = true)
    (named : ∀ unit, before = some unit → ∀ f ∈ unit.files, unit.file f.filename = some f)
    (hidden : before.any Unit.visible = false) (shown : after.visible = true) :
    ∃ f, after.file f.filename = some f ∧ isPom f.filename = true := by
  cases written with
  | refused request => simp [request, Request.isDeposit] at deposit
  | @changed sent sends advanced =>
      have reveals : sent.reveal = true := by
        have was : before.any (fun unit => unit.visibleAt.isSome) = false := by
          cases before with
          | none => rfl
          | some unit => simpa [Unit.visible, sends.unrefused] using hidden
        simp only [Unit.visible, Bool.and_eq_true, advanced.visibleAt, was] at shown
        simpa using shown.1
      cases r with
      | file target now => exact sends.shows_pom advanced named reveals
      | sum target algorithm value now => cases sends <;> cases reveals
      | promote key scopes now => cases deposit
      | decide key decision scopes now => cases deposit

theorem Guarded.shows (guarded : Guarded env window u) (main : MainPomsOnly act)
    (taken : u.step env window act = some v) :
    Guarded env window v ∧ ShowsGated env u act v := by
  obtain ⟨after, took⟩ := guarded.step main taken
  refine ⟨after, ?_⟩
  rintro key now ⟨⟨i, luck, served, m, came, call, deposit⟩, hidden, found, shown⟩
  subst came
  have as_before : v.unit key = u.unit key → False := by
    intro same
    rw [← same, found] at hidden
    simp [shown] at hidden
  cases took with
  | refused same => exact absurd (by rw [same]) as_before
  | deposit came => cases came
  | began _ begun => exact absurd (by rw [begun]; rfl) as_before
  | recorded came => cases came
  | moved came' call' does moves requests clients passed =>
      cases came'
      cases call.symm.trans call'
      rcases does.unit key with same | ⟨own, next, found', written⟩
      · exact absurd same as_before
      · cases found.symm.trans found'
        have named : ∀ unit, u.tables.unit key = some unit →
            ∀ f ∈ unit.files, unit.file f.filename = some f :=
          fun unit was f mem => guarded.standing.kept.inv.file_of_mem was mem
        obtain ⟨f, filed, pom⟩ := written.shows_pom deposit named hidden shown
        exact ⟨f, filed, after.poms key now _ f found filed pom⟩

end Steps

/-! ### Whole runs -/

section Runs

variable {env : Env} {window : Int}

/-- In every run of deposits, promotions and decisions in which a file put under a POM's name is a main
POM, each unit a deposit makes visible holds its main POM, and the bytes of that POM passed the publish
gate. -/
theorem shown_units_hold_a_gated_pom {acts : List ServerAct} {s : Server}
    (run : Run (Server.step env window) (fun _ act _ => MainPomsOnly act) Server.init acts s) :
    Run (Server.step env window) (ShowsGated env) Server.init acts s :=
  run.strengthen (Guarded env window) Guarded.init fun _ _ _ guarded taken main =>
    guarded.shows main taken

/-- The body of a POM. -/
def project : Bytes := "<project/>".toUTF8.data.toList

/-- Hash functions, as they answer for `project`, and a parser that reads no metadata there. -/
def projectOnly : Env where
  digestsOf body := if body = project then pomDigests else default
  parse _ := .error "no metadata element".toList

/-- The deposit of `project` at a path of `lib`, until its commit. -/
def projectPlaced (path filename : Text) : List ServerAct :=
  [.put 1 path alice project (.ok ()) 0, .answer 0 (.received (.ok (10, pomDigests))),
    .answer 0 (.done (withPins [])), .answer 0 (.placed (.ok [pinOf filename])),
    .answer 0 (.done (withPins []))]

def projectCommitted (filename : Text) : ServerAct := .answer 0 (.done (withPins [filename]))

def pomPath : Text := "com/acme/lib/1.0/lib-1.0.pom".toList

def pomFile : ArtifactFile where
  gav := ⟨"com.acme".toList, "lib".toList, "1.0".toList⟩
  filename := pomName
  build := []
  classifier := none
  extension := "pom".toList

/-- A main POM is put, and shows its unit. -/
theorem main_pom_shows_its_unit :
    ∃ s unit, Run (Server.step projectOnly 0) (ShowsGated projectOnly) Server.init
        (projectPlaced pomPath pomName ++ [projectCommitted pomName]) s ∧
      s.unit lib = some unit ∧ unit.visible = true ∧ s.passed = [(pomFile.gav, project)] := by
  obtain ⟨s, run, tested⟩ := Run.of_test (Server.step projectOnly 0) Any Server.init
    (projectPlaced pomPath pomName ++ [projectCommitted pomName])
    (fun s => (s.unit lib).any Unit.visible && s.passed == [(pomFile.gav, project)])
    (by decide +kernel)
  have parsed : MavenPath.parse pomPath = .ok ⟨.file pomFile, none⟩ := by decide +kernel
  have main : ∀ act ∈ projectPlaced pomPath pomName ++ [projectCommitted pomName],
      MainPomsOnly act := by
    intro act mem
    cases act with
    | put repository path principal body gate now =>
        have own : path = pomPath := by
          simp only [projectPlaced, projectCommitted, List.cons_append, List.nil_append,
            List.mem_cons, ServerAct.put.injEq, reduceCtorEq, List.not_mem_nil, or_false] at mem
          exact mem.2.1
        subst own
        intro file is _
        cases is.symm.trans parsed
        decide +kernel
    | reconcile | decide | answer => trivial
  simp only [Bool.and_eq_true, Option.any_eq_true, beq_iff_eq] at tested
  obtain ⟨⟨unit, found, visible⟩, passed⟩ := tested
  exact ⟨s, unit, shown_units_hold_a_gated_pom (run.of_forall main), found, visible, passed⟩

def sourcesName : Text := "lib-1.0-sources.pom".toList

def sourcesPath : Text := "com/acme/lib/1.0/lib-1.0-sources.pom".toList

/-- A file whose name ends in `.pom` behind a classifier is no main POM, so the gate is not asked; and it
shows the unit. -/
theorem classified_pom_shows_its_unit :
    ¬∀ (env : Env) (window : Int) (acts : List ServerAct) (s t : Server) (act : ServerAct),
      Run (Server.step env window) Any Server.init acts s →
      Server.step env window s act = some t → ShowsGated env s act t := by
  intro all
  obtain ⟨s, run, tested⟩ := Run.of_test (Server.step projectOnly 0) Any Server.init
    (projectPlaced sourcesPath sourcesName)
    (fun s => !(s.unit lib).any Unit.visible &&
      ((s.pool.calls[0]?).any (fun call => call.1.request.isDeposit) &&
        (Server.step projectOnly 0 s (projectCommitted sourcesName)).any fun t =>
          (t.unit lib).any Unit.visible && t.passed.isEmpty)) (by decide +kernel)
  simp only [Bool.and_eq_true, Bool.not_eq_true', Option.any_eq_true, List.isEmpty_iff] at tested
  obtain ⟨hidden, ⟨⟨served, m⟩, call, deposit⟩, t, taken, ⟨unit, found, visible⟩, ungated⟩ := tested
  have shows : Shows s (projectCommitted sourcesName) t lib unit :=
    ⟨⟨0, _, served, m, rfl, call, deposit⟩, hidden, found, visible⟩
  obtain ⟨f, _, path, file, body, _, _, _, _, through, _⟩ :=
    all projectOnly 0 _ s t (projectCommitted sourcesName) run taken lib unit shows
  rw [ungated] at through
  cases through

end Runs

end OpenCargo.Maven
