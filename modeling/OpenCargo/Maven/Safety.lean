/-
Module: OpenCargo.Maven.Safety
Purpose: What holds of Maven's units in every run of any deposits, promotions and decisions: a visible
  unit is frozen but for what its depositor adds, a refused one stays empty, a contested one is shown by
  its depositor or by an administrator, and a declaration agrees with the file it is about.
Trusted boundary: none
Main exports: Written.lawful, visible_units_are_frozen, declarations_agree_with_files
-/
import OpenCargo.Maven.Guarantee

namespace OpenCargo.Maven

open OpenCargo.Lib

/-! ### What a request sends, by what it carries -/

section Sent

variable {window : Int} {r : Request} {before : Option Unit} {unit after : Unit}
  {sent : UnitChange}

theorem Sends.unrefused (sends : Sends window r (some unit) sent) : unit.refused = false := by
  cases sends with
  | stored judged => exact (judgeFile_store judged).unrefused
  | contestedFile judged =>
      obtain ⟨_, same, pending⟩ := judgeFile_contest judged
      cases same
      exact pending.unrefused
  | recorded judged => exact (judgeSum_record judged).unrefused
  | contestedSum judged =>
      obtain ⟨_, same, pending⟩ := judgeSum_contest judged
      cases same
      exact pending.unrefused
  | reconciled judged => exact (promotable_spec judged).1.unrefused
  | promoted pending _ => exact pending.unrefused

/-- A file is sent by a deposit of it, under its principal's name. -/
structure Deposits (r : Request) (before : Option Unit) (sent : UnitChange) (new : NewFile)
    (target : Target) : Prop where
  request : ∃ now, r = .file target now
  filename : new.filename = target.filename
  depositor : new.depositor = target.principal
  first : sent.depositor = target.principal
  stores : ∀ unit, before = some unit →
    Stores unit target.filename target.principal new.digests target.pom sent.reveal

theorem Sends.deposits {new : NewFile} (sends : Sends window r before sent)
    (stored : sent.file = some new) : ∃ target, Deposits r before sent new target := by
  cases sends with
  | @stored target now _ _ _ _ _ _ judged =>
      cases stored
      refine ⟨target, ⟨now, rfl⟩, rfl, rfl, rfl, fun unit same => ?_⟩
      cases same
      exact judgeFile_store judged
  | contestedFile => cases stored
  | recorded => cases stored
  | contestedSum => cases stored
  | reconciled => cases stored
  | promoted => cases stored

theorem Sends.declares {d : Declaration} (sends : Sends window r before sent)
    (declared : d ∈ sent.declarations) :
    sent.file = none ∧ ∀ unit, before = some unit →
      ∀ f, unit.file d.filename = some f → f.digests.get d.algorithm = d.value := by
  cases sends with
  | recorded judged =>
      cases List.mem_singleton.mp declared
      refine ⟨rfl, fun unit same f filed => ?_⟩
      cases same
      exact (judgeSum_record judged).agrees f filed
  | stored => cases declared
  | contestedFile => cases declared
  | contestedSum => cases declared
  | reconciled => cases declared
  | promoted => cases declared

/-- Who makes a unit visible: its depositor, with a POM there or coming, the reconciler, when nobody
contests the unit, or an administrator. -/
inductive Reveals (r : Request) (unit : Unit) (sent : UnitChange) : Prop where
  | depositor {target : Target} {now : Instant} {new : NewFile} :
      r = .file target now → sent.file = some new → unit.depositor = target.principal →
      hasPom unit target.pom = true → Reveals r unit sent
  | reconciler : unit.contested = false → Reveals r unit sent
  | administrator {key : UnitKey} {scopes : List Text} {now : Instant} :
      r = .decide key .promote scopes now → Reveals r unit sent

theorem Sends.reveals (sends : Sends window r (some unit) sent) (shown : sent.reveal = true) :
    Reveals r unit sent := by
  cases sends with
  | stored judged =>
      have stores := judgeFile_store judged
      exact .depositor rfl rfl stores.own (stores.pom shown)
  | contestedFile => cases shown
  | recorded => cases shown
  | contestedSum => cases shown
  | reconciled judged => exact .reconciler (promotable_spec judged).2
  | promoted => exact .administrator rfl

end Sent

/-! ### What one write does -/

section Write

variable {window : Int} {r : Request} {before : Option Unit} {unit after : Unit}

theorem Written.unrefused (written : Written window r (some unit) after) :
    unit.refused = false := by
  cases written with
  | changed sends _ => exact sends.unrefused
  | refused _ same pending _ =>
      cases same
      exact pending.unrefused

/-- A visible unit stays visible, with its depositor and each of its files. -/
structure Frozen (unit now : Unit) : Prop where
  visible : now.visible = true
  unrefused : now.refused = false
  depositor : now.depositor = unit.depositor
  files : ∀ name f, unit.file name = some f → now.file name = some f

theorem Written.frozen (written : Written window r (some unit) after)
    (visible : unit.visible = true) : Frozen unit after := by
  cases written with
  | refused _ same pending _ =>
      cases same
      exact absurd visible (by simp [pending.hidden])
  | changed sends advanced =>
      have unrefused : after.refused = false := by
        rw [advanced.refused]
        exact sends.unrefused
      have shown : after.visibleAt.isSome = true := by
        rw [advanced.visibleAt]
        simp only [Unit.visible, Bool.and_eq_true] at visible
        simp [visible.1]
      refine ⟨by simp [Unit.visible, shown, unrefused], unrefused, advanced.depositor,
        fun name f filed => ?_⟩
      rw [advanced.file]
      refine .inr ⟨fun new stored named => ?_, unit, rfl, filed⟩
      -- a file of a visible unit is stored under a new name only
      have ⟨target, deposits⟩ := sends.deposits stored
      have added := (deposits.stores unit rfl).added visible
      rw [← deposits.filename, named, filed] at added
      cases added

theorem Written.added {name : Text} (written : Written window r (some unit) after)
    (absent : unit.file name = none) (held : after.file name ≠ none) :
    ∃ target now, r = .file target now ∧ target.filename = name ∧
      target.principal = unit.depositor := by
  cases filed : after.file name with
  | none => exact absurd filed held
  | some f =>
      cases written with
      | refused _ _ _ emptied => simp [Unit.file, emptied.files] at filed
      | changed sends advanced =>
          rcases (advanced.file name f).mp filed with ⟨new, stored, named, _⟩ | ⟨_, _, same, old⟩
          · have ⟨target, deposits⟩ := sends.deposits stored
            have ⟨now, request⟩ := deposits.request
            exact ⟨target, now, request, deposits.filename.symm.trans named,
              (deposits.stores unit rfl).own.symm⟩
          · cases same
            simp [absent] at old

/-- What holds of every unit: refused, it holds no file; its files are its depositor's; and a
declaration kept for one of them is its digest. -/
structure Unit.Lawful (unit : Unit) : Prop where
  emptied : unit.refused = true → unit.files = []
  own : ∀ name f, unit.file name = some f → f.depositor = unit.depositor
  agrees : ∀ d ∈ unit.declarations, ∀ f, unit.file d.filename = some f →
    f.digests.get d.algorithm = d.value

theorem Written.lawful (written : Written window r before after)
    (lawful : ∀ unit, before = some unit → unit.Lawful) : after.Lawful := by
  cases written with
  | refused _ _ _ emptied =>
      refine ⟨fun _ => emptied.files, fun name f filed => ?_, fun d declared => ?_⟩
      · simp [Unit.file, emptied.files] at filed
      · simp [emptied.declarations] at declared
  | changed sends advanced =>
      refine ⟨fun refused => ?_, fun name f filed => ?_, fun d declared f filed => ?_⟩
      · rw [advanced.refused] at refused
        cases before with
        | none => cases refused
        | some unit => exact absurd refused (by simp [sends.unrefused])
      · rw [advanced.depositor]
        rcases (advanced.file name f).mp filed with ⟨new, stored, _, rfl⟩ | ⟨_, unit, rfl, old⟩
        · have ⟨target, deposits⟩ := sends.deposits stored
          rw [NewFile.stored, deposits.depositor]
          cases before with
          | none => exact deposits.first.symm
          | some unit => exact (deposits.stores unit rfl).own.symm
        · exact (lawful unit rfl).own name f old
      · rcases advanced.declared d declared with sent | ⟨unit, rfl, kept, unfiled⟩
        · -- the declaration came without a file: the file was there
          have ⟨alone, agrees⟩ := sends.declares sent
          rcases (advanced.file _ f).mp filed with ⟨new, stored, _⟩ | ⟨_, unit, same, old⟩
          · simp [alone] at stored
          · exact agrees unit same f old
        · rcases (advanced.file _ f).mp filed with ⟨new, stored, named, rfl⟩ | ⟨_, _, same, old⟩
          · -- the declaration was there first: the file was judged against it
            have ⟨target, deposits⟩ := sends.deposits stored
            have named' := named.symm.trans deposits.filename
            exact (deposits.stores unit rfl).agrees (named' ▸ unfiled new stored named) d kept
              named'
          · cases same
            exact (lawful unit rfl).agrees d kept f old

/-- A deposit of a file shows its unit with a file named like a POM in it: the one it stores, or one
that was there and stays. -/
theorem Sends.shows_pom {target : Target} {now : Instant} {sent : UnitChange}
    (sends : Sends window (.file target now) before sent) (advanced : Advanced sent before after)
    (named : ∀ unit, before = some unit → ∀ f ∈ unit.files, unit.file f.filename = some f)
    (reveals : sent.reveal = true) :
    ∃ f, after.file f.filename = some f ∧ isPom f.filename = true := by
  cases sends with
  | contestedFile => cases reveals
  | @stored _ _ _ size digests pins replaces reveal judged =>
      have reveals : reveal = true := reveals
      have coming : target.pom = true → ∃ f, after.file f.filename = some f ∧
          isPom f.filename = true := by
        intro is
        exact ⟨_, (advanced.file _ _).mpr (.inl ⟨_, rfl, rfl, rfl⟩), is⟩
      cases before with
      | none =>
          cases judged
          exact coming reveals
      | some unit =>
          have pom := (judgeFile_store judged).pom reveals
          simp only [hasPom, Bool.or_eq_true, List.any_eq_true] at pom
          rcases pom with is | ⟨f, held, is⟩
          · exact coming is
          · by_cases same : f.filename = target.filename
            · apply coming
              rw [Target.pom, ← same]
              exact is
            · refine ⟨f, (advanced.file _ _).mpr (.inr ⟨?_, unit, rfl, named unit rfl f held⟩), is⟩
              intro new stored
              cases stored
              exact Ne.symm same

/-- A contested unit is shown with a POM of its depositor in it, by a deposit of the depositor's, or by
an administrator. -/
theorem Written.shown (written : Written window r (some unit) after) (lawful : unit.Lawful)
    (named : ∀ f ∈ unit.files, unit.file f.filename = some f) (contested : unit.contested = true)
    (hidden : unit.visible = false) (shown : after.visible = true) :
    (∃ target now, r = .file target now ∧ target.principal = unit.depositor ∧
      ∃ f, after.file f.filename = some f ∧ isPom f.filename = true ∧
        f.depositor = unit.depositor) ∨
    ∃ key scopes now, r = .decide key .promote scopes now := by
  have kept : after.Lawful := written.lawful fun _ same => Option.some.inj same ▸ lawful
  cases written with
  | refused _ _ _ emptied => simp [Unit.visible, emptied.refused] at shown
  | @changed sent sends advanced =>
      have reveals : sent.reveal = true := by
        have was : unit.visibleAt.isSome = false := by
          simpa [Unit.visible, sends.unrefused] using hidden
        simp only [Unit.visible, Bool.and_eq_true, advanced.visibleAt] at shown
        simpa [was] using shown.1
      cases sends.reveals reveals with
      | reconciler quiet => simp [quiet] at contested
      | administrator request => exact .inr ⟨_, _, _, request⟩
      | @depositor target now new request stored own pom =>
          subst request
          obtain ⟨f, filed, is⟩ := sends.shows_pom advanced
            (fun _ same => Option.some.inj same ▸ named) reveals
          have by_ : f.depositor = unit.depositor :=
            (kept.own _ f filed).trans advanced.depositor
          exact .inl ⟨target, now, rfl, own.symm, f, filed, is, by_⟩

end Write

/-! ### Whole runs -/

section Runs

variable {window : Int}

/-- Each step of a call, on one unit: it is as it was, or it is the call's and was written. -/
theorem Does.unit {r : Request} {s t : Tables} (does : Does window r s t) (key : UnitKey) :
    t.unit key = s.unit key ∨
      (key = r.key ∧ ∃ after, t.unit key = some after ∧ Written window r (s.unit key) after) := by
  rcases does with rfl | ⟨_, others, after, found, written⟩
  · exact .inl rfl
  · by_cases own : key = r.key
    · subst own
      exact .inr ⟨rfl, after, found, written⟩
    · refine .inl ?_
      rw [unit_eq_held, unit_eq_held, others key own]

/-- The pool's invariant, and that of each unit. -/
structure Reached (window : Int) (system : System) : Prop where
  kept : Pool.Kept perform pact (Does window) system
  lawful : ∀ key unit, system.state.unit key = some unit → unit.Lawful

theorem Reached.init : Reached window System.init where
  kept :=
    { inv :=
        { ids := .nil
          keys := .nil
          slots := .nil
          files := fun _ mem => by cases mem
          declarations := fun _ mem => by cases mem }
      calls := fun _ mem => by cases mem }
  lawful _ _ found := by cases found

theorem Reached.step {u v : System} {act : Act} (reached : Reached window u)
    (taken : System.step window u act = some v) :
    Reached window v ∧ Pool.Did (Does window) u act v := by
  have ⟨kept, did⟩ := reached.kept.step does_within program_meets taken
  refine ⟨⟨kept, fun key unit found => ?_⟩, did⟩
  cases act with
  | start r =>
      have same : v.state = u.state := did
      rw [same] at found
      exact reached.lawful key unit found
  | answer i luck =>
      obtain ⟨r, m, _, does⟩ := did
      rcases does.unit key with same | ⟨_, after, found', written⟩
      · exact reached.lawful key unit (same ▸ found)
      · cases found.symm.trans found'
        exact written.lawful (reached.lawful key)

theorem Reached.run {u v : System} {acts : List Act} (reached : Reached window u)
    (run : Run (System.step window) Any u acts v) : Reached window v :=
  run.invariant (Reached window) reached fun _ _ _ reached taken _ => (reached.step taken).1

/-- The step is one of a call that serves the request. -/
def StepOf (u : System) (act : Act) (r : Request) : Prop :=
  ∃ i luck m, act = .answer i luck ∧ u.calls[i]? = some (r, m)

theorem Reached.unit {u v : System} {act : Act} (reached : Reached window u)
    (taken : System.step window u act = some v) (key : UnitKey) :
    v.state.unit key = u.state.unit key ∨
      ∃ r after, StepOf u act r ∧ key = r.key ∧ v.state.unit key = some after ∧
        Written window r (u.state.unit key) after := by
  have did := (reached.step taken).2
  cases act with
  | start r =>
      have same : v.state = u.state := did
      exact .inl (by rw [same])
  | answer i luck =>
      obtain ⟨r, m, found, does⟩ := did
      rcases does.unit key with same | ⟨own, after, found', written⟩
      · exact .inl same
      · exact .inr ⟨r, after, ⟨i, luck, m, rfl, found⟩, own, found', written⟩

/-- What is asked of each step about the units it touches. -/
structure Attributed (u : System) (act : Act) (v : System) : Prop where
  /-- A file is added to a visible unit by a deposit of its depositor. -/
  added : ∀ key unit now name, u.state.unit key = some unit → unit.visible = true →
    v.state.unit key = some now → unit.file name = none → now.file name ≠ none →
    ∃ target instant, StepOf u act (.file target instant) ∧ target.unit = key ∧
      target.filename = name ∧ target.principal = unit.depositor
  /-- A contested unit is shown by a deposit of its depositor that leaves a POM of the depositor's in
  it, or by an administrator. -/
  shown : ∀ key unit now, u.state.unit key = some unit → unit.contested = true →
    unit.visible = false → v.state.unit key = some now → now.visible = true →
    (∃ target instant, StepOf u act (.file target instant) ∧ target.unit = key ∧
      target.principal = unit.depositor ∧
      ∃ f, now.file f.filename = some f ∧ isPom f.filename = true ∧
        f.depositor = unit.depositor) ∨
    ∃ scopes instant, StepOf u act (.decide key .promote scopes instant)

theorem Reached.attributed {u v : System} {act : Act} (reached : Reached window u)
    (taken : System.step window u act = some v) : Attributed u act v := by
  constructor
  · intro key unit now name was visible is absent held
    rcases reached.unit taken key with same | ⟨r, after, ofCall, own, found, written⟩
    · rw [same, was] at is
      cases is
      exact absurd absent held
    · cases is.symm.trans found
      rw [was] at written
      obtain ⟨target, instant, rfl, named, principal⟩ := written.added absent held
      exact ⟨target, instant, ofCall, own.symm, named, principal⟩
  · intro key unit now was contested hidden is shown
    rcases reached.unit taken key with same | ⟨r, after, ofCall, own, found, written⟩
    · rw [same, was] at is
      cases is
      simp [hidden] at shown
    · cases is.symm.trans found
      rw [was] at written
      have named : ∀ f ∈ unit.files, unit.file f.filename = some f := fun f mem =>
        reached.kept.inv.file_of_mem was mem
      rcases written.shown (reached.lawful key unit was) named contested hidden shown with
        ⟨target, instant, rfl, principal, pom⟩ | ⟨key', scopes, instant, rfl⟩
      · exact .inl ⟨target, instant, ofCall, own.symm, principal, pom⟩
      · cases own
        exact .inr ⟨scopes, instant, ofCall⟩

theorem Frozen.trans {a b c : Unit} (first : Frozen a b) (second : Frozen b c) : Frozen a c where
  visible := second.visible
  unrefused := second.unrefused
  depositor := second.depositor.trans first.depositor
  files name f filed := second.files name f (first.files name f filed)

theorem frozen_refl {unit : Unit} (visible : unit.visible = true) : Frozen unit unit := by
  have unrefused : unit.refused = false := by
    simp only [Unit.visible, Bool.and_eq_true, Bool.not_eq_true'] at visible
    exact visible.2
  exact ⟨visible, unrefused, rfl, fun _ _ filed => filed⟩

/-! ### One artifact and its runs -/

def lib : UnitKey := ⟨1, "com.acme:lib".toList, "1.0".toList, []⟩

def jarName : Text := "lib-1.0.jar".toList

def pomName : Text := "lib-1.0.pom".toList

def alice : Text := "alice".toList

def bob : Text := "bob".toList

/-- The digests of `jar`. -/
def jarDigests : Digests where
  sha1 := "f92e777f4341930bad9b2422283c4680d00dbc06".toList
  md5 := "68995fcbf432492d15484d04a9d2ac40".toList
  sha256 := "0163f1eea7894350060624d315234d40c508ab251ba121714e234503045faadd".toList
  sha512 := ("483365784455682e7e83c6e150e56dbe3f387a06c9d407b8253e4bdf8e0bd1fa" ++
    "c8234e3973d4e59ff8c01cb969f25c0d08c5dc5bb967744b1a5813afe3c58fcc").toList

/-- The digests of `<project/>`. -/
def pomDigests : Digests where
  sha1 := "31a6e1717665b9fb4646a906d52abae65a7eefbc".toList
  md5 := "aedffc237dbf73096ec2ae39dba0f041".toList
  sha256 := "618a333ca21cdc97fc758355c6127cb83ae2a1b0c892a8b7a1b726b02d378a54".toList
  sha512 := ("9ff5553bbd48b76a2a153273fc31789212da0e0ecc79b384b96ff24cc18b36a4" ++
    "3d02fac824c58ed470eadfc2a5ec71f5f72e65c289e79712e7797df0993f0e73").toList

/-- The digests of `evil`. -/
def evilDigests : Digests where
  sha1 := "b653891162a040e1bfe6e436bdcd93827e0c56e5".toList
  md5 := "4034a346ccee15292d823416f7510a2f".toList
  sha256 := "b5c1fb2efc6d6b4674c2fdcc48ce01b43a3b7c03763c0c3355de0099ee0f8c73".toList
  sha512 := ("4455726f5605299bcd836c742e9351c5a71fd3e1c4d2d994f04ac7fa6f7ec565" ++
    "0af66695c40462f8479332b20090e2c244b5ef39fee50ad60064dc65114dbe11").toList

/-- The pin of a placement under the file's own name. -/
def pinOf (filename : Text) : Reclaim.PinToken := ⟨filename, filename, filename⟩

/-- The reclamation tables with some pins and nothing else. -/
def withPins (filenames : List Text) : Reclaim.Tables :=
  ⟨filenames.map fun filename => ⟨filename, filename, [], 0⟩, [], [], [], [], []⟩

/-- Operations of call `i`, each carried out as it should. -/
def answers (i operations : Nat) : List Act :=
  List.replicate operations (.answer i (.done (withPins [])))

def depositOf (principal filename : Text) : Request := .file ⟨lib, filename, principal, []⟩ 0

/-- A file received and, after each of two reads of the unit, found to be stored. -/
def placedBy (i statements : Nat) (principal filename : Text) (digests : Digests) (size : Int) :
    List Act :=
  [.start (depositOf principal filename), .answer i (.received (.ok (size, digests)))] ++
    answers i statements ++ [.answer i (.placed (.ok [pinOf filename]))] ++ answers i statements

/-- The commit of a placement. -/
def committed (i : Nat) (filename : Text) : Act := .answer i (.done (withPins [filename]))

/-- In every run, from any state that can be reached: a visible unit keeps its files and is never
refused, a refused one holds no file and never becomes visible, and each step that adds a file to a
visible unit or shows a contested one is taken for whom it may be. -/
theorem visible_units_are_frozen {before after : List Act} {s t : System}
    (reached : Run (System.step window) Any System.init before s)
    (went : Run (System.step window) Any s after t) :
    (∀ key unit, s.state.unit key = some unit → unit.visible = true →
      ∃ now, t.state.unit key = some now ∧ now.visible = true ∧ now.refused = false ∧
        now.depositor = unit.depositor ∧
        ∀ name f, unit.file name = some f →
          (now.file name).map (·.digests.sha256) = some f.digests.sha256) ∧
    (∀ key unit, s.state.unit key = some unit → unit.refused = true →
      unit.files = [] ∧
        ∃ now, t.state.unit key = some now ∧ now.refused = true ∧ now.visible = false ∧
          now.files = []) ∧
    Run (System.step window) Attributed s after t := by
  have start : Reached window s := Reached.init.run reached
  refine ⟨fun key unit found visible => ?_, fun key unit found refused => ?_, ?_⟩
  · have kept : Reached window t ∧ ∃ now, t.state.unit key = some now ∧ Frozen unit now := by
      apply went.invariant (fun u => Reached window u ∧
        ∃ now, u.state.unit key = some now ∧ Frozen unit now)
        ⟨start, unit, found, frozen_refl visible⟩
      rintro u act v ⟨reached, now, was, frozen⟩ taken _
      refine ⟨(reached.step taken).1, ?_⟩
      rcases reached.unit taken key with same | ⟨r, next, _, _, found', written⟩
      · exact ⟨now, same.trans was, frozen⟩
      · rw [was] at written
        exact ⟨next, found', frozen.trans (written.frozen frozen.visible)⟩
    obtain ⟨_, now, is, frozen⟩ := kept
    refine ⟨now, is, frozen.visible, frozen.unrefused, frozen.depositor, fun name f filed => ?_⟩
    rw [frozen.files name f filed]
    rfl
  · have kept : Reached window t ∧ ∃ now, t.state.unit key = some now ∧ now.refused = true := by
      apply went.invariant (fun u => Reached window u ∧
        ∃ now, u.state.unit key = some now ∧ now.refused = true) ⟨start, unit, found, refused⟩
      rintro u act v ⟨reached, now, was, refused⟩ taken _
      refine ⟨(reached.step taken).1, ?_⟩
      rcases reached.unit taken key with same | ⟨r, next, _, _, _, written⟩
      · exact ⟨now, same.trans was, refused⟩
      · -- a refused unit is not written again
        rw [was] at written
        exact absurd refused (by simp [written.unrefused])
    obtain ⟨end_, now, is, refused'⟩ := kept
    exact ⟨(start.lawful key unit found).emptied refused, now, is, refused',
      by simp [Unit.visible, refused'], (end_.lawful key now is).emptied refused'⟩
  · exact went.strengthen (Reached window) start fun u act v reached taken _ =>
      ⟨(reached.step taken).1, reached.attributed taken⟩

/-- A jar, an administrator who reads the unit to refuse it, and the POM that shows it. -/
def shownWhileRefused : List Act :=
  placedBy 0 1 alice jarName jarDigests 3 ++ [committed 0 jarName] ++
    [.start (.decide lib .refuse [] 0)] ++ answers 1 3 ++
    placedBy 2 3 alice pomName pomDigests 10 ++ [committed 2 pomName]

/-- The refusal, decided on the unit while it was pending, does not reach the visible one. -/
theorem late_refusal_leaves_the_jar :
    ∃ s t : System,
      Run (System.step 0) Any System.init shownWhileRefused s ∧
      Run (System.step 0) Any s (answers 1 1) t ∧
      ∃ unit f now, s.state.unit lib = some unit ∧ unit.visible = true ∧
        unit.file jarName = some f ∧ t.state.unit lib = some now ∧ now.refused = false ∧
        (now.file jarName).map (·.digests.sha256) = some f.digests.sha256 := by
  obtain ⟨s, reached, tested⟩ := Run.of_test (System.step 0) Any System.init shownWhileRefused
    (fun s => (s.state.unit lib).any (fun unit => unit.visible && (unit.file jarName).isSome) &&
      (exec (checked (System.step 0) Any) s (answers 1 1)).isSome) (by decide)
  simp only [Bool.and_eq_true, Option.any_eq_true, Option.isSome_iff_exists] at tested
  obtain ⟨⟨unit, found, visible, f, filed⟩, t, played⟩ := tested
  have went : Run (System.step 0) Any s (answers 1 1) t :=
    Run.of_exec_from (System.step 0) Any Run.nil played
  obtain ⟨now, is, _, unrefused, _, files⟩ :=
    (visible_units_are_frozen reached went).1 lib unit found visible
  exact ⟨s, t, reached, went, unit, f, now, found, visible, filed, is, unrefused,
    files jarName f filed⟩

/-- A checksum, the POM that waits for its file, another principal's jar, and the depositor's. -/
def contestedThenFiled : List Act :=
  [.start (.sum ⟨lib, jarName, alice, []⟩ .sha1 jarDigests.sha1 0)] ++ answers 0 2 ++
    placedBy 1 3 alice pomName pomDigests 10 ++ [committed 1 pomName] ++
    [.start (depositOf bob jarName), .answer 2 (.received (.ok (4, evilDigests)))] ++
    answers 2 7 ++ placedBy 3 3 alice jarName jarDigests 3

/-- The contested unit becomes visible with the jar, the file its declaration was waiting for. -/
theorem contested_unit_is_shown_by_a_jar :
    ¬∀ (acts : List Act) (s t : System) (act : Act),
      Run (System.step 0) Any System.init acts s → System.step 0 s act = some t →
      ∀ key unit now, s.state.unit key = some unit → unit.contested = true →
        unit.visible = false → t.state.unit key = some now → now.visible = true →
        (∃ target instant, StepOf s act (.file target instant) ∧ target.unit = key ∧
          target.principal = unit.depositor ∧ isPom target.filename = true) ∨
        ∃ scopes instant, StepOf s act (.decide key .promote scopes instant) := by
  intro all
  obtain ⟨s, reached, tested⟩ := Run.of_test (System.step 0) Any System.init contestedThenFiled
    (fun s => (s.state.unit lib).any (fun unit => unit.contested && !unit.visible) &&
      (s.calls[3]?.map Prod.fst == some (depositOf alice jarName) &&
        (System.step 0 s (committed 3 jarName)).any fun t =>
          (t.state.unit lib).any Unit.visible)) (by decide)
  simp only [Bool.and_eq_true, Option.any_eq_true, Bool.not_eq_true', beq_iff_eq,
    Option.map_eq_some_iff] at tested
  obtain ⟨⟨unit, found, contested, hidden⟩, ⟨call, here, served⟩, t, taken, now, is, shown⟩ := tested
  have only : ∀ r, StepOf s (committed 3 jarName) r → r = depositOf alice jarName := by
    rintro r ⟨i, luck, m, act, holds⟩
    cases act
    rw [here] at holds
    cases holds
    exact served
  rcases all contestedThenFiled s t (committed 3 jarName) reached taken lib unit now found contested
    hidden is shown with ⟨target, instant, ofCall, _, _, pom⟩ | ⟨scopes, instant, ofCall⟩
  · cases only _ ofCall
    exact absurd pom (by decide)
  · cases only _ ofCall

/-- In every state that can be reached, a declaration kept for a file its unit stores is the file's
digest in the declared algorithm. -/
theorem declarations_agree_with_files {acts : List Act} {s : System}
    (reached : Run (System.step window) Any System.init acts s) {key : UnitKey} {unit : Unit}
    (found : s.state.unit key = some unit) :
    ∀ d ∈ unit.declarations, ∀ f, unit.file d.filename = some f →
      f.digests.get d.algorithm = d.value :=
  ((Reached.init.run reached).lawful key unit found).agrees

/-- The jar's checksum, sent before the jar. -/
theorem checksum_before_its_jar_agrees :
    ∃ (s : System) (unit : Unit) (d : Declaration) (f : StoredFile),
      Run (System.step 0) Any System.init (contestedThenFiled ++ [committed 3 jarName]) s ∧
      s.state.unit lib = some unit ∧ d ∈ unit.declarations ∧ unit.file d.filename = some f ∧
      f.digests.get d.algorithm = d.value := by
  obtain ⟨s, reached, tested⟩ := Run.of_test (System.step 0) Any System.init
    (contestedThenFiled ++ [committed 3 jarName])
    (fun s => (s.state.unit lib).any fun unit =>
      unit.declarations.any fun d => (unit.file d.filename).isSome) (by decide)
  simp only [Option.any_eq_true, List.any_eq_true, Option.isSome_iff_exists] at tested
  obtain ⟨unit, found, d, declared, f, filed⟩ := tested
  exact ⟨s, unit, d, f, reached, found, declared, filed,
    declarations_agree_with_files reached found d declared f filed⟩

end Runs

end OpenCargo.Maven
