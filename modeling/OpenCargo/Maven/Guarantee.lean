/-
Module: OpenCargo.Maven.Guarantee
Purpose: What a call may do to the tables, proved of each use case alone against whatever the others
  do: it writes its own unit only, and only what its rules allow on the unit as it stands when it is
  written.
Trusted boundary: none
Main exports: readUnit_meets, change_meets, refuse_meets, program_meets
-/
import OpenCargo.Maven.UseCases

namespace OpenCargo.Maven

open OpenCargo.Lib
open OpenCargo.Reclaim (PinToken)

/-! ### The writes -/

/-- The changes a request sends, by the unit it was judged on. -/
inductive Sends (window : Int) : Request → Option Unit → UnitChange → Prop where
  | stored {target : Target} {now : Instant} {read : Option Unit} {size : Int} {digests : Digests}
      {pins : List PinToken} {replaces reveal : Bool} :
      judgeFile read target.filename digests target.principal target.pom = .store replaces reveal →
      Sends window (.file target now) read (storing target now read size digests pins reveal)
  | contestedFile {target : Target} {now : Instant} {read : Option Unit} {digests : Digests} :
      judgeFile read target.filename digests target.principal target.pom = .contest →
      Sends window (.file target now) read (contesting target now read)
  | recorded {target : Target} {now : Instant} {read : Option Unit} {algorithm : SumAlgorithm}
      {value : Text} :
      judgeSum read target.filename algorithm value target.principal = .record →
      Sends window (.sum target algorithm value now) read
        (declaring target now read algorithm value)
  | contestedSum {target : Target} {now : Instant} {read : Option Unit} {algorithm : SumAlgorithm}
      {value : Text} :
      judgeSum read target.filename algorithm value target.principal = .contest →
      Sends window (.sum target algorithm value now) read (contesting target now read)
  | reconciled {key : UnitKey} {scopes : List Text} {now : Instant} {unit : Unit} :
      promotable unit now window = true →
      Sends window (.promote key scopes now) (some unit) (revealing key scopes now unit)
  | promoted {key : UnitKey} {scopes : List Text} {now : Instant} {unit : Unit} :
      Pending unit → unit.files ≠ [] →
      Sends window (.decide key .promote scopes now) (some unit) (revealing key scopes now unit)

/-- What a write of a request makes of its unit. -/
inductive Written (window : Int) (r : Request) (before : Option Unit) (after : Unit) : Prop where
  | changed {change : UnitChange} :
      Sends window r before change → Advanced change before after → Written window r before after
  | refused {key : UnitKey} {scopes : List Text} {now : Instant} {unit : Unit} :
      r = .decide key .refuse scopes now → before = some unit → Pending unit →
      Emptied unit after → Written window r before after

/-- What a step of a call does to the tables: nothing, or a write of the unit its request is about,
judged on the unit as it is. -/
def Does (window : Int) (r : Request) (s t : Tables) : Prop :=
  t = s ∨ (Sound t ∧ (∀ key, key ≠ r.key → t.held key = s.held key) ∧
    ∃ after, t.unit r.key = some after ∧ Written window r (s.unit r.key) after)

theorem Sends.key {window : Int} {r : Request} {read : Option Unit} {change : UnitChange}
    (sends : Sends window r read change) : change.key = r.key := by
  cases sends <;> rfl

theorem Sends.revision {window : Int} {r : Request} {read : Option Unit} {change : UnitChange}
    (sends : Sends window r read change) : change.revision = read.map Unit.revision := by
  cases sends <;> rfl

/-! ### What the others may do -/

/-- A unit that was written is at a later revision. -/
def Later (before after : Option Held) : Prop :=
  ∃ now, after = some now ∧ ∀ old, before = some old → old.row.revision < now.row.revision

def pact : Pact Tables where
  inv := Sound
  rely s t := Sound t ∧ ∀ key, t.held key = s.held key ∨ Later (s.held key) (t.held key)
  keeps _ _ _ relied := relied.1

theorem Written.revision_lt {window : Int} {r : Request} {unit after : Unit}
    (written : Written window r (some unit) after) : unit.revision < after.revision := by
  cases written with
  | changed _ advanced =>
      rw [advanced.revision]
      exact Int.lt_succ _
  | refused _ same _ emptied =>
      cases same
      rw [emptied.revision]
      exact Int.lt_succ _

theorem does_within {window : Int} (r : Request) (s t : Tables) (sound : pact.inv s)
    (does : Does window r s t) : pact.rely s t := by
  rcases does with rfl | ⟨sound', others, after, found, written⟩
  · exact ⟨sound, fun _ => .inl rfl⟩
  · refine ⟨sound', fun key => ?_⟩
    by_cases own : key = r.key
    · subst own
      rw [unit_eq_held, Option.map_eq_some_iff] at found
      obtain ⟨now, held, rfl⟩ := found
      refine .inr ⟨now, held, fun old was => ?_⟩
      have before : s.unit r.key = some old.unit := by rw [unit_eq_held, was]; rfl
      rw [before] at written
      exact written.revision_lt
    · exact .inl (others key own)

/-- What was read of a unit at a revision still holds of it, or it is at a later one. -/
def Fresh (key : UnitKey) (revision : Int) (p : Held → Prop) (tables : Tables) : Prop :=
  ∃ now, tables.held key = some now ∧ revision ≤ now.row.revision ∧
    (now.row.revision = revision → p now)

theorem fresh_stable {key : UnitKey} {revision : Int} {p : Held → Prop} :
    pact.Stable (Fresh key revision p) := by
  rintro s t _ ⟨_, moves⟩ ⟨now, held, reached, reads⟩
  rcases moves key with same | ⟨next, held', later⟩
  · exact ⟨now, same.trans held, reached, reads⟩
  · have passed := later now held
    refine ⟨next, held', by omega, fun same => absurd passed (by omega)⟩

theorem Fresh.mono {key : UnitKey} {revision : Int} {p q : Held → Prop} {tables : Tables}
    (fresh : Fresh key revision p tables)
    (stronger : ∀ now, tables.held key = some now → p now → q now) :
    Fresh key revision q tables := by
  obtain ⟨now, held, reached, reads⟩ := fresh
  exact ⟨now, held, reached, fun same => stronger now held (reads same)⟩

/-- A unit as it was read, or that none was there to be read. -/
def ReadAs (key : UnitKey) (read : Option Unit) (tables : Tables) : Prop :=
  ∀ unit, read = some unit → Fresh key unit.revision (fun now => now.unit = unit) tables

/-- A change decided on what was read and applied now was decided on the unit as it is. -/
theorem ReadAs.current {key : UnitKey} {read : Option Unit} {tables : Tables}
    (readAs : ReadAs key read tables)
    (decided : (tables.unit key).map Unit.revision = read.map Unit.revision) :
    tables.unit key = read := by
  cases read with
  | none => simpa using decided
  | some unit =>
      obtain ⟨now, held, _, reads⟩ := readAs unit rfl
      have current : tables.unit key = some now.unit := by rw [unit_eq_held, held]; rfl
      rw [current] at decided ⊢
      have same : now.row.revision = unit.revision := Option.some.inj decided
      rw [reads same]

/-! ### The operations -/

section Operations

variable {window : Int} {r : Request}

theorem reads_inv {α : Type} {s t : Tables} {value : α} {luck : Luck} {answer : Except StoreError α}
    (performed : reads s value luck = some (answer, t)) :
    t = s ∧ ∀ read, answer = .ok read → read = value := by
  cases luck <;> simp only [reads, reduceCtorEq, Option.some.injEq, Prod.mk.injEq] at performed
  · obtain ⟨rfl, rfl⟩ := performed
    exact ⟨rfl, fun _ same => (Except.ok.inj same).symm⟩
  · obtain ⟨rfl, rfl⟩ := performed
    exact ⟨rfl, fun _ same => by cases same⟩

theorem writes_inv {s t : Tables}
    {transaction : Reclaim.Tables → Except StoreError (Changed × Reclaim.Tables × Tables)}
    {luck : Luck} {answer : Except StoreError Changed}
    (performed : writes s transaction luck = some (answer, t)) :
    t = s ∨ ∃ reclaim changed reclaim', transaction reclaim = .ok (changed, reclaim', t) := by
  cases luck with
  | done reclaim =>
      simp only [writes] at performed
      split at performed
      · rename_i changed reclaim' next done
        cases performed
        exact .inr ⟨reclaim, changed, reclaim', done⟩
      · cases performed
        exact .inl rfl
  | failed error =>
      cases performed
      exact .inl rfl
  | lost reclaim error =>
      simp only [writes] at performed
      split at performed
      · rename_i changed reclaim' next done
        cases performed
        exact .inr ⟨reclaim, changed, reclaim', done⟩
      · cases performed
  | received answer => cases performed
  | placed answer => cases performed
  | ensured answer => cases performed

/-- A part of the call that serves `r`: each step of it does what the request may. -/
abbrev Serves {α : Type} (window : Int) (r : Request) (Q : α → Tables → Prop) (m : Call α)
    (P : Tables → Prop) : Prop := Meets perform pact (Does window r) Q m P

theorem stable_true : pact.Stable fun _ => True := fun _ _ _ _ _ => trivial

theorem receive_meets {P : Tables → Prop} :
    Serves window r (fun _ _ => True) receive P := by
  apply Meets.ask fun _ => stable_true
  intro s luck answer t _ _ performed
  cases luck <;> cases performed
  exact ⟨.inl rfl, trivial⟩

theorem placing_meets {P : Tables → Prop} :
    Serves window r (fun _ _ => True) placing P := by
  apply Meets.ask fun _ => stable_true
  intro s luck answer t _ _ performed
  cases luck <;> cases performed
  exact ⟨.inl rfl, trivial⟩

theorem ensure_meets {key : UnitKey} {unit : Unit} {now : Instant} {P : Tables → Prop} :
    Serves window r (fun _ _ => True) (ensure key unit now) P := by
  apply Meets.ask fun _ => stable_true
  intro s luck answer t _ _ performed
  cases luck <;> cases performed
  exact ⟨.inl rfl, trivial⟩

theorem unitRow_meets {key : UnitKey} {P : Tables → Prop} :
    Serves window r
      (fun answer tables => ∀ row, answer = .ok (some row) →
        Fresh key row.revision (fun now => now.row = row) tables) (unitRow key) P := by
  apply Meets.ask
  · intro answer s t inv relied holds row same
    exact fresh_stable s t inv relied (holds row same)
  · intro s luck answer t _ _ performed
    obtain ⟨rfl, value⟩ := reads_inv performed
    refine ⟨.inl rfl, fun row same => ?_⟩
    have found : t.unitRow key = some row := (value _ same).symm
    exact ⟨_, by rw [Tables.held, found]; rfl, le_refl _, fun _ => rfl⟩

theorem filesOf_meets {key : UnitKey} {row : UnitRow} :
    Serves window r
      (fun answer tables => ∀ files, answer = .ok files →
        Fresh key row.revision (fun now => now.row = row ∧ now.files = files) tables)
      (filesOf row.id) (Fresh key row.revision fun now => now.row = row) := by
  apply Meets.ask
  · intro answer s t inv relied holds files same
    exact fresh_stable s t inv relied (holds files same)
  · intro s luck answer t _ fresh performed
    obtain ⟨rfl, value⟩ := reads_inv performed
    refine ⟨.inl rfl, fun files same => ?_⟩
    apply fresh.mono
    intro now held row'
    simp only [Tables.held, Option.map_eq_some_iff] at held
    obtain ⟨found, _, rfl⟩ := held
    exact ⟨row', by rw [value files same, ← row']⟩

theorem declarationsOf_meets {key : UnitKey} {row : UnitRow} {files : List StoredFile} :
    Serves window r
      (fun answer tables => ∀ declarations, answer = .ok declarations →
        Fresh key row.revision (fun now => now.unit = row.unit files declarations) tables)
      (declarationsOf row.id)
      (Fresh key row.revision fun now => now.row = row ∧ now.files = files) := by
  apply Meets.ask
  · intro answer s t inv relied holds declarations same
    exact fresh_stable s t inv relied (holds declarations same)
  · intro s luck answer t _ fresh performed
    obtain ⟨rfl, value⟩ := reads_inv performed
    refine ⟨.inl rfl, fun declarations same => ?_⟩
    apply fresh.mono
    rintro now held ⟨row', files'⟩
    simp only [Tables.held, Option.map_eq_some_iff] at held
    obtain ⟨found, _, rfl⟩ := held
    rw [Held.unit, files', value declarations same, ← row']

/-- What three statements read, one after the other, is the unit at the revision the first one read, if
the unit still is at that revision. -/
theorem readUnit_meets {key : UnitKey} {P : Tables → Prop} :
    Serves window r (fun answer tables => ∀ read, answer = .ok read → ReadAs key read tables)
      (readUnit key) P := by
  apply unitRow_meets.bind
  intro answer
  cases answer with
  | error e => exact Meets.pure fun _ _ _ _ same => by cases same
  | ok found =>
      cases found with
      | none => exact Meets.pure fun _ _ _ read same unit some => by cases same; cases some
      | some row =>
          apply (filesOf_meets.weaken fun _ _ holds => holds row rfl).bind
          intro answer
          cases answer with
          | error e => exact Meets.pure fun _ _ _ _ same => by cases same
          | ok files =>
              apply (declarationsOf_meets.weaken fun _ _ holds => holds files rfl).bind
              intro answer
              cases answer with
              | error e => exact Meets.pure fun _ _ _ _ same => by cases same
              | ok declarations =>
                  apply Meets.pure
                  intro tables _ holds read same unit some
                  cases same
                  cases some
                  exact holds declarations rfl

/-- A change is written under the revision it was judged on, so it is judged on the unit as it is. -/
theorem change_meets {read : Option Unit} {sent : UnitChange} (sends : Sends window r read sent) :
    Serves window r (fun _ _ => True) (change sent) (ReadAs r.key read) := by
  apply Meets.ask fun _ => stable_true
  intro s luck answer t sound readAs performed
  refine ⟨?_, trivial⟩
  rcases writes_inv performed with unchanged | ⟨reclaim, changed, reclaim', applied⟩
  · exact .inl unchanged
  · have ⟨sound', others, after, found, advanced⟩ := apply_spec sound applied
    rw [sends.key] at others found advanced
    have current : s.unit r.key = read :=
      readAs.current (advanced.decided.trans sends.revision)
    refine .inr ⟨sound', others, after, found, ?_⟩
    rw [current] at advanced ⊢
    exact .changed sends advanced

theorem refuse_meets {key : UnitKey} {scopes : List Text} {now : Instant} {unit : Unit}
    (pending : Pending unit) :
    Serves window (.decide key .refuse scopes now) (fun _ _ => True)
      (refuse key unit.revision scopes now) (ReadAs key (some unit)) := by
  apply Meets.ask fun _ => stable_true
  intro s luck answer t sound readAs performed
  refine ⟨?_, trivial⟩
  rcases writes_inv performed with unchanged | ⟨reclaim, changed, reclaim', refused⟩
  · exact .inl unchanged
  · have ⟨sound', others, before, after, was, revision, found, emptied⟩ :=
      refuseUnit_spec sound refused
    have current : s.unit key = some unit := by
      apply readAs.current
      rw [was]
      exact congrArg some revision
    rw [was] at current
    cases current
    exact .inr ⟨sound', others, after, found, .refused rfl was pending emptied⟩

end Operations

/-! ### The use cases -/

section UseCases

variable {window : Int} {r : Request} {α β : Type}

/-- A part of a call of whose outcome nothing is asked. -/
abbrev Safe (window : Int) (r : Request) (m : Call α) (P : Tables → Prop) : Prop :=
  Serves window r (fun _ _ => True) m P

theorem safe_pure {a : α} {P : Tables → Prop} : Safe window r (pure a : Call α) P :=
  Meets.pure fun _ _ _ => trivial

theorem Safe.weaken {m : Call α} {P : Tables → Prop} (safe : Safe window r m fun _ => True) :
    Safe window r m P :=
  Meets.weaken safe fun _ _ _ => trivial

theorem safe_then {m : Call α} {f : α → Call β} {P : Tables → Prop} (first : Safe window r m P)
    (rest : ∀ a, Safe window r (f a) fun _ => True) : Safe window r (m >>= f) P :=
  Meets.bind first rest

theorem safe_read {key : UnitKey} {f : Except StoreError (Option Unit) → Call α}
    {P : Tables → Prop} (failed : ∀ e, Safe window r (f (.error e)) fun _ => True)
    (found : ∀ read, Safe window r (f (.ok read)) (ReadAs key read)) :
    Safe window r (readUnit key >>= f) P := by
  apply readUnit_meets.bind
  intro answer
  cases answer with
  | error e => exact (failed e).weaken
  | ok read => exact Meets.weaken (found read) fun _ _ holds => holds read rfl

section Deposits

variable {target : Target} {now : Instant}

theorem commitFile_safe {size : Int} {digests : Digests} {pins : List PinToken} {left : Nat} :
    Safe window (.file target now) (commitFile target now size digests pins left)
      fun _ => True := by
  induction left with
  | zero => exact safe_pure
  | succ left ih =>
      apply safe_read
      · exact fun e => safe_pure
      · intro read
        simp only
        split
        · rename_i replaces reveal judged
          apply safe_then (change_meets (.stored judged))
          intro answer
          cases answer with
          | ok changed => exact safe_pure
          | error e =>
              cases e with
              | conflict => exact ih
              | _ => exact safe_pure
        · exact safe_pure

theorem placeShared_safe {commit : List PinToken → Call (Except StoreError α)} {left : Nat}
    (commits : ∀ pins, Safe window r (commit pins) fun _ => True) :
    Safe window r (placeShared commit left) fun _ => True := by
  induction left with
  | zero => exact safe_pure
  | succ left ih =>
      apply safe_then placing_meets
      intro answer
      cases answer with
      | error e => exact safe_pure
      | ok pins =>
          apply safe_then (commits pins)
          intro outcome
          cases outcome with
          | ok done => exact safe_pure
          | error e =>
              cases e with
              | superseded revoked => exact ih
              | _ => exact safe_pure

theorem place_safe {size : Int} {digests : Digests} :
    Safe window (.file target now) (place target now size digests) fun _ => True := by
  apply safe_then (placeShared_safe fun _ => commitFile_safe)
  intro outcome
  cases outcome <;> exact safe_pure

theorem contest_safe {read : Option Unit} (sends : Sends window r read (contesting target now read)) :
    Safe window r (contest target now read) (ReadAs r.key read) := by
  apply safe_then (change_meets sends)
  intro answer
  cases answer with
  | ok changed => exact safe_pure
  | error e => cases e <;> exact safe_pure

theorem settleWithoutBytes_safe {digests : Digests} {left : Nat} :
    Safe window (.file target now) (settleWithoutBytes target now digests left) fun _ => True := by
  induction left with
  | zero => exact safe_pure
  | succ left ih =>
      apply safe_read
      · exact fun e => safe_pure
      · intro read
        simp only
        split
        · exact safe_pure
        · exact safe_pure
        · exact safe_pure
        · exact safe_pure
        · rename_i judged
          apply safe_then (contest_safe (.contestedFile judged))
          intro outcome
          rcases outcome with e | _ | _
          · exact safe_pure
          · exact ih
          · exact safe_pure

theorem publish_safe : Safe window r (publish target now) fun _ => True := by
  apply safe_read
  · exact fun e => safe_pure
  · intro read
    cases read with
    | none => exact safe_pure
    | some unit => exact safe_then ensure_meets fun _ => safe_pure

theorem depositFile_safe {size : Int} {digests : Digests} :
    Safe window (.file target now) (depositFile target now size digests) fun _ => True := by
  apply safe_read
  · exact fun e => safe_pure
  · intro current
    simp only
    split
    · apply safe_then place_safe.weaken
      intro outcome
      cases outcome with
      | ok revealed => exact safe_pure
      | error e =>
          cases e with
          | unavailable => exact settleWithoutBytes_safe
          | _ => exact safe_pure
    · exact settleWithoutBytes_safe.weaken

theorem file_safe : Safe window (.file target now) (file target now) fun _ => True := by
  apply safe_then receive_meets
  intro answer
  cases answer with
  | error e => exact safe_pure
  | ok body =>
      apply safe_then depositFile_safe
      intro outcome
      rcases outcome with e | (_ | _) | _
      · exact safe_pure
      · exact safe_pure
      · exact safe_then publish_safe fun _ => safe_pure
      · exact safe_pure

theorem sum_safe {algorithm : SumAlgorithm} {value : Text} {left : Nat} :
    Safe window (.sum target algorithm value now) (sum target now algorithm value left)
      fun _ => True := by
  induction left with
  | zero => exact safe_pure
  | succ left ih =>
      apply safe_read
      · exact fun e => safe_pure
      · intro read
        simp only
        split
        · exact safe_pure
        · exact safe_pure
        · exact safe_pure
        · rename_i judged
          apply safe_then (change_meets (.recorded judged))
          intro answer
          cases answer with
          | ok changed => exact safe_pure
          | error e =>
              cases e with
              | conflict => exact ih
              | _ => exact safe_pure
        · rename_i judged
          apply safe_then (change_meets (.contestedSum judged))
          intro answer
          cases answer with
          | ok changed => exact safe_pure
          | error e =>
              cases e with
              | conflict => exact ih
              | _ => exact safe_pure

end Deposits

section Decisions

variable {key : UnitKey} {scopes : List Text} {now : Instant}

theorem promote_safe :
    Safe window (.promote key scopes now) (promote key scopes now window) fun _ => True := by
  apply safe_read
  · exact fun e => safe_pure
  · intro read
    cases read with
    | none => exact safe_pure
    | some unit =>
        simp only
        split
        · exact safe_pure
        · split
          · exact safe_pure
          · rename_i judged
            have promotes : promotable unit now window = true := by simpa using judged
            apply safe_then (change_meets (.reconciled promotes))
            intro answer
            cases answer with
            | error e => cases e <;> exact safe_pure
            | ok changed =>
                apply safe_read
                · exact fun e => safe_pure
                · intro read
                  cases read with
                  | none => exact safe_pure
                  | some revealed =>
                      apply safe_then ensure_meets
                      intro outcome
                      cases outcome <;> exact safe_pure

theorem decideUnit_safe {decision : Decision} :
    Safe window (.decide key decision scopes now) (decideUnit key scopes now decision)
      fun _ => True := by
  apply safe_read
  · exact fun e => safe_pure
  · intro read
    cases read with
    | none => exact safe_pure
    | some unit =>
        simp only
        split
        · exact safe_pure
        · rename_i hidden
          split
          · exact safe_pure
          · rename_i unrefused
            have pending : Pending unit := ⟨by simpa using unrefused, by simpa using hidden⟩
            cases decision with
            | promote =>
                simp only
                split
                · exact safe_pure
                · rename_i filed
                  have files : unit.files ≠ [] := by simpa using filed
                  apply safe_then (change_meets (.promoted pending files))
                  intro answer
                  cases answer with
                  | error e => exact safe_pure
                  | ok changed =>
                      apply safe_read
                      · exact fun e => safe_pure
                      · intro read
                        cases read with
                        | none => exact safe_pure
                        | some revealed => exact safe_then ensure_meets fun _ => safe_pure
            | refuse =>
                apply safe_then (refuse_meets pending)
                intro answer
                cases answer <;> exact safe_pure

end Decisions

theorem program_meets (r : Request) : Safe window r (program window r) fun _ => True := by
  cases r with
  | file target now => exact safe_then file_safe fun _ => safe_pure
  | sum target algorithm value now => exact safe_then sum_safe fun _ => safe_pure
  | promote key scopes now => exact safe_then promote_safe fun _ => safe_pure
  | decide key decision scopes now => exact safe_then decideUnit_safe fun _ => safe_pure

end UseCases

end OpenCargo.Maven
