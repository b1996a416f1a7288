/-
Module: OpenCargo.Maven.Carried
Purpose: What the writes of a call carry, whatever it is answered: the unit and the counters its request
  names, and at most one file, with the digests of the body that was received.
Trusted boundary: none
Main exports: Yields, program_asks, Moves, moves_of_performed
-/
import OpenCargo.Maven.Guarantee

namespace OpenCargo.Maven

open OpenCargo.Lib
open OpenCargo.Reclaim (PinToken)

/-- The metadata counters the writes of a request move. -/
def Request.scopes : Request → List Text
  | .file target _ => target.scopes
  | .sum target .. => target.scopes
  | .promote _ scopes _ => scopes
  | .decide _ _ scopes _ => scopes

/-- A file is carried by the deposit of it, with digests that are known to be good. -/
def CarriesFile (good : Digests → Prop) (r : Request) (new : NewFile) : Prop :=
  ∃ target now, r = .file target now ∧ new.filename = target.filename ∧ good new.digests

/-- What the operations of a call carry. -/
def Carries (good : Digests → Prop) (r : Request) : Op → Prop
  | .change sent => sent.key = r.key ∧ sent.scopes = r.scopes ∧
      ∀ new, sent.file = some new → CarriesFile good r new
  | .refuse key _ scopes _ => key = r.key ∧ scopes = r.scopes
  | _ => True

/-- What is received has good digests; every other answer may be anything. -/
def Yields (good : Digests → Prop) : (op : Op) → op.Answer → Prop
  | .receive => fun answer => ∀ size digests, answer = .ok (size, digests) → good digests
  | _ => fun _ => True

/-! ### The use cases -/

section UseCases

variable {good : Digests → Prop} {r : Request} {α β : Type}

/-- A part of the call that serves `r`. -/
abbrev Bears (good : Digests → Prop) (r : Request) (m : Call α) : Prop :=
  m.Asks (Carries good r) (Yields good)

theorem bears_pure {a : α} : Bears good r (pure a : Call α) := trivial

theorem readUnit_bears {key : UnitKey} : Bears good r (readUnit key) := by
  refine ⟨trivial, fun answer _ => ?_⟩
  rcases answer with e | _ | row
  · exact bears_pure
  · exact bears_pure
  · refine ⟨trivial, fun answer _ => ?_⟩
    rcases answer with e | files
    · exact bears_pure
    · refine ⟨trivial, fun answer _ => ?_⟩
      rcases answer with e | declarations
      · exact bears_pure
      · exact bears_pure

theorem bears_read {key : UnitKey} {f : Except StoreError (Option Unit) → Call α}
    (rest : ∀ answer, Bears good r (f answer)) : Bears good r (readUnit key >>= f) :=
  readUnit_bears.bind rest

theorem bears_change {sent : UnitChange} {f : Except StoreError Changed → Call α}
    (carries : Carries good r (.change sent)) (rest : ∀ answer, Bears good r (f answer)) :
    Bears good r (change sent >>= f) :=
  Script.Asks.ask_bind carries fun answer _ => rest answer

theorem bears_ensure {key : UnitKey} {unit : Unit} {now : Instant}
    {f : Except VersionError PUnit → Call α} (rest : ∀ answer, Bears good r (f answer)) :
    Bears good r (ensure key unit now >>= f) :=
  Script.Asks.ask_bind trivial fun answer _ => rest answer

section Deposits

variable {target : Target} {now : Instant} {digests : Digests}

theorem storing_carries {read : Option Unit} {size : Int} {pins : List PinToken} {reveal : Bool}
    (known : good digests) :
    Carries good (.file target now) (.change (storing target now read size digests pins reveal)) := by
  refine ⟨rfl, rfl, fun new stored => ?_⟩
  cases stored
  exact ⟨target, now, rfl, rfl, known⟩

theorem commitFile_bears {size : Int} {pins : List PinToken} {left : Nat} (known : good digests) :
    Bears good (.file target now) (commitFile target now size digests pins left) := by
  induction left with
  | zero => exact bears_pure
  | succ left ih =>
      refine bears_read fun answer => ?_
      cases answer with
      | error e => exact bears_pure
      | ok read =>
          dsimp only
          split
          · refine bears_change (storing_carries known) fun answer => ?_
            cases answer with
            | ok changed => exact bears_pure
            | error e =>
                cases e with
                | conflict => exact ih
                | _ => exact bears_pure
          · exact bears_pure

theorem placeShared_bears {commit : List PinToken → Call (Except StoreError α)} {left : Nat}
    (commits : ∀ pins, Bears good r (commit pins)) : Bears good r (placeShared commit left) := by
  induction left with
  | zero => exact bears_pure
  | succ left ih =>
      refine Script.Asks.ask_bind trivial fun answer _ => ?_
      rcases answer with e | pins
      · exact bears_pure
      · refine (commits pins).bind fun outcome => ?_
        cases outcome with
        | ok done => exact bears_pure
        | error e =>
            cases e with
            | superseded revoked => exact ih
            | _ => exact bears_pure

theorem contesting_carries {read : Option Unit} (own : target.unit = r.key)
    (scopes : target.scopes = r.scopes) :
    Carries good r (.change (contesting target now read)) :=
  ⟨own, scopes, fun _ stored => by cases stored⟩

theorem settleWithoutBytes_bears {left : Nat} :
    Bears good (.file target now) (settleWithoutBytes target now digests left) := by
  induction left with
  | zero => exact bears_pure
  | succ left ih =>
      refine bears_read fun answer => ?_
      cases answer with
      | error e => exact bears_pure
      | ok read =>
          dsimp only
          split
          · exact bears_pure
          · exact bears_pure
          · exact bears_pure
          · exact bears_pure
          · have contests : Bears good (.file target now) (contest target now read) := by
              refine bears_change (contesting_carries rfl rfl) fun answer => ?_
              cases answer with
              | ok changed => exact bears_pure
              | error e => cases e <;> exact bears_pure
            refine contests.bind fun outcome => ?_
            rcases outcome with e | _ | _
            · exact bears_pure
            · exact ih
            · exact bears_pure

theorem depositFile_bears {size : Int} (known : good digests) :
    Bears good (.file target now) (depositFile target now size digests) := by
  have places : Bears good (.file target now) (place target now size digests) := by
    refine (placeShared_bears fun _ => commitFile_bears known).bind fun outcome => ?_
    cases outcome <;> exact bears_pure
  refine bears_read fun answer => ?_
  cases answer with
  | error e => exact bears_pure
  | ok current =>
      dsimp only
      split
      · refine places.bind fun outcome => ?_
        cases outcome with
        | ok revealed => exact bears_pure
        | error e =>
            cases e with
            | unavailable => exact settleWithoutBytes_bears
            | _ => exact bears_pure
      · exact settleWithoutBytes_bears

theorem publish_bears : Bears good r (publish target now) := by
  refine bears_read fun answer => ?_
  rcases answer with e | _ | unit
  · exact bears_pure
  · exact bears_pure
  · exact bears_ensure fun _ => bears_pure

theorem file_bears : Bears good (.file target now) (file target now) := by
  refine Script.Asks.ask_bind trivial fun answer received => ?_
  rcases answer with e | ⟨size, digests⟩
  · exact bears_pure
  · refine (depositFile_bears (received size digests rfl)).bind fun outcome => ?_
    rcases outcome with e | (_ | _) | _
    · exact bears_pure
    · exact bears_pure
    · exact publish_bears.bind fun _ => bears_pure
    · exact bears_pure

theorem sum_bears {algorithm : SumAlgorithm} {value : Text} {left : Nat} :
    Bears good (.sum target algorithm value now) (sum target now algorithm value left) := by
  induction left with
  | zero => exact bears_pure
  | succ left ih =>
      refine bears_read fun answer => ?_
      cases answer with
      | error e => exact bears_pure
      | ok read =>
          dsimp only
          split
          · exact bears_pure
          · exact bears_pure
          · exact bears_pure
          · have declares : Carries good (.sum target algorithm value now)
                (.change (declaring target now read algorithm value)) :=
              ⟨rfl, rfl, fun _ stored => by cases stored⟩
            refine bears_change declares fun answer => ?_
            cases answer with
            | ok changed => exact bears_pure
            | error e =>
                cases e with
                | conflict => exact ih
                | _ => exact bears_pure
          · refine bears_change (contesting_carries rfl rfl) fun answer => ?_
            cases answer with
            | ok changed => exact bears_pure
            | error e =>
                cases e with
                | conflict => exact ih
                | _ => exact bears_pure

end Deposits

section Decisions

variable {key : UnitKey} {scopes : List Text} {now : Instant}

theorem revealing_carries {unit : Unit} (own : key = r.key) (moved : scopes = r.scopes) :
    Carries good r (.change (revealing key scopes now unit)) :=
  ⟨own, moved, fun _ stored => by cases stored⟩

theorem promote_bears {window : Int} :
    Bears good (.promote key scopes now) (promote key scopes now window) := by
  refine bears_read fun answer => ?_
  rcases answer with e | _ | unit
  · exact bears_pure
  · exact bears_pure
  · dsimp only
    split
    · exact bears_pure
    · split
      · exact bears_pure
      · refine bears_change (revealing_carries rfl rfl) fun answer => ?_
        cases answer with
        | error e => cases e <;> exact bears_pure
        | ok changed =>
            refine bears_read fun answer => ?_
            rcases answer with e | _ | revealed
            · exact bears_pure
            · exact bears_pure
            · refine bears_ensure fun outcome => ?_
              cases outcome <;> exact bears_pure

theorem decideUnit_bears {decision : Decision} :
    Bears good (.decide key decision scopes now) (decideUnit key scopes now decision) := by
  refine bears_read fun answer => ?_
  rcases answer with e | _ | unit
  · exact bears_pure
  · exact bears_pure
  · dsimp only
    split
    · exact bears_pure
    · split
      · exact bears_pure
      · cases decision with
        | promote =>
            dsimp only
            split
            · exact bears_pure
            · refine bears_change (revealing_carries rfl rfl) fun answer => ?_
              cases answer with
              | error e => exact bears_pure
              | ok changed =>
                  refine bears_read fun answer => ?_
                  rcases answer with e | _ | revealed
                  · exact bears_pure
                  · exact bears_pure
                  · exact bears_ensure fun _ => bears_pure
        | refuse =>
            refine Script.Asks.ask_bind ⟨rfl, rfl⟩ fun answer _ => ?_
            rcases answer with e | changed <;> exact bears_pure

end Decisions

theorem program_asks (window : Int) (good : Digests → Prop) (r : Request) :
    Bears good r (program window r) := by
  cases r with
  | file target now => exact file_bears.bind fun _ => bears_pure
  | sum target algorithm value now => exact sum_bears.bind fun _ => bears_pure
  | promote key scopes now => exact promote_bears.bind fun _ => bears_pure
  | decide key decision scopes now => exact decideUnit_bears.bind fun _ => bears_pure

end UseCases

/-! ### What a step does -/

/-- What an operation that carries what its request may does to the tables. -/
inductive Moves (good : Digests → Prop) (r : Request) (s t : Tables) : Prop where
  | same (kept : t = s)
  | changed {sent : UnitChange} {after : Unit}
      (carried : ∀ new, sent.file = some new → CarriesFile good r new)
      (others : ∀ key, key ≠ r.key → t.held key = s.held key)
      (found : t.unit r.key = some after) (advanced : Advanced sent (s.unit r.key) after)
      (counters : t.counters = (s.bump r.key.repository r.scopes sent.now).counters)
  | emptied {now : Instant} {before after : Unit}
      (others : ∀ key, key ≠ r.key → t.held key = s.held key)
      (found : t.unit r.key = some after) (empties : Emptied before after)
      (counters : t.counters = (s.bump r.key.repository r.scopes now).counters)

theorem moves_of_performed {good : Digests → Prop} {r : Request} {s t : Tables} {op : Op}
    {luck : Luck} {answer : op.Answer} (sound : Sound s) (carries : Carries good r op)
    (performed : perform s op luck = some (answer, t)) : Moves good r s t := by
  cases op with
  | unitRow key => exact .same (reads_inv performed).1
  | filesOf unit => exact .same (reads_inv performed).1
  | declarationsOf unit => exact .same (reads_inv performed).1
  | receive => cases luck <;> cases performed; exact .same rfl
  | placing => cases luck <;> cases performed; exact .same rfl
  | ensure key unit now => cases luck <;> cases performed; exact .same rfl
  | change sent =>
      obtain ⟨own, scopes, carried⟩ := carries
      rcases writes_inv performed with kept | ⟨reclaim, changed, reclaim', applied⟩
      · exact .same kept
      · obtain ⟨-, others, after, found, advanced⟩ := apply_spec sound applied
        have counters := apply_counters applied
        rw [own] at others found advanced counters
        rw [scopes] at counters
        exact .changed carried others found advanced counters
  | refuse key revision scopes now =>
      obtain ⟨rfl, rfl⟩ := carries
      rcases writes_inv performed with kept | ⟨reclaim, changed, reclaim', refused⟩
      · exact .same kept
      · obtain ⟨-, others, before, after, -, -, found, empties⟩ := refuseUnit_spec sound refused
        exact .emptied others found empties (refuseUnit_counters refused)

end OpenCargo.Maven
