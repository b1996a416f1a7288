/-
Module: OpenCargo.Groups.Calls
Purpose: The calls that administer repositories, side by side. Each is the sequence of store calls its
  code awaits: the reads of the validation, one for every row a walk comes to, and the write at the
  end. A store call is atomic and a call is not. A call that runs alone does what `Groups.Spec` says.
Trusted boundary: as Groups.Spec; a store call that fails may have been carried out
Main exports: deleteRepository, program, step, alone_program
-/
import OpenCargo.Groups.Spec
import OpenCargo.Lib.Script

namespace OpenCargo.Groups.Calls

open OpenCargo.Lib (Script Fueled Pool)
open OpenCargo.Resolve (maxGroupDepth)

/-! ### The store calls -/

inductive Op where
  | byName (name : Text)
  | all
  | create (spec : RepoSpec)
  | update (name : Text) (patch : RepoPatch)
  | retire (name : Text)
  /-- The storage listing of `legacy_bytes`. -/
  | legacyBytes (name : Text)
  /-- `purge_repository`. -/
  | purge (row : Row)
  /-- A walk that has further to go than the call is followed: nothing answers it. -/
  | walking
deriving Repr, DecidableEq, Inhabited

def Op.Answer : Op → Type
  | .byName _ => Except StoreError (Option Row)
  | .all => Except StoreError (List Row)
  | .create _ => Except StoreError Row
  | .update .. => Except StoreError Row
  | .retire _ => Except StoreError Unit
  | .legacyBytes _ => Except AppError (Option Text)
  | .purge _ => Except AppError Unit
  | .walking => Empty

/-- How a store call goes. -/
inductive Luck where
  | done
  /-- It fails, and nothing is written. -/
  | failed (error : StoreError)
  /-- It is carried out, and its answer is an error. -/
  | lost (error : StoreError)
deriving Repr, DecidableEq, Inhabited

/-- What a store call meets outside the table. -/
structure Outside where
  luck : Luck
  /-- A prefix of the name being created is being reclaimed. -/
  claimed : Bool
  /-- The repository being retired holds packages or other content. -/
  occupied : Bool
  legacyBytes : Except AppError (Option Text)
  purged : Except AppError Unit

def Luck.reads {α : Type} (luck : Luck) (catalog : Catalog) (value : α) :
    Except StoreError α × Catalog :=
  match luck with
  | .done => (.ok value, catalog)
  | .failed error => (.error error, catalog)
  | .lost error => (.error error, catalog)

/-- A transaction is carried out as a whole or not at all. -/
def Luck.writes {α : Type} (luck : Luck) (catalog : Catalog)
    (transaction : Except StoreError (α × Catalog)) : Except StoreError α × Catalog :=
  match luck, transaction with
  | .failed error, _ => (.error error, catalog)
  | _, .error error => (.error error, catalog)
  | .done, .ok (answer, after) => (.ok answer, after)
  | .lost error, .ok (_, after) => (.error error, after)

def perform (catalog : Catalog) : (op : Op) → Outside → Option (op.Answer × Catalog)
  | .byName name, outside => some (outside.luck.reads catalog (catalog.byName name))
  | .all, outside => some (outside.luck.reads catalog catalog.all)
  | .create spec, outside =>
      some (outside.luck.writes catalog (catalog.create spec outside.claimed))
  | .update name patch, outside => some (outside.luck.writes catalog (catalog.update name patch))
  | .retire name, outside =>
      some (outside.luck.writes catalog
        ((catalog.retire name outside.occupied).map fun after => ((), after)))
  | .legacyBytes _, outside => some (outside.legacyBytes, catalog)
  | .purge _, outside => some (outside.purged, catalog)
  | .walking, _ => none

/-! ### The calls -/

abbrev Call (α : Type) : Type := ExceptT AppError (Script Op Op.Answer) α

section Asked

variable {α : Type}

/-- A computation that asks the store nothing. -/
def of (x : Except AppError α) : Call α := ExceptT.mk (pure x)

def ask (op : Op) (read : op.Answer → Except AppError α) : Call α :=
  ExceptT.mk (do return read (← Script.ask op))

def byName (name : Text) : Call (Option Row) := ask (.byName name) fun answer => answer.mapError .store

def all : Call (List Row) := ask .all fun answer => answer.mapError .store

def create (spec : RepoSpec) : Call Row := ask (.create spec) fun answer => answer.mapError .store

def update (name : Text) (patch : RepoPatch) : Call Row :=
  ask (.update name patch) fun answer => answer.mapError .store

def retire (name : Text) : Call Unit :=
  ask (.retire name) fun answer => answer.mapError (refusedRetire name)

def legacyBytes (name : Text) : Call (Option Text) := ask (.legacyBytes name) id

def purgeRepository (row : Row) : Call Unit := ask (.purge row) id

def walking : Call α := ask .walking fun answer => nomatch answer

end Asked

def groupMembers (name : Text) : Call (Option (List Text)) := do
  match ← byName name with
  | none => pure none
  | some row => of (row.appKind.map fun kind => if kind = .group then some row.members else none)

def nesting : Nat → Text → List Text → Call (Nat × List Text)
  | 0, _, _ => walking
  | fuel + 1, name, seen => do
      if name ∈ seen then
        pure (0, seen)
      else
        match ← groupMembers name with
        | none => pure (0, name :: seen)
        | some members =>
            let (deepest, seen) ← members.foldlM (fun (deepest, seen) member => do
              let (below, seen) ← nesting fuel member seen
              pure (max deepest below, seen)) (0, name :: seen)
            pure (deepest + 1, seen)

def reachesAny (target : Text) (walk : Row → List Int → Call (Bool × List Int)) :
    List Text → List Int → Call (Bool × List Int)
  | [], seen => pure (false, seen)
  | name :: names, seen => do
      if name = target then
        pure (true, seen)
      else
        match ← byName name with
        | none => reachesAny target walk names seen
        | some member =>
            let kind ← of member.appKind
            if kind = .group then
              let (found, seen) ← walk member seen
              if found then pure (true, seen) else reachesAny target walk names seen
            else
              reachesAny target walk names seen

def reaches (target : Text) : Nat → Row → List Int → Call (Bool × List Int)
  | 0, _, _ => walking
  | fuel + 1, group, seen =>
      if group.id ∈ seen then
        pure (false, seen)
      else
        reachesAny target (reaches target fuel) group.members (group.id :: seen)

section Validation

variable (env : Env) (fuel : Nat) (spec : RepoSpec)

def validateMember (member : Text) : Call Nat := do
  let (below, _) ← nesting fuel member []
  if member = spec.name then
    of (.error (.badRequest ("group '".toList ++ member ++ "' cannot be its own member".toList)))
  else
    match ← byName member with
    | none => of (.error (.badRequest ("group member not found: ".toList ++ member)))
    | some row =>
        let (found, _) ← reaches spec.name fuel row []
        if found then
          of (.error (.badRequest ("group member '".toList ++ member ++
            "' already contains '".toList ++ spec.name ++ "'".toList)))
        else
          let format ← of row.appFmt
          of (refuseFormat member format spec.format)
          pure below

def validateMembers : Call Unit := do
  if spec.members.isEmpty then
    of (.error (.badRequest "group repositories need at least one member".toList))
  else
    let deepest ← spec.members.foldlM (fun deepest member => do
      let below ← validateMember fuel spec member
      pure (max deepest below)) 0
    if deepest + 1 > maxGroupDepth then
      of (.error (tooDeep spec.name (deepest + 1)))
    else
      pure ()

def validateSpec : Call Unit := do
  of (validateName spec.name)
  if !supportsKind spec.format spec.kind then
    of (.error (.badRequest (spec.format.asStr ++ " repositories cannot be ".toList ++
      spec.kind.asStr)))
  else
    match spec.kind with
    | .hosted => do
        of spec.refuseUpstream
        of spec.refuseMembers
    | .proxy => of (validateProxy env spec)
    | .group => do
        of spec.refuseUpstream
        validateMembers fuel spec

/-- `CreateRepository::run`. -/
def createRepository : Call Row := do
  match ← byName spec.name with
  | some _ => of (.error (.conflict ("repository already exists: ".toList ++ spec.name)))
  | none =>
      of (refuseReserved env spec.name)
      validateSpec env fuel spec
      match ← legacyBytes spec.name with
      | some lead =>
          of (.error (.conflict ("repository '".toList ++ spec.name ++
            "' was removed and its bytes under '".toList ++ lead ++
            "' are not reclaimed yet;                  run 'opencargo storage reclaim --prefix ".toList ++
            lead ++ "' first".toList)))
      | none => create spec

end Validation

def loadRepo (name : Text) : Call Row := do
  match ← byName name with
  | some row => pure row
  | none => of (.error (.notFound ("repository not found: ".toList ++ name)))

/-- `UpdateRepository::run`. -/
def updateRepository (env : Env) (fuel : Nat) (name : Text) (change : RepoUpdate) : Call Row := do
  let row ← loadRepo name
  let spec ← of (mergedSpec row change)
  validateSpec env fuel spec
  if change.upstream.isSome && change.upstream ≠ row.upstreamUrl then
    purgeRepository row
    update name change.patch
  else
    update name change.patch

/-- The loop of `groups_containing` over the rows it has read. -/
def holdersAmong (name : Text) (rows : List Row) : Except AppError (List Text) :=
  rows.foldlM (fun holders row => do
    let kind ← row.appKind
    pure (if kind = .group && row.members.contains name then holders ++ [row.name] else holders)) []

def groupsContaining (name : Text) : Call (List Text) := do
  let rows ← all
  of (holdersAmong name rows)

/-- `DeleteRepository::run`, up to the reclaiming of the retired prefixes. -/
def deleteRepository (name : Text) : Call Unit := do
  let _ ← loadRepo name
  let holders ← groupsContaining name
  if holders.isEmpty then retire name else of (.error (held name holders))

/-! ### Calls side by side -/

inductive Request where
  | create (spec : RepoSpec)
  | update (name : Text) (change : RepoUpdate)
  | delete (name : Text)
deriving Repr, DecidableEq, Inhabited

/-- A request, and how far the walks of its validation are followed. -/
structure Incoming where
  request : Request
  fuel : Nat
deriving Repr, DecidableEq, Inhabited

/-- The request as `Groups.Act` has it, with what it meets outside. -/
def Request.act (request : Request) (outside : Outside) : Groups.Act :=
  match request with
  | .create spec => .create spec outside.legacyBytes outside.claimed
  | .update name change => .update name change outside.purged
  | .delete name => .delete name outside.occupied

/-- The row a call answers with; a removal has none. -/
def program (env : Env) (incoming : Incoming) : Call (Option Row) :=
  match incoming.request with
  | .create spec => do return some (← createRepository env incoming.fuel spec)
  | .update name change => do return some (← updateRepository env incoming.fuel name change)
  | .delete name => do
      deleteRepository name
      return none

abbrev InFlight : Type := Pool Incoming Catalog Op Op.Answer (Except AppError (Option Row))

abbrev Act : Type := Pool.Act Incoming Outside

def step (env : Env) : InFlight → Act → Option InFlight :=
  Pool.step perform fun incoming => (program env incoming).run

/-! ### A call that runs alone -/

def alone {α : Type} (outside : Outside) (call : Call α) (catalog : Catalog) :
    Option (Except AppError α × Catalog) :=
  Script.alone perform outside call.run catalog

section Alone

variable {α β : Type} {outside : Outside} {catalog : Catalog}

theorem alone_bind {call : Call α} {f : α → Call β} :
    alone outside (call >>= f) catalog = (alone outside call catalog).bind fun
      | (.ok a, after) => alone outside (f a) after
      | (.error e, after) => some (.error e, after) := by
  have split : alone outside (call >>= f) catalog =
      (alone outside call catalog).bind fun done =>
        Script.alone perform outside (ExceptT.bindCont f done.1) done.2 :=
    Script.alone_bind perform outside call.run (ExceptT.bindCont f) catalog
  rw [split]
  refine congrArg _ (funext fun done => ?_)
  obtain ⟨answer, after⟩ := done
  cases answer <;> rfl

theorem alone_ask {op : Op} {read : op.Answer → Except AppError α} :
    alone outside (ask op read) catalog =
      (perform catalog op outside).map fun done => (read done.1, done.2) := by
  have step : alone outside (ask op read) catalog =
      (perform catalog op outside).bind fun done => some (read done.1, done.2) := rfl
  rw [step]
  cases perform catalog op outside <;> rfl

/-- Alone, the call answers as `direct` does and leaves the table as it is. -/
def Reads (outside : Outside) (catalog : Catalog) (call : Call α) (direct : Fueled AppError α) :
    Prop :=
  alone outside call catalog = direct.run.map fun answer => (answer, catalog)

/-- Alone, the call does what `direct` does; where that fails, the table is as it was. -/
def Does (outside : Outside) (catalog : Catalog) (call : Call α)
    (direct : Fueled AppError (α × Catalog)) : Prop :=
  alone outside call catalog = direct.run.map fun
    | .ok (a, after) => (.ok a, after)
    | .error e => (.error e, catalog)

namespace Reads

variable {call : Call α} {direct : Fueled AppError α} {f : α → Call β} {g : α → Fueled AppError β}

theorem pure {a : α} : Reads outside catalog (Pure.pure a) (Pure.pure a) := rfl

theorem of {x : Except AppError α} : Reads outside catalog (Calls.of x) (Fueled.of x) := rfl

theorem walking : Reads outside catalog (Calls.walking : Call α) Fueled.outOfFuel := rfl

theorem bind (first : Reads outside catalog call direct)
    (rest : ∀ a, Reads outside catalog (f a) (g a)) :
    Reads outside catalog (call >>= f) (direct >>= g) := by
  rw [Reads, alone_bind, first]
  rcases direct with _ | _ | a
  · rfl
  · rfl
  · exact rest a

theorem foldlM {σ : Type} {as : List α} {f : σ → α → Call σ} {g : σ → α → Fueled AppError σ}
    (turn : ∀ s a, Reads outside catalog (f s a) (g s a)) (s : σ) :
    Reads outside catalog (as.foldlM f s) (as.foldlM g s) := by
  induction as generalizing s with
  | nil => exact .pure
  | cons a as ih =>
      rw [List.foldlM_cons, List.foldlM_cons]
      exact bind (turn s a) ih

theorem bindDoes {f : α → Call β} {g : α → Fueled AppError (β × Catalog)}
    (first : Reads outside catalog call direct) (rest : ∀ a, Does outside catalog (f a) (g a)) :
    Does outside catalog (call >>= f) (direct >>= g) := by
  rw [Does, alone_bind, first]
  rcases direct with _ | _ | a
  · rfl
  · rfl
  · exact rest a

end Reads

theorem Does.error {e : AppError} :
    Does outside catalog (of (.error e) : Call α) (Fueled.of (.error e)) := rfl

theorem Does.left {call : Call α} {direct : Fueled AppError (α × Catalog)} {f : α → Option Row}
    (does : Does outside catalog call direct) :
    (alone outside (call >>= fun a => Pure.pure (f a)) catalog).map Prod.snd =
      direct.run.map fun
        | .ok (_, after) => after
        | .error _ => catalog := by
  rw [alone_bind, does]
  rcases direct with _ | _ | ⟨a, after⟩ <;> rfl

section Carried

variable (done : outside.luck = .done)

include done

theorem alone_byName {name : Text} :
    alone outside (byName name) catalog = some (.ok (catalog.byName name), catalog) := by
  rw [byName, alone_ask, perform, done]
  rfl

theorem Reads.byName_bind {name : Text} {f : Option Row → Call α} {direct : Fueled AppError α}
    (rest : Reads outside catalog (f (catalog.byName name)) direct) :
    Reads outside catalog (byName name >>= f) direct := by
  rw [Reads, alone_bind, alone_byName done]
  exact rest

theorem Does.byName_bind {name : Text} {f : Option Row → Call α}
    {direct : Fueled AppError (α × Catalog)}
    (rest : Does outside catalog (f (catalog.byName name)) direct) :
    Does outside catalog (byName name >>= f) direct := by
  rw [Does, alone_bind, alone_byName done]
  exact rest

theorem reads_groupMembers (name : Text) :
    Reads outside catalog (groupMembers name) (Fueled.of (Groups.groupMembers catalog name)) := by
  refine .byName_bind done ?_
  rw [Groups.groupMembers]
  cases catalog.byName name with
  | none => rfl
  | some row => exact .of

theorem reads_nesting (fuel : Nat) (name : Text) (seen : List Text) :
    Reads outside catalog (nesting fuel name seen) (Groups.nesting catalog fuel name seen) := by
  induction fuel generalizing name seen with
  | zero => exact .walking
  | succ fuel ih =>
      rw [nesting, Groups.nesting]
      split
      · exact .pure
      · refine .bind (reads_groupMembers done name) fun found => ?_
        cases found with
        | none => exact .pure
        | some members =>
            refine .bind (.foldlM (fun s member => ?_) _) fun _ => .pure
            exact .bind (ih member s.2) fun _ => .pure

theorem reads_reachesAny {target : Text} {walk : Row → List Int → Call (Bool × List Int)}
    {direct : Row → List Int → Fueled AppError (Bool × List Int)}
    (same : ∀ row seen, Reads outside catalog (walk row seen) (direct row seen)) (names : List Text)
    (seen : List Int) :
    Reads outside catalog (reachesAny target walk names seen)
      (Groups.reachesAny catalog target direct names seen) := by
  induction names generalizing seen with
  | nil => exact .pure
  | cons name names ih =>
      rw [reachesAny, Groups.reachesAny]
      split
      · exact .pure
      · refine .byName_bind done ?_
        cases catalog.byName name with
        | none => exact ih seen
        | some member =>
            refine .bind .of fun kind => ?_
            split
            · refine .bind (same member seen) fun answer => ?_
              obtain ⟨found, seen⟩ := answer
              cases found with
              | true => exact .pure
              | false => exact ih seen
            · exact ih seen

theorem reads_reaches (target : Text) (fuel : Nat) (group : Row) (seen : List Int) :
    Reads outside catalog (reaches target fuel group seen)
      (Groups.reaches catalog target fuel group seen) := by
  induction fuel generalizing group seen with
  | zero => exact .walking
  | succ fuel ih =>
      rw [reaches, Groups.reaches]
      split
      · exact .pure
      · exact reads_reachesAny done ih _ _

theorem reads_validateMember (spec : RepoSpec) (member : Text) :
    Reads outside catalog (validateMember catalog.fuel spec member)
      (Groups.validateMember catalog spec member) := by
  refine .bind (reads_nesting done ..) fun nested => ?_
  obtain ⟨below, _⟩ := nested
  dsimp only
  split
  · exact .of
  · refine .byName_bind done ?_
    cases catalog.byName member with
    | none => exact .of
    | some row =>
        refine .bind (reads_reaches done ..) fun answer => ?_
        obtain ⟨found, _⟩ := answer
        cases found with
        | true => exact .of
        | false => exact .bind .of fun _ => .bind .of fun _ => .pure

theorem reads_validateSpec (env : Env) (spec : RepoSpec) :
    Reads outside catalog (validateSpec env catalog.fuel spec)
      (Groups.validateSpec env catalog spec) := by
  have members : Reads outside catalog (validateMembers catalog.fuel spec)
      (Groups.validateMembers catalog spec) := by
    rw [validateMembers, Groups.validateMembers]
    split
    · exact .of
    · refine .bind (.foldlM (fun deepest member => ?_) 0) fun deepest => ?_
      · exact .bind (reads_validateMember done spec member) fun _ => .pure
      · split
        · exact .of
        · exact .pure
  refine .bind .of fun _ => ?_
  split
  · exact .of
  · cases spec.kind with
    | hosted => exact .bind .of fun _ => .of
    | proxy => exact .of
    | group => exact .bind .of fun _ => members

theorem reads_loadRepo (name : Text) :
    Reads outside catalog (loadRepo name) (Fueled.of (Groups.loadRepo catalog name)) := by
  refine .byName_bind done ?_
  rw [Groups.loadRepo]
  cases catalog.byName name <;> rfl

theorem alone_createRepository (env : Env) (spec : RepoSpec) :
    Does outside catalog (createRepository env catalog.fuel spec)
      (Groups.createRepository env catalog spec outside.legacyBytes outside.claimed) := by
  refine .byName_bind done ?_
  rw [Groups.createRepository]
  cases catalog.byName spec.name with
  | some row => rfl
  | none =>
      refine Reads.bindDoes .of fun _ => ?_
      refine Reads.bindDoes (reads_validateSpec done env spec) fun _ => ?_
      have asked : Reads outside catalog (legacyBytes spec.name) (Fueled.of outside.legacyBytes) := rfl
      refine asked.bindDoes fun lead => ?_
      cases lead with
      | some lead => rfl
      | none =>
          rw [Does, create, alone_ask, perform, done]
          cases catalog.create spec outside.claimed <;> rfl

theorem alone_updateRepository (env : Env) (name : Text) (change : RepoUpdate) :
    Does outside catalog (updateRepository env catalog.fuel name change)
      (Groups.updateRepository env catalog name change outside.purged) := by
  have written : Does outside catalog (update name change.patch)
      (Fueled.of ((catalog.update name change.patch).mapError .store)) := by
    rw [Does, update, alone_ask, perform, done]
    cases catalog.update name change.patch <;> rfl
  refine Reads.bindDoes (reads_loadRepo done name) fun row => ?_
  refine Reads.bindDoes .of fun spec => ?_
  refine Reads.bindDoes (reads_validateSpec done env spec) fun _ => ?_
  dsimp only
  split
  · have purged : Reads outside catalog (purgeRepository row) (Fueled.of outside.purged) := rfl
    exact purged.bindDoes fun _ => written
  · exact written

theorem alone_deleteRepository (name : Text) :
    Does outside catalog (deleteRepository name)
      (Fueled.of ((Groups.deleteRepository catalog name outside.occupied).map fun after =>
        ((), after))) := by
  have cut : ∀ {γ : Type} (x : Except AppError γ) (f : γ → Except AppError Catalog),
      Fueled.of ((x >>= f).map fun after => ((), after)) =
        Fueled.of x >>= fun a => Fueled.of ((f a).map fun after => ((), after)) := by
    intro γ x f
    cases x <;> rfl
  have listed : Reads outside catalog (groupsContaining name)
      (Fueled.of (Groups.groupsContaining catalog name)) := by
    rw [Reads, groupsContaining, alone_bind, all, alone_ask, perform, done]
    rfl
  have written : Does outside catalog (retire name)
      (Fueled.of (((catalog.retire name outside.occupied).mapError (refusedRetire name)).map
        fun after => ((), after))) := by
    rw [Does, retire, alone_ask, perform, done]
    cases catalog.retire name outside.occupied <;> rfl
  rw [Groups.deleteRepository, cut]
  refine Reads.bindDoes (reads_loadRepo done name) fun row => ?_
  rw [cut]
  refine Reads.bindDoes listed fun holders => ?_
  split
  · exact written
  · rfl

theorem alone_program (env : Env) (request : Request) :
    (alone outside (program env ⟨request, catalog.fuel⟩) catalog).map Prod.snd =
      Groups.step env catalog (request.act outside) := by
  cases request with
  | create spec =>
      refine (alone_createRepository done env spec).left.trans ?_
      rw [Groups.step, Request.act, Groups.perform]
      rcases Groups.createRepository env catalog spec outside.legacyBytes outside.claimed with
        _ | _ | ⟨row, after⟩ <;> rfl
  | update name change =>
      refine (alone_updateRepository done env name change).left.trans ?_
      rw [Groups.step, Request.act, Groups.perform]
      rcases Groups.updateRepository env catalog name change outside.purged with
        _ | _ | ⟨row, after⟩ <;> rfl
  | delete name =>
      refine (alone_deleteRepository done name).left.trans ?_
      rw [Groups.step, Request.act, Groups.perform]
      cases Groups.deleteRepository catalog name outside.occupied <;> rfl

end Carried

end Alone

end OpenCargo.Groups.Calls
