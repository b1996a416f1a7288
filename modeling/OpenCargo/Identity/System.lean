/-
Module: OpenCargo.Identity.System
Purpose: Every operation that changes accounts, tokens or identities, one after the other: the
  transactions of the identity store and the account use cases (`app/users.rs`). A failed operation
  leaves the tables as they were.
Trusted boundary: how a password is hashed is the caller's: a patch carries the hash
Main exports: Tables.act, Tables.step, createUser, updateAccount
-/
import OpenCargo.Identity.Store
import OpenCargo.Lib.Run

namespace OpenCargo.Identity

open OpenCargo.Lib (bind_eq_ok updateAt)

/-- `ROLES`. -/
def roles : List Text := ["admin".toList, "publisher".toList, "reader".toList]

def validRole (role : Text) : Except AppError Unit :=
  if roles.contains role then .ok () else .error (.badRequest ("invalid role: ".toList ++ role))

def loadAccount (tables : Tables) (username : Text) : Except AppError User :=
  match tables.userNamed username with
  | some user => .ok user
  | none => .error (.notFound ("user not found: ".toList ++ username))

/-- What an operator asked for; the password is generated. -/
structure NewAccount where
  username : Text
  email : Option Text
  role : Option Text
deriving Repr, DecidableEq, Inhabited

/-- `CreateUser::run`. -/
def createUser (tables : Tables) (account : NewAccount) (passwordHash : Text) (now : Instant) :
    Except AppError (User × Tables) := do
  if (tables.userNamed account.username).isSome then
    .error (.conflict ("user already exists: ".toList ++ account.username))
  else
    let role := account.role.getD "reader".toList
    validRole role
    (tables.insertUser ⟨account.username, account.email, passwordHash, role⟩ now).mapError .store

/-- Which fields a change touches. -/
structure AccountPatch where
  email : Option Text
  passwordHash : Option Text
  role : Option Text
deriving Repr, DecidableEq, Inhabited

/-- A role is the one field that stays the operator's. -/
def mayAssign (admin : Bool) : Option Text → Except AppError Unit
  | none => .ok ()
  | some role =>
      if !admin then .error (.forbidden "only admins can change roles".toList) else validRole role

/-- `UpdateUser::run`; `admin` is the caller's. -/
def updateAccount (tables : Tables) (username : Text) (patch : AccountPatch) (admin : Bool)
    (now : Instant) : Except AppError (User × Tables) := do
  let _ ← loadAccount tables username
  mayAssign admin patch.role
  (tables.updateUser username ⟨patch.email, patch.passwordHash, patch.role, none⟩ now).mapError
    .store

inductive Act where
  | createUser (account : NewAccount) (passwordHash : Text) (now : Instant)
  | updateAccount (username : Text) (patch : AccountPatch) (admin : Bool) (now : Instant)
  | deleteUser (username : Text)
  | createToken (token : NewToken) (now : Instant)
  | deleteToken (id : Text)
  | provision (user : NewUser) (a : Admission) (now : Instant)
  | admit_ (a : Admission) (now : Instant)
  | attach (id : Nat) (key : IdentityKey) (email : Option Text) (now : Instant)
  | detach (id : Nat) (key : IdentityKey)
  | disableLink (key : IdentityKey)
  | disableUser (id : Nat) (disabledBy : DisabledBy) (now : Instant)
  | enableUser (id : Nat)
  | deprovision (key : IdentityKey) (now : Instant)
  | revokeAuthority (authority : Authority)
  | migrateAuthority (source target : Authority)
  | issueSession (token : NewToken) (key : IdentityKey) (now : Instant)
  | recordProbe (authority : Authority) (reachable : Bool) (now : Instant)
deriving Repr, DecidableEq, Inhabited

/-- The tables a transaction leaves, when it commits. -/
def committed {ε α : Type} : Except ε (α × Tables) → Option Tables
  | .ok (_, tables) => some tables
  | .error _ => none

/-- What an operation writes; `none` when it fails. -/
def Tables.act (tables : Tables) : Act → Option Tables
  | .createUser account passwordHash now =>
      committed (Identity.createUser tables account passwordHash now)
  | .updateAccount username patch admin now =>
      committed (Identity.updateAccount tables username patch admin now)
  | .deleteUser username => committed (tables.deleteUser username)
  | .createToken token now => (tables.insertToken token now).toOption
  | .deleteToken id => some (tables.deleteTokens [id])
  | .provision user a now => committed (tables.provision user a now)
  | .admit_ a now => committed (tables.admit_ a now)
  | .attach id key email now => committed (tables.attach id key email now)
  | .detach id key => committed (tables.detach id key)
  | .disableLink key => committed (tables.disableLink key)
  | .disableUser id disabledBy now => committed (tables.disableUser id disabledBy now)
  | .enableUser id => some (tables.enableUser id)
  | .deprovision key now => committed (tables.deprovision key now)
  | .revokeAuthority authority => some (tables.revokeAuthority authority).2
  | .migrateAuthority source target => committed (tables.migrateAuthority source target)
  | .issueSession token key now => committed (tables.issueSession token key now)
  | .recordProbe authority reachable now => committed (tables.recordProbe authority reachable now)

/-- One operation, carried out or refused. -/
def Tables.step (tables : Tables) (act : Act) : Option Tables :=
  some ((tables.act act).getD tables)

theorem Tables.step_eq_some {tables t : Tables} {act : Act} (taken : tables.step act = some t) :
    tables.act act = some t ∨ tables.act act = none ∧ t = tables := by
  rw [step] at taken
  cases done : tables.act act with
  | none =>
      rw [done] at taken
      cases taken
      exact .inr ⟨rfl, rfl⟩
  | some next =>
      rw [done] at taken
      cases taken
      exact .inl rfl

theorem committed_eq_some {ε α : Type} {answer : Except ε (α × Tables)} {t : Tables} :
    committed answer = some t ↔ ∃ a, answer = .ok (a, t) := by
  cases answer with
  | error e => simp [committed]
  | ok both => simp [committed, Prod.ext_iff]

theorem createUser_spec {tables t : Tables} {account : NewAccount} {passwordHash : Text}
    {now : Instant} {user : User}
    (created : createUser tables account passwordHash now = .ok (user, t)) :
    user.id = tables.sequence + 1 ∧ (∀ row ∈ tables.users, row.username ≠ user.username) ∧
      t = { tables with users := tables.users ++ [user], sequence := tables.sequence + 1 } := by
  rw [createUser] at created
  split at created
  · cases created
  · obtain ⟨_, _, inserted⟩ := bind_eq_ok.mp created
    cases made : tables.insertUser
        ⟨account.username, account.email, passwordHash, account.role.getD "reader".toList⟩ now with
    | error e =>
        rw [made] at inserted
        cases inserted
    | ok both =>
        rw [made] at inserted
        cases inserted
        exact Tables.insertUser_spec made

theorem updateAccount_spec {tables t : Tables} {username : Text} {patch : AccountPatch} {admin : Bool}
    {now : Instant} {user : User}
    (updated : updateAccount tables username patch admin now = .ok (user, t)) :
    ∃ row f, tables.userNamed username = some row ∧ user = f row ∧
      (∀ row : User, (f row).id = row.id ∧ (f row).username = row.username ∧
        (f row).role = patch.role.getD row.role) ∧
      t = { tables with users := updateAt User.username username f tables.users } := by
  obtain ⟨_, _, rest⟩ := bind_eq_ok.mp updated
  obtain ⟨_, _, wrote⟩ := bind_eq_ok.mp rest
  cases made : tables.updateUser username ⟨patch.email, patch.passwordHash, patch.role, none⟩ now with
  | error e =>
      rw [made] at wrote
      cases wrote
  | ok both =>
      rw [made] at wrote
      cases wrote
      rw [Tables.updateUser] at made
      split at made
      · rename_i nothing
        simp only [UserPatch.touchesNothing, Bool.and_eq_true, Option.isNone_iff_eq_none] at nothing
        split at made
        · cases made
        · rename_i found
          cases made
          refine ⟨_, fun row => row, found, rfl, fun row => ⟨rfl, rfl, by simp [nothing.1.2]⟩, ?_⟩
          simp [updateAt]
      · split at made
        · cases made
        · rename_i found
          split at made
          · cases made
          · cases made
            exact ⟨_, Tables.patched _ now, found, rfl, fun row => ⟨rfl, rfl, rfl⟩, rfl⟩

/-- No account, no token, no identity; the repositories are there before. -/
def Tables.empty (repositories : List Repository) : Tables :=
  ⟨[], 0, [], [], [], [], [], [], repositories⟩

end OpenCargo.Identity
