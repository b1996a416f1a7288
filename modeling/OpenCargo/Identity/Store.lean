/-
Module: OpenCargo.Identity.Store
Purpose: The accounts, their tokens and the external identities linked to them (migrations 003, 010
  and 021), and the transactions over them (`adapters/sqlite/identities.rs`, `users.rs` and
  `tokens.rs`).
Trusted boundary: none
Main exports: Tables.migrateAuthority, Tables.issueSession, Tables.recordProbe
-/
import OpenCargo.Access.Scope
import OpenCargo.Lib.Fallible
import OpenCargo.Lib.Rows

namespace OpenCargo.Identity

open OpenCargo.Access (Rights TokenScope)
open OpenCargo.Lib (bind_eq_ok foldlM_keeps updateAt upsert)

/-! ### The rows -/

/-- An issuer, and the provider it is configured under. -/
structure Authority where
  provider : Text
  issuer : Text
deriving Repr, DecidableEq, Inhabited

structure IdentityKey where
  authority : Authority
  subject : Text
deriving Repr, DecidableEq, Inhabited

/-- `users`. -/
structure User where
  id : Nat
  username : Text
  email : Option Text
  passwordHash : Text
  role : Text
  mustChangePassword : Bool
  createdAt : Int
  updatedAt : Int
deriving Repr, DecidableEq, Inhabited

/-- `api_tokens`. -/
structure Token where
  id : Text
  userId : Nat
  name : Text
  lead : Text
  tokenHash : Text
  expiresAt : Option Int
  createdAt : Int
  scope : TokenScope
deriving Repr, DecidableEq, Inhabited

/-- `sso_token_provenance`: the identity a token was issued under. -/
structure Provenance where
  tokenId : Text
  key : IdentityKey
deriving Repr, DecidableEq, Inhabited

/-- `sso_identities`. -/
structure Link where
  key : IdentityKey
  userId : Nat
  email : Option Text
  /-- The account was created by this identity rather than linked to it. -/
  provisioned : Bool
  roleBeforeLink : Option Text
  disabled : Bool
  linkedAt : Int
  lastLoginAt : Int
deriving Repr, DecidableEq, Inhabited

inductive DisabledBy where
  | admin
  | denied
deriving Repr, DecidableEq, Inhabited

/-- `sso_user_states`: an account with a row is disabled. -/
structure UserState where
  userId : Nat
  disabledBy : DisabledBy
  disabledAt : Int
deriving Repr, DecidableEq, Inhabited

/-- `sso_outages`; no end while it lasts. -/
structure OutageRow where
  authority : Authority
  startedAt : Int
  endedAt : Option Int
deriving Repr, DecidableEq, Inhabited

/-- `PRIMARY KEY (provider, issuer, started_at)`. -/
def OutageRow.slot (row : OutageRow) : Authority × Int := (row.authority, row.startedAt)

/-- `user_permissions`. -/
structure Permission where
  userId : Nat
  repositoryId : Int
  rights : Rights
  createdAt : Int
deriving Repr, DecidableEq, Inhabited

/-- `UNIQUE(user_id, repository_id)`. -/
def Permission.slot (row : Permission) : Nat × Int := (row.userId, row.repositoryId)

structure Tables where
  users : List User
  /-- The last id `AUTOINCREMENT` gave. -/
  sequence : Nat
  tokens : List Token
  provenance : List Provenance
  links : List Link
  states : List UserState
  outages : List OutageRow
  permissions : List Permission
  repositories : List Repository
deriving Repr, DecidableEq, Inhabited

/-! ### What is asked -/

structure NewUser where
  username : Text
  email : Option Text
  passwordHash : Text
  role : Text
deriving Repr, DecidableEq, Inhabited

/-- Which columns of an account an update touches. -/
structure UserPatch where
  email : Option Text
  passwordHash : Option Text
  role : Option Text
  mustChangePassword : Option Bool
deriving Repr, DecidableEq, Inhabited

def UserPatch.touchesNothing (patch : UserPatch) : Bool :=
  patch.email.isNone && patch.passwordHash.isNone && patch.role.isNone &&
    patch.mustChangePassword.isNone

structure NewToken where
  id : Text
  userId : Nat
  name : Text
  lead : Text
  tokenHash : Text
  expiresAt : Option Instant
  scope : TokenScope
deriving Repr, DecidableEq, Inhabited

/-- A login of a known identity that the rules let in: the role and grants they give, applied with
the login's bookkeeping in one transaction. -/
structure Admission where
  key : IdentityKey
  email : Option Text
  /-- Applied only to an account this identity provisioned. -/
  role : Text
  grants : List (Int × Rights)
  /-- Every repository the provider's rules name: a grant on one of them that is not in `grants` any
  more is revoked. -/
  managed : List Int
deriving Repr, DecidableEq, Inhabited

namespace Tables

/-! ### Accounts -/

/-- `CHECK(role IN ('admin', 'publisher', 'reader'))`. -/
def checkRole (role : Text) : Bool :=
  role == "admin".toList || role == "publisher".toList || role == "reader".toList

def user (tables : Tables) (id : Nat) : Option User := tables.users.find? fun row => row.id == id

def userNamed (tables : Tables) (username : Text) : Option User :=
  tables.users.find? fun row => row.username == username

def onUser (tables : Tables) (id : Nat) (f : User → User) : Tables :=
  { tables with users := updateAt User.id id f tables.users }

/-- `users::insert_in`, and `UserStore::create`, whose `UNIQUE` answers what the check does. -/
def insertUser (tables : Tables) (new : NewUser) (now : Instant) :
    Except StoreError (User × Tables) :=
  if tables.users.any fun row => row.username == new.username then .error .conflict
  else if !checkRole new.role then .error .other
  else
    let created : User :=
      { id := tables.sequence + 1
        username := new.username
        email := new.email
        passwordHash := new.passwordHash
        role := new.role
        mustChangePassword := false
        createdAt := bindTs now
        updatedAt := bindTs now }
    .ok (created,
      { tables with users := tables.users ++ [created], sequence := tables.sequence + 1 })

/-- The row an update leaves of `row`. -/
def patched (patch : UserPatch) (now : Instant) (row : User) : User :=
  { row with
    email := patch.email.or row.email
    passwordHash := patch.passwordHash.getD row.passwordHash
    role := patch.role.getD row.role
    mustChangePassword := patch.mustChangePassword.getD row.mustChangePassword
    updatedAt := bindTs now }

/-- `UserStore::update`; a patch that touches nothing reads the account back. -/
def updateUser (tables : Tables) (username : Text) (patch : UserPatch) (now : Instant) :
    Except StoreError (User × Tables) :=
  if patch.touchesNothing then
    match tables.userNamed username with
    | none => .error .notFound
    | some row => .ok (row, tables)
  else
    match tables.userNamed username with
    | none => .error .notFound
    | some row =>
        if patch.role.any fun role => !checkRole role then .error .other
        else .ok (patched patch now row,
          { tables with users := updateAt User.username username (patched patch now) tables.users })

/-- `UPDATE users SET role = ?2 WHERE id = ?1`, under the `CHECK`. -/
def setRole (tables : Tables) (id : Nat) (role : Text) (f : User → User) :
    Except StoreError Tables :=
  if (tables.user id).isSome && !checkRole role then .error .other
  else .ok (tables.onUser id fun row => { f row with role := role })

/-- `DELETE FROM users WHERE username = ?1`; what references the account goes with it. -/
def deleteUser (tables : Tables) (username : Text) : Except StoreError (Unit × Tables) :=
  match tables.userNamed username with
  | none => .error .notFound
  | some row =>
      let tokens := (tables.tokens.filter fun token => token.userId == row.id).map Token.id
      .ok ((),
        { tables with
          users := tables.users.filter fun user => user.username != username
          tokens := tables.tokens.filter fun token => token.userId != row.id
          provenance := tables.provenance.filter fun origin => !tokens.contains origin.tokenId
          links := tables.links.filter fun link => link.userId != row.id
          states := tables.states.filter fun state => state.userId != row.id
          permissions := tables.permissions.filter fun grant => grant.userId != row.id })

/-! ### Tokens -/

/-- `DELETE FROM api_tokens WHERE id IN …`; a token's provenance goes with it. -/
def deleteTokens (tables : Tables) (ids : List Text) : Tables :=
  { tables with
    tokens := tables.tokens.filter fun token => !ids.contains token.id
    provenance := tables.provenance.filter fun origin => !ids.contains origin.tokenId }

def NewToken.row (token : NewToken) (now : Instant) : Token where
  id := token.id
  userId := token.userId
  name := token.name
  lead := token.lead
  tokenHash := token.tokenHash
  expiresAt := token.expiresAt.map bindTs
  createdAt := bindTs now
  scope := token.scope

/-- `tokens::insert_in`, under the primary key and the reference to the account. -/
def insertToken (tables : Tables) (token : NewToken) (now : Instant) : Except StoreError Tables :=
  if tables.tokens.any fun row => row.id == token.id then .error .conflict
  else if (tables.user token.userId).isNone then .error .conflict
  else .ok { tables with tokens := tables.tokens ++ [NewToken.row token now] }

/-- The tokens issued under the identity. -/
def issuedUnder (tables : Tables) (key : IdentityKey) : List Text :=
  (tables.provenance.filter fun origin => origin.key == key).map Provenance.tokenId

/-- `revoke_identity`. -/
def revokeIdentity (tables : Tables) (key : IdentityKey) : Tables :=
  tables.deleteTokens (tables.issuedUnder key)

/-- `revoke_user`: the tokens issued under the identities linked to the account. -/
def revokeUser (tables : Tables) (id : Nat) : Tables :=
  let owned (origin : Provenance) : Bool :=
    tables.links.any fun link => link.key == origin.key && link.userId == id
  tables.deleteTokens ((tables.provenance.filter owned).map Provenance.tokenId)

/-! ### Identities -/

def link (tables : Tables) (key : IdentityKey) : Option Link :=
  tables.links.find? fun row => row.key == key

def onLink (tables : Tables) (key : IdentityKey) (f : Link → Link) : Tables :=
  { tables with links := updateAt Link.key key f tables.links }

/-- One turn of the loop of `apply_grants`. -/
def applyGrant (id : Nat) (a : Admission) (now : Instant) (tables : Tables) (repo : Int) :
    Except StoreError Tables :=
  match (a.grants.find? fun grant => grant.1 == repo).map Prod.snd with
  | some rights =>
      if tables.repositories.any fun row => row.id == repo then
        .ok { tables with
          permissions := upsert Permission.slot (fun row => { row with rights := rights })
            ⟨id, repo, rights, bindTs now⟩ tables.permissions }
      else .error .conflict
  | none =>
      .ok { tables with
        permissions := tables.permissions.filter fun row => row.slot != (id, repo) }

def applyGrants (tables : Tables) (id : Nat) (a : Admission) (now : Instant) :
    Except StoreError Tables :=
  a.managed.foldlM (applyGrant id a now) tables

/-- The link of an account its identity created. -/
def provisionedLink (id : Nat) (a : Admission) (now : Instant) : Link where
  key := a.key
  userId := id
  email := a.email
  provisioned := true
  roleBeforeLink := none
  disabled := false
  linkedAt := bindTs now
  lastLoginAt := bindTs now

/-- `provision_in`: a new account and its link. -/
def provision (tables : Tables) (new : NewUser) (a : Admission) (now : Instant) :
    Except StoreError (User × Tables) := do
  let (created, tables) ← tables.insertUser new now
  if (tables.link a.key).isSome then .error .conflict
  else
    let tables := { tables with links := tables.links ++ [provisionedLink created.id a now] }
    return (created, ← tables.applyGrants created.id a now)

/-- `DELETE FROM sso_user_states WHERE user_id = ?1 AND disabled_by = 'denied'`. -/
def liftDenied (tables : Tables) (id : Nat) : Tables :=
  { tables with
    states := tables.states.filter fun state =>
      !(state.userId == id && state.disabledBy == .denied) }

/-- The role the rules give goes to an account the identity provisioned. -/
def followRules (tables : Tables) (link : Link) (a : Admission) (now : Instant) :
    Except StoreError Tables :=
  if link.provisioned then
    tables.setRole link.userId a.role fun row => { row with updatedAt := bindTs now }
  else .ok tables

/-- `admit_in`: lifts a disablement the rules made, never one an admin made. -/
def admit_ (tables : Tables) (a : Admission) (now : Instant) : Except StoreError (User × Tables) :=
  match tables.link a.key with
  | none => .error .notFound
  | some link =>
      if link.disabled then .error .notFound
      else do
        let seen := (tables.onLink a.key fun row =>
          { row with email := a.email, lastLoginAt := bindTs now }).liftDenied link.userId
        let ruled ← seen.followRules link a now
        let granted ← ruled.applyGrants link.userId a now
        match granted.user link.userId with
        | some user => return (user, granted)
        | none => .error .notFound

/-- `attach_in`: links an existing account, remembering its role. -/
def attach (tables : Tables) (id : Nat) (key : IdentityKey) (email : Option Text) (now : Instant) :
    Except StoreError (Unit × Tables) :=
  match tables.user id with
  | none => .error .notFound
  | some user =>
      if (tables.link key).isSome then .error .conflict
      else
        let link : Link :=
          { key := key
            userId := id
            email := email
            provisioned := false
            roleBeforeLink := some user.role
            disabled := false
            linkedAt := bindTs now
            lastLoginAt := bindTs now }
        .ok ((), { tables with links := tables.links ++ [link] })

/-- The tables without the link and what was issued under it. -/
def unlinked (tables : Tables) (key : IdentityKey) : Tables :=
  { tables.revokeIdentity key with links := tables.links.filter fun row => row.key != key }

/-- `detach_in`: removes the link, revokes what it produced and restores the role the account had
before it. -/
def detach (tables : Tables) (id : Nat) (key : IdentityKey) : Except StoreError (Unit × Tables) :=
  match tables.links.find? fun row => row.key == key && row.userId == id with
  | none => .error .notFound
  | some link =>
      match link.roleBeforeLink with
      | some role => do return ((), ← (tables.unlinked key).setRole id role fun row => row)
      | none => .ok ((), tables.unlinked key)

/-- `disable_link_in`. -/
def disableLink (tables : Tables) (key : IdentityKey) : Except StoreError (Unit × Tables) :=
  if (tables.link key).isNone then .error .notFound
  else .ok ((), (tables.onLink key fun row => { row with disabled := true }).revokeIdentity key)

/-- `INSERT INTO sso_user_states … ON CONFLICT`: an admin's mark stays an admin's. -/
def markDisabled (tables : Tables) (id : Nat) (disabledBy : DisabledBy) (now : Instant) : Tables :=
  { tables with
    states := upsert UserState.userId
      (fun row => { row with
        disabledBy := if row.disabledBy = .admin then .admin else disabledBy })
      ⟨id, disabledBy, bindTs now⟩ tables.states }

/-- `disable_user_in`. -/
def disableUser (tables : Tables) (id : Nat) (disabledBy : DisabledBy) (now : Instant) :
    Except StoreError (Unit × Tables) :=
  if (tables.user id).isNone then .error .notFound
  else .ok ((), (tables.markDisabled id disabledBy now).revokeUser id)

/-- `enable_user`. -/
def enableUser (tables : Tables) (id : Nat) : Tables :=
  { tables with states := tables.states.filter fun state => state.userId != id }

/-- `deprovision_in`. -/
def deprovision (tables : Tables) (key : IdentityKey) (now : Instant) :
    Except StoreError (Unit × Tables) :=
  match tables.link key with
  | none => .error .notFound
  | some link => tables.disableUser link.userId .denied now

/-- `revoke_authority_in`; the number of tokens revoked. -/
def revokeAuthority (tables : Tables) (authority : Authority) : Nat × Tables :=
  let ids := (tables.provenance.filter fun origin => origin.key.authority == authority).map
    Provenance.tokenId
  let revoked := tables.deleteTokens ids
  (tables.tokens.length - revoked.tokens.length,
    { revoked with
      links := revoked.links.map fun row =>
        if row.key.authority = authority then { row with disabled := true } else row })

/-- The authority a row is under once `source` has moved to `target`. -/
def moved (source target authority : Authority) : Authority :=
  if authority = source then target else authority

def movedKey (source target : Authority) (key : IdentityKey) : IdentityKey :=
  { key with authority := moved source target key.authority }

/-- `migrate_authority_in`; the moved rows are under their primary keys or nothing moves. -/
def migrateAuthority (tables : Tables) (source target : Authority) :
    Except StoreError (Unit × Tables) :=
  let links := tables.links.map fun row => { row with key := movedKey source target row.key }
  let outages := tables.outages.map fun row =>
    { row with authority := moved source target row.authority }
  if (links.map Link.key).Nodup ∧ (outages.map OutageRow.slot).Nodup then
    .ok ((),
      { tables with
        links := links
        provenance := tables.provenance.map fun row =>
          { row with key := movedKey source target row.key }
        outages := outages })
  else .error .conflict

/-- `issue_session_in`: a token with its provenance, while the link is live, belongs to the token's
account and that account is enabled. -/
def issueSession (tables : Tables) (token : NewToken) (key : IdentityKey) (now : Instant) :
    Except StoreError (Unit × Tables) :=
  let live := (tables.links.any fun row =>
      row.key == key && row.userId == token.userId && !row.disabled) &&
    !tables.states.any fun state => state.userId == token.userId
  if !live then .error .notFound
  else do
    let tables ← tables.insertToken token now
    return ((), { tables with provenance := tables.provenance ++ [⟨token.id, key⟩] })

def openOutage (tables : Tables) (authority : Authority) : Option OutageRow :=
  tables.outages.find? fun row => row.authority == authority && row.endedAt.isNone

/-- `record_probe_in`: a failure opens an outage, a success closes it. -/
def recordProbe (tables : Tables) (authority : Authority) (reachable : Bool) (now : Instant) :
    Except StoreError (Unit × Tables) :=
  match tables.openOutage authority, reachable with
  | some row, true =>
      .ok ((),
        { tables with
          outages := updateAt OutageRow.slot row.slot
            (fun row => { row with endedAt := some (bindTs now) }) tables.outages })
  | none, false =>
      let opened : OutageRow := ⟨authority, bindTs now, none⟩
      if tables.outages.any fun row => row.slot == opened.slot then .error .conflict
      else .ok ((), { tables with outages := tables.outages ++ [opened] })
  | _, _ => .ok ((), tables)

/-! ### What a transaction writes -/

section Writes

variable {tables t : Tables} {id : Nat} {key : IdentityKey} {a : Admission} {now : Instant}

theorem mem_of_link {link : Link} (found : tables.link key = some link) :
    link ∈ tables.links ∧ link.key = key :=
  ⟨List.mem_of_find?_eq_some found, by simpa using List.find?_some found⟩

theorem mem_of_user {user : User} (found : tables.user id = some user) :
    user ∈ tables.users ∧ user.id = id :=
  ⟨List.mem_of_find?_eq_some found, by simpa using List.find?_some found⟩

theorem insertUser_spec {new : NewUser} {created : User}
    (done : tables.insertUser new now = .ok (created, t)) :
    created.id = tables.sequence + 1 ∧ (∀ row ∈ tables.users, row.username ≠ created.username) ∧
      t = { tables with users := tables.users ++ [created], sequence := tables.sequence + 1 } := by
  rw [insertUser] at done
  split at done
  · cases done
  · rename_i free
    split at done
    · cases done
    · cases done
      exact ⟨rfl, by simpa using free, rfl⟩

theorem setRole_spec {role : Text} {f : User → User} (done : tables.setRole id role f = .ok t) :
    t = tables.onUser id fun row => { f row with role := role } := by
  rw [setRole] at done
  split at done
  · cases done
  · cases done
    rfl

theorem insertToken_spec {token : NewToken} (done : tables.insertToken token now = .ok t) :
    (∀ row ∈ tables.tokens, row.id ≠ token.id) ∧
      t = { tables with tokens := tables.tokens ++ [NewToken.row token now] } := by
  rw [insertToken] at done
  split at done
  · cases done
  · rename_i fresh
    split at done
    · cases done
    · cases done
      exact ⟨by simpa using fresh, rfl⟩

theorem applyGrant_spec {repo : Int} (done : applyGrant id a now tables repo = .ok t) :
    ∃ permissions, t = { tables with permissions := permissions } := by
  rw [applyGrant] at done
  split at done
  · split at done
    · cases done
      exact ⟨_, rfl⟩
    · cases done
  · cases done
    exact ⟨_, rfl⟩

theorem applyGrants_spec (done : tables.applyGrants id a now = .ok t) :
    ∃ permissions, t = { tables with permissions := permissions } := by
  apply foldlM_keeps (fun s t => ∃ permissions, t = { s with permissions := permissions })
    (fun s => ⟨s.permissions, rfl⟩) ?_ (fun _ _ _ _ turn => applyGrant_spec turn) done
  rintro s _ _ ⟨first, rfl⟩ ⟨second, rfl⟩
  exact ⟨second, rfl⟩

theorem provision_spec {new : NewUser} {created : User}
    (done : tables.provision new a now = .ok (created, t)) :
    created.id = tables.sequence + 1 ∧ (∀ row ∈ tables.users, row.username ≠ created.username) ∧
      tables.link a.key = none ∧ ∃ permissions,
      t = { tables with
        users := tables.users ++ [created]
        sequence := tables.sequence + 1
        links := tables.links ++ [provisionedLink created.id a now]
        permissions := permissions } := by
  obtain ⟨⟨user, next⟩, inserted, rest⟩ := bind_eq_ok.mp done
  obtain ⟨numbered, named, rfl⟩ := insertUser_spec inserted
  simp only at rest
  split at rest
  · cases rest
  · rename_i free
    obtain ⟨granted, applied, same⟩ := bind_eq_ok.mp rest
    cases same
    obtain ⟨permissions, rfl⟩ := applyGrants_spec applied
    exact ⟨numbered, named, by simpa [link] using free, permissions, rfl⟩

/-- The account row of an admitted login: the rules' role, where the identity provisioned it. -/
def ruled (link : Link) (a : Admission) (now : Instant) (row : User) : User :=
  if link.provisioned then { row with role := a.role, updatedAt := bindTs now } else row

@[simp] theorem ruled_id (link : Link) (row : User) : (ruled link a now row).id = row.id := by
  rw [ruled]
  split <;> rfl

@[simp] theorem ruled_username (link : Link) (row : User) :
    (ruled link a now row).username = row.username := by
  rw [ruled]
  split <;> rfl

theorem followRules_spec {link : Link} (done : tables.followRules link a now = .ok t) :
    t = tables.onUser link.userId (ruled link a now) := by
  rw [followRules] at done
  split at done
  · rename_i provisioned
    have same : ruled link a now =
        fun row => { row with role := a.role, updatedAt := bindTs now } := by
      funext row
      simp [ruled, provisioned]
    rw [setRole_spec done, same]
  · rename_i joined
    cases done
    simp [onUser, updateAt, ruled, joined]

theorem admit_spec {user : User} (done : tables.admit_ a now = .ok (user, t)) :
    ∃ link, tables.link a.key = some link ∧ link.disabled = false ∧ ∃ permissions,
      t = { tables with
        users := updateAt User.id link.userId (ruled link a now) tables.users
        links := updateAt Link.key a.key
          (fun row => { row with email := a.email, lastLoginAt := bindTs now }) tables.links
        states := (tables.liftDenied link.userId).states
        permissions := permissions } ∧
      t.user link.userId = some user := by
  rw [admit_] at done
  split at done
  · cases done
  · rename_i link found
    split at done
    · cases done
    · rename_i enabled
      obtain ⟨next, follows, rest⟩ := bind_eq_ok.mp done
      obtain ⟨granted, applied, read⟩ := bind_eq_ok.mp rest
      cases followRules_spec follows
      obtain ⟨permissions, rfl⟩ := applyGrants_spec applied
      split at read
      · rename_i row held
        cases read
        exact ⟨link, found, by simpa using enabled, permissions, rfl, held⟩
      · cases read

theorem attach_spec {email : Option Text} {done : Unit}
    (attached : tables.attach id key email now = .ok (done, t)) :
    ∃ user, tables.user id = some user ∧ tables.link key = none ∧
      t = { tables with
        links := tables.links ++
          [⟨key, id, email, false, some user.role, false, bindTs now, bindTs now⟩] } := by
  rw [attach] at attached
  split at attached
  · cases attached
  · rename_i user found
    split at attached
    · cases attached
    · rename_i free
      cases attached
      exact ⟨user, found, by simpa using free, rfl⟩

/-- The account row of a removed link: its role is what the link remembers, if it remembers one. -/
def restored (link : Link) (row : User) : User :=
  { row with role := link.roleBeforeLink.getD row.role }

@[simp] theorem restored_id (link : Link) (row : User) : (restored link row).id = row.id := rfl

@[simp] theorem restored_username (link : Link) (row : User) :
    (restored link row).username = row.username := rfl

theorem detach_spec {done : Unit} (detached : tables.detach id key = .ok (done, t)) :
    ∃ link ∈ tables.links, link.key = key ∧ link.userId = id ∧
      t = (tables.unlinked key).onUser id (restored link) := by
  rw [detach] at detached
  split at detached
  · cases detached
  · rename_i link found
    have ⟨keyed, owned⟩ : link.key = key ∧ link.userId = id := by
      simpa using List.find?_some found
    refine ⟨link, List.mem_of_find?_eq_some found, keyed, owned, ?_⟩
    split at detached
    · rename_i role remembered
      obtain ⟨next, set, same⟩ := bind_eq_ok.mp detached
      cases same
      have same : restored link = fun row => { row with role := role } := by
        funext row
        simp [restored, remembered]
      rw [setRole_spec set, same]
    · rename_i forgotten
      cases detached
      simp [restored, forgotten, onUser, updateAt]

theorem disableLink_spec {done : Unit} (disabled : tables.disableLink key = .ok (done, t)) :
    t = (tables.onLink key fun row => { row with disabled := true }).revokeIdentity key := by
  rw [disableLink] at disabled
  split at disabled
  · cases disabled
  · cases disabled
    rfl

theorem disableUser_spec {disabledBy : DisabledBy} {done : Unit}
    (disabled : tables.disableUser id disabledBy now = .ok (done, t)) :
    t = (tables.markDisabled id disabledBy now).revokeUser id := by
  rw [disableUser] at disabled
  split at disabled
  · cases disabled
  · cases disabled
    rfl

theorem deprovision_spec {done : Unit} (disabled : tables.deprovision key now = .ok (done, t)) :
    ∃ link, tables.link key = some link ∧
      t = (tables.markDisabled link.userId .denied now).revokeUser link.userId := by
  rw [deprovision] at disabled
  split at disabled
  · cases disabled
  · rename_i link found
    exact ⟨link, found, disableUser_spec disabled⟩

theorem migrateAuthority_spec {source target : Authority} {done : Unit}
    (migrated : tables.migrateAuthority source target = .ok (done, t)) :
    (t.links.map Link.key).Nodup ∧ (t.outages.map OutageRow.slot).Nodup ∧
      t = { tables with
        links := tables.links.map fun row => { row with key := movedKey source target row.key }
        provenance := tables.provenance.map fun row =>
          { row with key := movedKey source target row.key }
        outages := tables.outages.map fun row =>
          { row with authority := moved source target row.authority } } := by
  rw [migrateAuthority] at migrated
  split at migrated
  · rename_i unique
    cases migrated
    exact ⟨unique.1, unique.2, rfl⟩
  · cases migrated

/-- A session is issued for the account of an enabled link, while the account is enabled. -/
theorem issueSession_spec {token : NewToken} {done : Unit}
    (issued : tables.issueSession token key now = .ok (done, t)) :
    (∃ link ∈ tables.links, link.key = key ∧ link.userId = token.userId ∧ link.disabled = false) ∧
      (∀ state ∈ tables.states, state.userId ≠ token.userId) ∧
      (∀ row ∈ tables.tokens, row.id ≠ token.id) ∧
      t = { tables with
        tokens := tables.tokens ++ [NewToken.row token now]
        provenance := tables.provenance ++ [⟨token.id, key⟩] } := by
  rw [issueSession] at issued
  split at issued
  · cases issued
  · rename_i live
    obtain ⟨next, inserted, same⟩ := bind_eq_ok.mp issued
    cases same
    obtain ⟨fresh, rfl⟩ := insertToken_spec inserted
    simp only [Bool.not_eq_true', Bool.not_eq_false, Bool.and_eq_true, List.any_eq_true, beq_iff_eq,
      List.any_eq_false] at live
    obtain ⟨⟨link, mem, ⟨keyed, owned⟩, enabled⟩, none⟩ := live
    exact ⟨⟨link, mem, keyed, owned, enabled⟩, none, fresh, rfl⟩

theorem recordProbe_spec {authority : Authority} {reachable : Bool} {done : Unit}
    (probed : tables.recordProbe authority reachable now = .ok (done, t)) :
    ∃ outages, t = { tables with outages := outages } := by
  unfold recordProbe at probed
  split at probed
  · cases probed
    exact ⟨_, rfl⟩
  · simp only at probed
    split at probed
    · cases probed
    · cases probed
      exact ⟨_, rfl⟩
  · cases probed
    exact ⟨_, rfl⟩

/-- The tokens, the links and the marks an account leaves behind are those of others. -/
theorem deleteUser_spec {username : Text} {done : Unit}
    (deleted : tables.deleteUser username = .ok (done, t)) :
    ∃ user, tables.userNamed username = some user ∧
      t.users = tables.users.filter (fun other => other.username != username) ∧
      t.tokens = tables.tokens.filter (fun token => token.userId != user.id) ∧
      t.provenance = tables.provenance.filter (fun origin =>
        !((tables.tokens.filter fun token => token.userId == user.id).map Token.id).contains
          origin.tokenId) ∧
      t.links = tables.links.filter (fun link => link.userId != user.id) ∧
      t.states = tables.states.filter (fun state => state.userId != user.id) ∧
      t.outages = tables.outages := by
  rw [deleteUser] at deleted
  split at deleted
  · cases deleted
  · rename_i user found
    cases deleted
    exact ⟨user, found, rfl, rfl, rfl, rfl, rfl, rfl⟩

end Writes

end Tables

end OpenCargo.Identity
