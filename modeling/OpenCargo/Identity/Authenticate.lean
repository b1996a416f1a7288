/-
Module: OpenCargo.Identity.Authenticate
Purpose: The verification of a credential (`app/authenticate.rs`), and the registry tokens that are
  bought with one (`registry/oci/token.rs`): the claims they carry and how a request resolves them
  again. A refusal is `none`; the failure limiters, which only ever refuse, are not here.
Trusted boundary: a signature opens to the claims it was made over; the hash of a token, the password
  verification and the fingerprint of a static token are functions of the deployment
Main exports: Server.password, Server.registryToken, Server.one, Server.issueToken
-/
import OpenCargo.Identity.Gate

namespace OpenCargo.Identity

open OpenCargo.Access (TokenScope)

/-- Who a request acts as. -/
structure AuthUser where
  token : Text
  userId : Option Nat
  username : Text
  role : Text
  mustChangePassword : Bool
  tokenName : Option Text
  apiTokenId : Option Text
  scope : TokenScope
deriving Repr, DecidableEq, Inhabited

namespace AuthUser

def fromUser (user : User) (token : Text) (credential : Option Token) : AuthUser where
  token := token
  userId := some user.id
  username := user.username
  role := user.role
  mustChangePassword := user.mustChangePassword
  tokenName := credential.map Token.name
  apiTokenId := credential.map Token.id
  scope := (credential.map Token.scope).getD .inherit_

/-- The synthetic admin a static config token acts as. -/
def staticToken (token : Text) : AuthUser where
  token := token
  userId := none
  username := "static-token".toList
  role := "admin".toList
  mustChangePassword := false
  tokenName := none
  apiTokenId := none
  scope := .inherit_

end AuthUser

/-- What a registry token carries. -/
structure Claims where
  sub : Option Text
  /-- In seconds. -/
  exp : Int
  scope : List Text
  staticToken : Bool
  apiTokenId : Option Text
  staticKey : Option Text
deriving Repr, DecidableEq, Inhabited

/-- `TokenSigner`, under the key the secret store holds. -/
structure Signer where
  sign : Claims → Text
  /-- The claims of a token whose signature holds. -/
  opened : Text → Option Claims
  opened_sign : ∀ claims, opened (sign claims) = some claims
  fingerprint : Text → Text

/-- The claims of a token whose signature holds and which has not expired. -/
def Signer.verify (signer : Signer) (now : Instant) (token : Text) : Option Claims :=
  (signer.opened token).filter fun claims => claims.exp > bindTs now

inductive Credential where
  | basic (username password : Text)
  | bearer (raw : Text)
  | registry (raw : Text)
  | apiKey (raw : Text)
deriving Repr, DecidableEq, Inhabited

/-- `None` for the user of an anonymous registry token. -/
structure Authenticated where
  user : Option AuthUser
  claims : Option Claims
deriving Repr, DecidableEq, Inhabited

def principal (user : AuthUser) : Authenticated := ⟨some user, none⟩

/-- What stays as it is while the accounts and the static tokens change. -/
structure Deployment where
  tokenPrefix : Text
  anonymousRead : Bool
  bootstrap : Option Text
  policy : GatePolicy
  signer : Signer
  hashToken : Text → Text
  verifyPassword : Text → Text → Bool

namespace Deployment

variable (d : Deployment)

/-- `scoped_prefix`: `trg_` issues `trgs_`. -/
def scopedPrefix : Text :=
  (if d.tokenPrefix.getLast? = some '_' then d.tokenPrefix.dropLast else d.tokenPrefix) ++ "s_".toList

def isScopedForm (raw : Text) : Bool := d.scopedPrefix.isPrefixOf raw

/-- The hash stored for a credential, which its form decides. -/
def hashCredential (token : Text) : Text :=
  if d.isScopedForm token then d.hashToken ("scoped:".toList ++ token) else d.hashToken token

end Deployment

/-- The first `n` bytes, where they end between two characters. -/
def leadOf : Nat → Text → Option Text
  | 0, _ => some []
  | _ + 1, [] => none
  | n + 1, c :: rest =>
      if c.utf8Size ≤ n + 1 then (leadOf (n + 1 - c.utf8Size) rest).map (c :: ·) else none

/-- `expires_at` reads back as whole seconds. -/
def Token.isLive (token : Token) (now : Instant) : Bool :=
  token.expiresAt.all fun stored => now ≤ readTs stored

/-- The accounts, the configured static tokens and the clock, as one request finds them. -/
structure Server where
  tables : Tables
  staticTokens : List Text
  now : Instant
deriving Repr, DecidableEq, Inhabited

namespace Server

variable (d : Deployment) (s : Server)

def allowed (user : User) (kind : CredentialKind) : Bool :=
  s.tables.gate d.bootstrap d.policy user kind s.now

def isStatic (raw : Text) : Bool := s.staticTokens.any (· == raw)

/-- The API token behind `raw`, if it exists, matches and is still live. -/
def liveApiToken (raw : Text) : Option Token := do
  let lead ← leadOf 16 raw
  let stored ← s.tables.tokens.find? fun token => token.lead == lead
  if d.hashCredential raw != stored.tokenHash || !stored.isLive s.now then none else some stored

def liveApiTokenById (id : Text) : Option Token :=
  (s.tables.tokens.find? fun token => token.id == id).filter fun token => token.isLive s.now

/-- A static config token or a stored API token. -/
def secretToken (raw : Text) : Option AuthUser :=
  if s.isStatic raw then some (.staticToken raw)
  else do
    let stored ← s.liveApiToken d raw
    let user ← s.tables.user stored.userId
    if s.allowed d user .apiToken then some (.fromUser user raw (some stored)) else none

def isTokenShaped (raw : Text) : Bool :=
  d.tokenPrefix.isPrefixOf raw || d.isScopedForm raw || s.isStatic raw

def password (username password : Text) : Option AuthUser := do
  let user ← s.tables.userNamed username
  if d.verifyPassword password user.passwordHash && s.allowed d user .password then
    some (.fromUser user [] none)
  else none

/-- The API token a registry token was bought with, if any; `none` when it is not live any more. -/
def boughtWith : Option Text → Option (Option Token)
  | none => some none
  | some id => (s.liveApiTokenById id).map some

/-- Who verified claims name now. -/
def resolved (raw : Text) (claims : Claims) : Option Authenticated := do
  let boughtWith ← s.boughtWith claims.apiTokenId
  if claims.staticToken then
    let key ← claims.staticKey
    if s.staticTokens.any fun st => d.signer.fingerprint st == key then
      some ⟨some (.staticToken raw), some claims⟩
    else none
  else
    match claims.sub with
    | none => some ⟨none, some claims⟩
    | some username => do
        let user ← s.tables.userNamed username
        if s.allowed d user .registryToken then
          some ⟨some (.fromUser user raw boughtWith), some claims⟩
        else none

/-- A registry token re-checks the API token it was bought with and the user it names, then the gate, on
every request. -/
def registryToken (raw : Text) : Option Authenticated :=
  (d.signer.verify s.now raw).bind (s.resolved d raw)

theorem registryToken_sign {claims : Claims} (unexpired : bindTs s.now < claims.exp) :
    s.registryToken d (d.signer.sign claims) = s.resolved d (d.signer.sign claims) claims := by
  rw [registryToken, Signer.verify, d.signer.opened_sign, Option.filter_some, if_pos (by simpa using unexpired)]
  rfl

def one : Credential → Option Authenticated
  | .basic username secret =>
      match s.secretToken d secret with
      | some user => some (principal user)
      | none => if s.isTokenShaped d secret then none else (s.password d username secret).map principal
  | .bearer raw | .apiKey raw => (s.secretToken d raw).map principal
  | .registry raw => s.registryToken d raw

/-- The user behind the `Authorization` header, `some none` when there is no header. -/
def caller : Option Credential → Option (Option AuthUser)
  | none => some none
  | some (.registry _) => none
  | some credential => (s.one d credential).map Authenticated.user

/-- `issue_token`: the claims that are signed, and who they are issued to. -/
def issueToken (credential : Option Credential) (params : List (Text × Text)) :
    Option (Option AuthUser × Claims) := do
  let user ← s.caller d credential
  if user.isNone && !d.anonymousRead then none
  else
    let apiTokenId := user.bind AuthUser.apiTokenId
    -- a scoped credential with no resolved provenance
    if user.any fun caller => !caller.scope.isInherit && apiTokenId.isNone then none
    else
      let issuedFor := user.filter fun u => u.userId.isNone
      some (user,
        { sub := user.map AuthUser.username
          exp := bindTs s.now + 3600
          scope := ((params.filter fun (key, value) =>
            key == "scope".toList && Keys.byteLength value ≤ 256).map Prod.snd).take 16
          staticToken := issuedFor.isSome
          apiTokenId := apiTokenId
          staticKey := issuedFor.map fun u => d.signer.fingerprint u.token })

end Server

end OpenCargo.Identity
