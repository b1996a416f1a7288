/-
Module: OpenCargo.Identity.Bought
Purpose: For whom a registry token acts. Accounts, API tokens and static tokens change while registry
  tokens are out; a token acts for the one it was issued to in every run that creates no account under
  the name of one whose tokens, bought without an API token, have not run out.
Trusted boundary: a random token id is not drawn twice
Main exports: Bought, Bought.step, acts_for_its_buyer, token_of_a_namesake
-/
import OpenCargo.Identity.Authenticate
import OpenCargo.Identity.Roles
import Mathlib.Logic.Equiv.List

namespace OpenCargo.Identity

open OpenCargo.Lib

/-! ### Purchases among the other operations -/

/-- A registry token that was issued, and who was authenticated then. -/
structure Sold where
  buyer : Option AuthUser
  claims : Claims
deriving Repr, DecidableEq, Inhabited

structure World where
  server : Server
  /-- Every static token there ever was. -/
  configured : List Text
  /-- Every token id that was drawn. -/
  drawn : List Text
  sold : List Sold
deriving Repr, DecidableEq, Inhabited

inductive Event where
  | store (act : Act)
  /-- The static tokens of the configuration, after a restart. -/
  | configure (staticTokens : List Text)
  | pass (nanos : Nat)
  | buy (credential : Option Credential) (params : List (Text × Text))
deriving Repr, DecidableEq, Inhabited

/-- The id drawn for a new token. -/
def Act.draws : Act → Option Text
  | .createToken token _ | .issueSession token _ _ => some token.id
  | _ => none

/-- The name of the account to be created. -/
def Act.creates : Act → Option Text
  | .createUser account _ _ => some account.username
  | .provision new _ _ => some new.username
  | _ => none

namespace World

def tables (w : World) : Tables := w.server.tables

def step (d : Deployment) (w : World) : Event → Option World
  | .store act =>
      if act.draws.any w.drawn.contains then none
      else (w.tables.step act).map fun tables =>
        { w with server := { w.server with tables := tables }, drawn := act.draws.toList ++ w.drawn }
  | .configure staticTokens =>
      some { w with
        server := { w.server with staticTokens := staticTokens }
        configured := staticTokens ++ w.configured }
  | .pass nanos => some { w with server := { w.server with now := w.server.now + nanos } }
  | .buy credential params =>
      match w.server.issueToken d credential params with
      | none => some w
      | some (buyer, claims) => some { w with sold := w.sold ++ [⟨buyer, claims⟩] }

def begin_ (repositories : List Repository) (now : Instant) : World :=
  ⟨⟨Tables.empty repositories, [], now⟩, [], [], []⟩

end World

/-- The answer acts for the one who was authenticated at the purchase: the same account, which is there
and passes the gate, with the scope of the API token it used, which is live; or the same static token. -/
def ActsFor (d : Deployment) (s : Server) (raw : Text) (buyer : Option AuthUser) (a : Authenticated) :
    Prop :=
  match buyer with
  | none => a.user = none
  | some b =>
      match b.userId with
      | none => b.token ∈ s.staticTokens ∧ a.user = some (.staticToken raw)
      | some id => ∃ row ∈ s.tables.users, row.id = id ∧ s.allowed d row .registryToken = true ∧
          match b.apiTokenId with
          | none => a.user = some (.fromUser row raw none)
          | some tokenId => ∃ token ∈ s.tables.tokens, token.id = tokenId ∧ token.userId = id ∧
              token.scope = b.scope ∧ token.isLive s.now = true ∧
              a.user = some (.fromUser row raw (some token))

/-- Every registry token that is accepted acts for the one it was issued to. -/
def Faithful (d : Deployment) (w : World) : Prop :=
  ∀ sold ∈ w.sold, ∀ a, w.server.registryToken d (d.signer.sign sold.claims) = some a →
    ActsFor d w.server (d.signer.sign sold.claims) sold.buyer a

/-- The token is resolved by the name alone. -/
def Sold.named (sold : Sold) (name : Text) : Prop :=
  sold.claims.sub = some name ∧ sold.claims.apiTokenId = none ∧ sold.claims.staticToken = false

/-- An account is created under a name that is free only once the tokens that name it have run out, and no
two static tokens have one fingerprint. -/
def Vacated (d : Deployment) (w : World) (event : Event) (_ : World) : Prop :=
  match event with
  | .store act => ∀ name ∈ act.creates, w.tables.userNamed name = none →
      ∀ sold ∈ w.sold, sold.named name → sold.claims.exp ≤ bindTs w.server.now
  | .configure staticTokens => ∀ a ∈ staticTokens ++ w.configured, ∀ b ∈ staticTokens ++ w.configured,
      d.signer.fingerprint a = d.signer.fingerprint b → a = b
  | _ => True

instance (sold : Sold) (name : Text) : Decidable (sold.named name) :=
  inferInstanceAs (Decidable (_ ∧ _ ∧ _))

instance (d : Deployment) (w : World) (event : Event) (v : World) : Decidable (Vacated d w event v) :=
  match event with
  | .store act => inferInstanceAs (Decidable (∀ name ∈ act.creates, w.tables.userNamed name = none →
      ∀ sold ∈ w.sold, sold.named name → sold.claims.exp ≤ bindTs w.server.now))
  | .configure staticTokens => inferInstanceAs (Decidable (∀ a ∈ staticTokens ++ w.configured,
      ∀ b ∈ staticTokens ++ w.configured, d.signer.fingerprint a = d.signer.fingerprint b → a = b))
  | .pass _ | .buy _ _ => .isTrue trivial

/-! ### What an operation does to accounts and tokens -/

section Effects

variable {s t : Tables} {act : Act}

theorem createUser_named {account : NewAccount} {passwordHash : Text} {now : Instant} {user : User}
    (created : createUser s account passwordHash now = .ok (user, t)) :
    user.username = account.username := by
  rw [createUser] at created
  split at created
  · cases created
  · obtain ⟨_, _, inserted⟩ := bind_eq_ok.mp created
    rw [Tables.insertUser] at inserted
    split at inserted
    · cases inserted
    · split at inserted
      · cases inserted
      · cases inserted
        rfl

theorem provision_named {new : NewUser} {a : Admission} {now : Instant} {user : User}
    (provisioned : s.provision new a now = .ok (user, t)) : user.username = new.username := by
  obtain ⟨⟨created, next⟩, inserted, rest⟩ := bind_eq_ok.mp provisioned
  have named : created.username = new.username := by
    rw [Tables.insertUser] at inserted
    split at inserted
    · cases inserted
    · split at inserted
      · cases inserted
      · cases inserted
        rfl
  simp only at rest
  split at rest
  · cases rest
  · obtain ⟨_, _, same⟩ := bind_eq_ok.mp rest
    cases same
    exact named

/-- An account that is there was there, under its id and its name, or was created under the next id and
the name the operation gives, which was free. -/
structure Peopled (s : Tables) (act : Act) (t : Tables) : Prop where
  sequence : s.sequence ≤ t.sequence
  users : ∀ row ∈ t.users, (∃ old ∈ s.users, old.id = row.id ∧ old.username = row.username) ∨
    row.id = s.sequence + 1 ∧ row.id ≤ t.sequence ∧ act.creates = some row.username ∧
      s.userNamed row.username = none

theorem Peopled.joined {user : User} (joins : Joins s user t) (named : act.creates = some user.username) :
    Peopled s act t where
  sequence := joins.sequence ▸ Nat.le_succ _
  users row mem := by
    rw [joins.users, List.mem_append] at mem
    rcases mem with old | new
    · exact .inl ⟨row, old, rfl, rfl⟩
    · cases List.mem_singleton.mp new
      refine .inr ⟨joins.numbered, ?_, named, List.find?_eq_none.mpr fun other mem => ?_⟩
      · exact joins.numbered.trans_le joins.sequence.ge
      · simpa using joins.named other mem

theorem Peopled.of_old (sequence : t.sequence = s.sequence)
    (old : ∀ row ∈ t.users, ∃ old ∈ s.users, old.id = row.id ∧ old.username = row.username) :
    Peopled s act t := ⟨sequence.ge, fun row mem => .inl (old row mem)⟩

theorem Peopled.of_same (sequence : t.sequence = s.sequence) (users : t.users = s.users) :
    Peopled s act t := .of_old sequence fun row mem => ⟨row, users ▸ mem, rfl, rfl⟩

theorem Peopled.of_updateAt {κ : Type} [DecidableEq κ] {key : User → κ} {k : κ} {f : User → User}
    (sequence : t.sequence = s.sequence) (users : t.users = updateAt key k f s.users)
    (keeps : ∀ row, (f row).id = row.id ∧ (f row).username = row.username) : Peopled s act t := by
  refine .of_old sequence fun row mem => ?_
  rcases mem_updateAt.mp (users ▸ mem) with ⟨old, _⟩ | ⟨old, before, _, rfl⟩
  · exact ⟨row, old, rfl, rfl⟩
  · exact ⟨old, before, (keeps old).1.symm, (keeps old).2.symm⟩

theorem Tables.peopled_act (done : s.act act = some t) : Peopled s act t := by
  cases effect_act done with
  | kept _ _ users sequence _ _ => exact .of_same sequence users
  | @created account passwordHash now user _ joins _ _ =>
      obtain ⟨made, created⟩ := committed_eq_some.mp done
      obtain ⟨_, _, wrote⟩ := createUser_spec created
      have one : [made] = [user] := List.append_cancel_left (by rw [← joins.users, wrote])
      cases one
      exact .joined joins (congrArg some (createUser_named created).symm)
  | @provisioned new a now user _ joins _ _ =>
      obtain ⟨made, provisioned⟩ := committed_eq_some.mp done
      obtain ⟨_, _, _, _, wrote⟩ := provision_spec provisioned
      have one : [made] = [user] := List.append_cancel_left (by rw [← joins.users, wrote])
      cases one
      exact .joined joins (congrArg some (provision_named provisioned).symm)
  | updated _ keeps users sequence _ _ =>
      exact .of_updateAt sequence users fun row => ⟨(keeps row).1, (keeps row).2.1⟩
  | @admitted a now link _ _ _ _ _ users sequence _ =>
      exact .of_updateAt sequence users fun row => ⟨ruled_id link row, ruled_username link row⟩
  | attached _ _ users sequence _ => exact .of_same sequence users
  | detached _ _ _ users sequence _ => exact .of_updateAt sequence users fun _ => ⟨rfl, rfl⟩
  | deleted _ users sequence _ =>
      exact .of_old sequence fun row mem => ⟨row, (List.mem_filter.mp (users ▸ mem)).1, rfl, rfl⟩
  | migrated users sequence _ _ => exact .of_same sequence users

theorem Effect.user_stays (effect : Effect s act t) (spared : ∀ username, act ≠ .deleteUser username)
    {user : User} (mem : user ∈ s.users) : ∃ now ∈ t.users, now.id = user.id := by
  have listed : user.id ∈ s.users.map User.id := List.mem_map_of_mem mem
  have stays (ids : s.users.map User.id ⊆ t.users.map User.id) : ∃ now ∈ t.users, now.id = user.id :=
    List.mem_map.mp (ids listed)
  cases effect with
  | kept _ _ users _ _ _ => exact stays (by simp [users])
  | created joins _ _ => exact stays (by simp [joins.users])
  | provisioned joins _ _ => exact stays (by simp [joins.users])
  | updated _ keeps users _ _ _ =>
      exact stays (by rw [users, map_updateAt fun row _ => (keeps row).1]; exact List.Subset.refl _)
  | @admitted a now link _ _ _ _ _ users _ _ =>
      exact stays (by rw [users, map_updateAt fun row _ => Tables.ruled_id link row]; exact List.Subset.refl _)
  | attached _ _ users _ _ => exact stays (by simp [users])
  | @detached _ _ link _ _ _ _ users _ _ =>
      exact stays (by
        rw [users, map_updateAt fun row _ => Tables.restored_id link row]; exact List.Subset.refl _)
  | deleted _ _ _ _ => exact absurd rfl (spared _)
  | migrated users _ _ _ => exact stays (by simp [users])

/-! #### Tokens -/

/-- What an operation does to the tokens: one is issued to an account, under an id no other has, or some
are taken away; an account leaves none behind. -/
inductive TokensAfter (s : Tables) (act : Act) (t : Tables) : Prop where
  | issued (row : Token) (drawn : act.draws = some row.id) (fresh : ∀ token ∈ s.tokens, token.id ≠ row.id)
      (owner : ∃ user ∈ s.users, user.id = row.userId) (tokens : t.tokens = s.tokens ++ [row])
      (users : t.users = s.users)
  | revoked (tokens : t.tokens.Sublist s.tokens)
      (owners : ∀ token ∈ t.tokens, ∀ user ∈ s.users, user.id = token.userId →
        ∃ now ∈ t.users, now.id = user.id)

theorem insertToken_owner {token : NewToken} {now : Instant} (done : s.insertToken token now = .ok t) :
    ∃ user ∈ s.users, user.id = token.userId := by
  rw [Tables.insertToken] at done
  split at done
  · cases done
  · split at done
    · cases done
    · rename_i there
      simp only [Option.isNone_iff_eq_none, Tables.user] at there
      obtain ⟨user, found⟩ := Option.ne_none_iff_exists'.mp there
      exact ⟨user, List.mem_of_find?_eq_some found, by simpa using List.find?_some found⟩

theorem Tables.tokens_act (sound : Sound s) (done : s.act act = some t) : TokensAfter s act t := by
  have effect := effect_act done
  have kept (spared : ∀ username, act ≠ .deleteUser username) (tokens : t.tokens.Sublist s.tokens) :
      TokensAfter s act t :=
    .revoked tokens fun token _ user mem _ => effect.user_stays spared mem
  cases act with
  | createUser account passwordHash now =>
      obtain ⟨_, created⟩ := committed_eq_some.mp done
      obtain ⟨_, _, rfl⟩ := createUser_spec created
      exact kept (fun _ => Act.noConfusion) (List.Sublist.refl _)
  | updateAccount username patch admin now =>
      obtain ⟨_, updated⟩ := committed_eq_some.mp done
      obtain ⟨_, _, _, _, _, rfl⟩ := updateAccount_spec updated
      exact kept (fun _ => Act.noConfusion) (List.Sublist.refl _)
  | deleteUser username =>
      obtain ⟨_, deleted⟩ := committed_eq_some.mp done
      obtain ⟨gone, found, users, tokens, _⟩ := deleteUser_spec deleted
      obtain ⟨held, named⟩ := mem_of_userNamed found
      refine .revoked (tokens ▸ List.filter_sublist) fun token mem user there own => ⟨user, ?_, rfl⟩
      have other : token.userId ≠ gone.id := by
        rw [tokens] at mem
        exact bne_iff_ne.mp (List.mem_filter.mp mem).2
      refine users ▸ List.mem_filter.mpr ⟨there, bne_iff_ne.mpr fun same => other ?_⟩
      rw [← own, sound.named_eq there held (same.trans named.symm)]
  | createToken token now =>
      cases inserted : s.insertToken token now with
      | error e => simp [act, inserted, Except.toOption] at done
      | ok next =>
          simp only [act, inserted, Except.toOption, Option.some.injEq] at done
          subst done
          obtain ⟨fresh, rfl⟩ := insertToken_spec inserted
          exact .issued (NewToken.row token now) rfl fresh (insertToken_owner inserted) rfl rfl
  | deleteToken id =>
      cases done
      exact kept (fun _ => Act.noConfusion) List.filter_sublist
  | provision new a now =>
      obtain ⟨_, provisioned⟩ := committed_eq_some.mp done
      obtain ⟨_, _, _, _, rfl⟩ := provision_spec provisioned
      exact kept (fun _ => Act.noConfusion) (List.Sublist.refl _)
  | admit_ a now =>
      obtain ⟨_, admitted⟩ := committed_eq_some.mp done
      obtain ⟨_, _, _, _, rfl, _⟩ := admit_spec admitted
      exact kept (fun _ => Act.noConfusion) (List.Sublist.refl _)
  | attach id key email now =>
      obtain ⟨_, attached⟩ := committed_eq_some.mp done
      obtain ⟨_, _, _, rfl⟩ := attach_spec attached
      exact kept (fun _ => Act.noConfusion) (List.Sublist.refl _)
  | detach id key =>
      obtain ⟨_, detached⟩ := committed_eq_some.mp done
      obtain ⟨_, _, _, _, rfl⟩ := detach_spec detached
      exact kept (fun _ => Act.noConfusion) List.filter_sublist
  | disableLink key =>
      obtain ⟨_, disabled⟩ := committed_eq_some.mp done
      cases disableLink_spec disabled
      exact kept (fun _ => Act.noConfusion) List.filter_sublist
  | disableUser id disabledBy now =>
      obtain ⟨_, disabled⟩ := committed_eq_some.mp done
      cases disableUser_spec disabled
      exact kept (fun _ => Act.noConfusion) List.filter_sublist
  | enableUser id =>
      cases done
      exact kept (fun _ => Act.noConfusion) (List.Sublist.refl _)
  | deprovision key now =>
      obtain ⟨_, disabled⟩ := committed_eq_some.mp done
      obtain ⟨_, _, rfl⟩ := deprovision_spec disabled
      exact kept (fun _ => Act.noConfusion) List.filter_sublist
  | revokeAuthority authority =>
      cases done
      exact kept (fun _ => Act.noConfusion) List.filter_sublist
  | migrateAuthority source target =>
      obtain ⟨_, migrated⟩ := committed_eq_some.mp done
      obtain ⟨_, _, rfl⟩ := migrateAuthority_spec migrated
      exact kept (fun _ => Act.noConfusion) (List.Sublist.refl _)
  | issueSession token key now =>
      obtain ⟨_, issued⟩ := committed_eq_some.mp done
      rw [issueSession] at issued
      split at issued
      · cases issued
      · obtain ⟨next, inserted, same⟩ := bind_eq_ok.mp issued
        cases same
        obtain ⟨fresh, rfl⟩ := insertToken_spec inserted
        exact .issued (NewToken.row token now) rfl fresh (insertToken_owner inserted) rfl rfl
  | recordProbe authority reachable now =>
      obtain ⟨_, probed⟩ := committed_eq_some.mp done
      obtain ⟨_, rfl⟩ := recordProbe_spec probed
      exact kept (fun _ => Act.noConfusion) (List.Sublist.refl _)

end Effects

/-! ### A purchase and a request -/

section Requests

variable {d : Deployment} {s : Server} {raw : Text}

/-- Who a credential other than a registry token is verified as. -/
inductive Verified (s : Server) (b : AuthUser) : Prop where
  | static (listed : b.token ∈ s.staticTokens) (userId : b.userId = none) (apiTokenId : b.apiTokenId = none)
  | account (row : User) (mem : row ∈ s.tables.users) (userId : b.userId = some row.id)
      (named : b.username = row.username) (apiTokenId : b.apiTokenId = none)
  | apiToken (row : User) (mem : row ∈ s.tables.users) (userId : b.userId = some row.id)
      (named : b.username = row.username) (token : Token) (held : token ∈ s.tables.tokens)
      (owned : token.userId = row.id) (apiTokenId : b.apiTokenId = some token.id)
      (scope : token.scope = b.scope)

theorem secretToken_verified {b : AuthUser} (found : s.secretToken d raw = some b) : Verified s b := by
  rw [Server.secretToken] at found
  split at found
  · rename_i static
    cases found
    obtain ⟨st, mem, same⟩ := List.any_eq_true.mp static
    cases eq_of_beq same
    exact .static mem rfl rfl
  · obtain ⟨stored, live, rest⟩ := Option.bind_eq_some_iff.mp found
    obtain ⟨row, read, gated⟩ := Option.bind_eq_some_iff.mp rest
    obtain ⟨mem, numbered⟩ := Tables.mem_of_user read
    have held : stored ∈ s.tables.tokens := by
      obtain ⟨lead, _, rest⟩ := Option.bind_eq_some_iff.mp live
      obtain ⟨token, first, same⟩ := Option.bind_eq_some_iff.mp rest
      split at same
      · cases same
      · cases same
        exact List.mem_of_find?_eq_some first
    split at gated
    · cases gated
      exact .apiToken row mem rfl rfl stored held numbered.symm rfl rfl
    · cases gated

theorem password_verified {username secret : Text} {b : AuthUser}
    (found : s.password d username secret = some b) : Verified s b := by
  obtain ⟨row, read, gated⟩ := Option.bind_eq_some_iff.mp found
  split at gated
  · cases gated
    exact .account row (mem_of_userNamed read).1 rfl rfl rfl
  · cases gated

theorem caller_verified {credential : Option Credential} {b : AuthUser}
    (known : s.caller d credential = some (some b)) : Verified s b := by
  have secret {raw : Text} (found : ((s.secretToken d raw).map principal).map Authenticated.user =
      some (some b)) : Verified s b := by
    simp only [Option.map_map, Option.map_eq_some_iff, Function.comp_apply, principal,
      Option.some.injEq] at found
    obtain ⟨_, found, rfl⟩ := found
    exact secretToken_verified found
  match credential with
  | none => cases known
  | some (.registry _) => cases known
  | some (.bearer _) => exact secret known
  | some (.apiKey _) => exact secret known
  | some (.basic username word) =>
      simp only [Server.caller, Server.one] at known
      split at known
      · rename_i user found
        cases known
        exact secretToken_verified found
      · split at known
        · cases known
        · simp only [Option.map_map, Option.map_eq_some_iff, Function.comp_apply, principal,
            Option.some.injEq] at known
          obtain ⟨_, found, rfl⟩ := known
          exact password_verified found

/-- The claims a purchase signs. -/
structure Issued (d : Deployment) (s : Server) (buyer : Option AuthUser) (claims : Claims) : Prop where
  verified : ∀ b, buyer = some b → Verified s b
  sub : claims.sub = buyer.map AuthUser.username
  apiTokenId : claims.apiTokenId = buyer.bind AuthUser.apiTokenId
  static : claims.staticToken = (buyer.filter fun b => b.userId.isNone).isSome
  key : claims.staticKey = (buyer.filter fun b => b.userId.isNone).map fun b => d.signer.fingerprint b.token

theorem issueToken_issued {credential : Option Credential} {params : List (Text × Text)}
    {buyer : Option AuthUser} {claims : Claims}
    (bought : s.issueToken d credential params = some (buyer, claims)) : Issued d s buyer claims := by
  obtain ⟨user, known, rest⟩ := Option.bind_eq_some_iff.mp bought
  split at rest
  · cases rest
  · simp only at rest
    split at rest
    · cases rest
    · cases rest
      refine ⟨?_, rfl, rfl, rfl, rfl⟩
      rintro b rfl
      exact caller_verified known

/-- A token that is accepted: its claims have not run out, the API token they name is live, and they name
a static token that is configured, nobody, or an account that passes the gate. -/
structure Accepted (d : Deployment) (s : Server) (raw : Text) (claims : Claims) (boughtWith : Option Token)
    (a : Authenticated) : Prop where
  unexpired : bindTs s.now < claims.exp
  bought : boughtWith.map Token.id = claims.apiTokenId
  live : ∀ token, boughtWith = some token → token ∈ s.tables.tokens ∧ token.isLive s.now = true
  static : claims.staticToken = true → a.user = some (.staticToken raw) ∧
    ∃ st ∈ s.staticTokens, claims.staticKey = some (d.signer.fingerprint st)
  anonymous : claims.staticToken = false → claims.sub = none → a.user = none
  account : claims.staticToken = false → ∀ name, claims.sub = some name → ∃ row ∈ s.tables.users,
    row.username = name ∧ s.allowed d row .registryToken = true ∧ a.user = some (.fromUser row raw boughtWith)

theorem boughtWith_spec {asked : Option Text} {boughtWith : Option Token}
    (held : s.boughtWith asked = some boughtWith) : boughtWith.map Token.id = asked ∧
      ∀ token, boughtWith = some token → token ∈ s.tables.tokens ∧ token.isLive s.now = true := by
  cases asked with
  | none =>
      cases held
      exact ⟨rfl, fun _ => nofun⟩
  | some id =>
      obtain ⟨token, found, rfl⟩ := Option.map_eq_some_iff.mp held
      obtain ⟨first, live⟩ := Option.filter_eq_some_iff.mp found
      refine ⟨congrArg some (by simpa using List.find?_some first), fun _ same => ?_⟩
      cases same
      exact ⟨List.mem_of_find?_eq_some first, live⟩

theorem registryToken_accepted {claims : Claims} {a : Authenticated}
    (accepted : s.registryToken d (d.signer.sign claims) = some a) :
    ∃ boughtWith, Accepted d s (d.signer.sign claims) claims boughtWith a := by
  obtain ⟨opened, verified, rest⟩ := Option.bind_eq_some_iff.mp accepted
  obtain ⟨signed, unexpired⟩ := Option.filter_eq_some_iff.mp verified
  rw [d.signer.opened_sign] at signed
  cases signed
  obtain ⟨boughtWith, held, rest⟩ := Option.bind_eq_some_iff.mp rest
  have token := boughtWith_spec held
  refine ⟨boughtWith, of_decide_eq_true unexpired, token.1, token.2, fun static => ?_, fun plain nobody => ?_,
    fun plain name named => ?_⟩
  · rw [if_pos static] at rest
    obtain ⟨key, marked, rest⟩ := Option.bind_eq_some_iff.mp rest
    split at rest
    · rename_i live
      cases rest
      obtain ⟨st, mem, same⟩ := List.any_eq_true.mp live
      exact ⟨rfl, st, mem, by rw [marked, eq_of_beq same]⟩
    · cases rest
  · rw [if_neg (by simp [plain]), nobody] at rest
    cases rest
    rfl
  · rw [if_neg (by simp [plain]), named] at rest
    obtain ⟨row, read, gated⟩ := Option.bind_eq_some_iff.mp rest
    obtain ⟨mem, same⟩ := mem_of_userNamed read
    split at gated
    · rename_i allowed
      cases gated
      exact ⟨row, mem, same, allowed, rfl⟩
    · cases gated

end Requests

/-! ### What a token rests on -/

/-- What stays known of the account a token was issued to: its name, and by what it is told apart. -/
structure Grounded (w : World) (claims : Claims) (b : AuthUser) (id : Nat) : Prop where
  sub : claims.sub = some b.username
  plain : claims.staticToken = false
  boughtWith : claims.apiTokenId = b.apiTokenId
  numbered : id ≤ w.tables.sequence
  named : ∀ row ∈ w.tables.users, row.id = id → row.username = b.username
  /-- No other account has the name while the token may be used. -/
  alone : b.apiTokenId = none → bindTs w.server.now < claims.exp →
    ∀ row ∈ w.tables.users, row.username = b.username → row.id = id
  /-- No other token has the id of the one it was bought with. -/
  token : ∀ tokenId, b.apiTokenId = some tokenId → tokenId ∈ w.drawn ∧
    ∀ token ∈ w.tables.tokens, token.id = tokenId → token.userId = id ∧ token.scope = b.scope

/-- What stays known of the static token a token was issued to. -/
structure Keyed (d : Deployment) (w : World) (claims : Claims) (b : AuthUser) : Prop where
  marked : claims.staticToken = true
  key : claims.staticKey = some (d.signer.fingerprint b.token)
  listed : b.token ∈ w.configured

inductive Sold.Rests (d : Deployment) (w : World) (sold : Sold) : Prop where
  | anonymous (buyer : sold.buyer = none) (plain : sold.claims.staticToken = false)
      (sub : sold.claims.sub = none)
  | static (b : AuthUser) (buyer : sold.buyer = some b) (userId : b.userId = none)
      (keyed : Keyed d w sold.claims b)
  | account (b : AuthUser) (id : Nat) (buyer : sold.buyer = some b) (userId : b.userId = some id)
      (grounded : Grounded w sold.claims b id)

structure Bought (d : Deployment) (w : World) : Prop where
  sound : Sound w.tables
  owned : ∀ token ∈ w.tables.tokens, ∃ user ∈ w.tables.users, user.id = token.userId
  ids : (w.tables.tokens.map Token.id).Nodup
  drawn : ∀ token ∈ w.tables.tokens, token.id ∈ w.drawn
  listed : ∀ st ∈ w.server.staticTokens, st ∈ w.configured
  apart : ∀ a ∈ w.configured, ∀ b ∈ w.configured, d.signer.fingerprint a = d.signer.fingerprint b → a = b
  sold : ∀ sold ∈ w.sold, sold.Rests d w

section Rests

variable {d : Deployment} {w v : World}

theorem Bought.faithful (inv : Bought d w) : Faithful d w := by
  intro sold mem a accepted
  obtain ⟨boughtWith, accepted⟩ := registryToken_accepted accepted
  cases inv.sold sold mem with
  | anonymous buyer plain sub =>
      rw [buyer]
      exact accepted.anonymous plain sub
  | static b buyer userId keyed =>
      obtain ⟨answered, st, configured, key⟩ := accepted.static keyed.marked
      have same : b.token = st := by
        refine inv.apart _ keyed.listed _ (inv.listed st configured) ?_
        exact Option.some.inj (keyed.key.symm.trans key)
      simp only [ActsFor, buyer, userId]
      exact ⟨same ▸ configured, answered⟩
  | account b id buyer userId grounded =>
      obtain ⟨row, there, named, allowed, answered⟩ := accepted.account grounded.plain _ grounded.sub
      simp only [ActsFor, buyer, userId]
      cases used : b.apiTokenId with
      | none =>
          have own := grounded.alone used accepted.unexpired row there named
          have without : boughtWith = none := by
            simpa [grounded.boughtWith, used] using accepted.bought
          exact ⟨row, there, own, allowed, without ▸ answered⟩
      | some tokenId =>
          obtain ⟨token, rfl, same⟩ : ∃ token, boughtWith = some token ∧ token.id = tokenId := by
            simpa [grounded.boughtWith, used] using accepted.bought
          obtain ⟨held, live⟩ := accepted.live token rfl
          obtain ⟨owned, scope⟩ := (grounded.token tokenId used).2 token held same
          -- the token's owner is there, under the name the token was bought under
          obtain ⟨owner, here, numbered⟩ := inv.owned token held
          have called := grounded.named owner here (numbered.trans owned)
          cases inv.sound.named_eq there here (named.trans called.symm)
          exact ⟨row, there, numbered.trans owned, allowed, token, held, same, owned, scope, live, answered⟩

/-! ### Every step -/

theorem Sold.Rests.kept {sold : Sold} (rests : sold.Rests d w) (tables : v.tables = w.tables)
    (later : w.server.now ≤ v.server.now) (configured : ∀ st ∈ w.configured, st ∈ v.configured)
    (drawn : v.drawn = w.drawn) : sold.Rests d v := by
  cases rests with
  | anonymous buyer plain sub => exact .anonymous buyer plain sub
  | static b buyer userId keyed =>
      exact .static b buyer userId ⟨keyed.marked, keyed.key, configured _ keyed.listed⟩
  | account b id buyer userId grounded =>
      refine .account b id buyer userId { grounded with
        numbered := tables ▸ grounded.numbered
        named := tables ▸ grounded.named
        alone := fun plain unexpired => ?_
        token := by rw [tables, drawn]; exact grounded.token }
      rw [tables]
      refine grounded.alone plain (lt_of_le_of_lt ?_ unexpired)
      exact Int.ediv_le_ediv (by decide) later

/-- An account that is created has another id, and another name while a token goes by the name; a token that
is created has another id. -/
theorem Sold.Rests.stored {sold : Sold} {act : Act} {t : Tables} {drawn : List Text} (rests : sold.Rests d w)
    (done : w.tables.act act = some t) (sound : Sound w.tables)
    (fresh : ∀ id, act.draws = some id → id ∉ w.drawn) (more : ∀ id ∈ w.drawn, id ∈ drawn)
    (vacated : ∀ name, act.creates = some name → w.tables.userNamed name = none → sold.named name →
      sold.claims.exp ≤ bindTs w.server.now) :
    sold.Rests d { w with server := { w.server with tables := t }, drawn := drawn } := by
  have people := Tables.peopled_act done
  cases rests with
  | anonymous buyer plain sub => exact .anonymous buyer plain sub
  | static b buyer userId keyed => exact .static b buyer userId ⟨keyed.marked, keyed.key, keyed.listed⟩
  | account b id buyer userId grounded =>
      refine .account b id buyer userId ⟨grounded.sub, grounded.plain, grounded.boughtWith,
        grounded.numbered.trans people.sequence, fun row mem own => ?_, fun plain unexpired row mem named => ?_,
        fun tokenId used => ?_⟩
      · rcases people.users row mem with ⟨old, there, same, before⟩ | ⟨next, _⟩
        · exact before ▸ grounded.named old there (same.trans own)
        · have := grounded.numbered
          omega
      · rcases people.users row mem with ⟨old, there, same, before⟩ | ⟨_, _, created, free⟩
        · exact same ▸ grounded.alone plain unexpired old there (before.trans named)
        · rw [named] at created free
          have gone := vacated _ created free ⟨grounded.sub, grounded.boughtWith.trans plain, grounded.plain⟩
          exact absurd unexpired (not_lt.mpr gone)
      · obtain ⟨known, own⟩ := grounded.token tokenId used
        refine ⟨more _ known, fun token mem same => ?_⟩
        cases Tables.tokens_act sound done with
        | issued row new _ _ tokens _ =>
            rcases List.mem_append.mp (tokens ▸ mem) with old | last
            · exact own token old same
            · cases List.mem_singleton.mp last
              exact absurd known (fresh _ (same ▸ new))
        | revoked tokens _ => exact own token (tokens.subset mem) same

theorem Bought.owned_act {act : Act} {t : Tables} (inv : Bought d w) (done : w.tables.act act = some t) :
    ∀ token ∈ t.tokens, ∃ user ∈ t.users, user.id = token.userId := by
  intro token mem
  cases Tables.tokens_act inv.sound done with
  | issued row _ _ owner tokens users =>
      rw [users]
      rcases List.mem_append.mp (tokens ▸ mem) with old | new
      · exact inv.owned token old
      · cases List.mem_singleton.mp new
        exact owner
  | revoked tokens owners =>
      obtain ⟨user, there, own⟩ := inv.owned token (tokens.subset mem)
      obtain ⟨now, here, same⟩ := owners token mem user there own
      exact ⟨now, here, same.trans own⟩

theorem Bought.ids_act {act : Act} {t : Tables} (inv : Bought d w) (done : w.tables.act act = some t) :
    (t.tokens.map Token.id).Nodup := by
  cases Tables.tokens_act inv.sound done with
  | issued row _ fresh _ tokens _ =>
      rw [tokens, List.map_append, List.nodup_append]
      refine ⟨inv.ids, by simp, ?_⟩
      rintro _ old _ new rfl
      obtain ⟨token, mem, same⟩ := List.mem_map.mp old
      exact fresh token mem (same.trans (List.mem_singleton.mp new))
  | revoked tokens _ => exact inv.ids.sublist (tokens.map _)

theorem Bought.drawn_act {act : Act} {t : Tables} (inv : Bought d w) (done : w.tables.act act = some t) :
    ∀ token ∈ t.tokens, token.id ∈ act.draws.toList ++ w.drawn := by
  intro token mem
  cases Tables.tokens_act inv.sound done with
  | issued row drawn _ _ tokens _ =>
      rcases List.mem_append.mp (tokens ▸ mem) with old | new
      · exact List.mem_append_right _ (inv.drawn token old)
      · cases List.mem_singleton.mp new
        exact List.mem_append_left _ (by simp [drawn])
  | revoked tokens _ => exact List.mem_append_right _ (inv.drawn token (tokens.subset mem))

theorem Bought.store {act : Act} (inv : Bought d w) (fresh : ∀ id, act.draws = some id → id ∉ w.drawn)
    (vacated : ∀ name, act.creates = some name → w.tables.userNamed name = none →
      ∀ sold ∈ w.sold, sold.named name → sold.claims.exp ≤ bindTs w.server.now) {t : Tables}
    (taken : w.tables.step act = some t) :
    Bought d { w with server := { w.server with tables := t }, drawn := act.draws.toList ++ w.drawn } := by
  have more : ∀ id ∈ w.drawn, id ∈ act.draws.toList ++ w.drawn := fun _ => List.mem_append_right _
  rcases Tables.step_eq_some taken with done | ⟨_, rfl⟩
  · exact
      { sound := inv.sound.step taken
        owned := inv.owned_act done
        ids := inv.ids_act done
        drawn := inv.drawn_act done
        listed := inv.listed
        apart := inv.apart
        sold := fun sold mem => (inv.sold sold mem).stored done inv.sound fresh more
          fun name created free => vacated name created free sold mem }
  · refine { inv with drawn := fun token mem => more _ (inv.drawn token mem), sold := fun sold mem => ?_ }
    cases inv.sold sold mem with
    | anonymous buyer plain sub => exact .anonymous buyer plain sub
    | static b buyer userId keyed => exact .static b buyer userId ⟨keyed.marked, keyed.key, keyed.listed⟩
    | account b id buyer userId grounded =>
        exact .account b id buyer userId { grounded with
          token := fun tokenId used => ⟨more _ (grounded.token tokenId used).1, (grounded.token tokenId used).2⟩ }

theorem Bought.rests (inv : Bought d w) {buyer : Option AuthUser} {claims : Claims}
    (issued : Issued d w.server buyer claims) : Sold.Rests d w ⟨buyer, claims⟩ := by
  cases buyer with
  | none => exact .anonymous rfl issued.static issued.sub
  | some b =>
      have account {row : User} (mem : row ∈ w.tables.users) (userId : b.userId = some row.id)
          (named : b.username = row.username)
          (token : ∀ tokenId, b.apiTokenId = some tokenId → tokenId ∈ w.drawn ∧
            ∀ token ∈ w.tables.tokens, token.id = tokenId → token.userId = row.id ∧ token.scope = b.scope) :
          Sold.Rests d w ⟨some b, claims⟩ := by
        refine .account b row.id rfl userId ⟨issued.sub, ?_, issued.apiTokenId, ?_, ?_, ?_, token⟩
        · rw [issued.static]
          simp [userId]
        · exact inv.sound.numbered _ (List.mem_map_of_mem mem)
        · intro other there same
          rw [inv.sound.user_eq there mem same, named]
        · intro _ _ other there same
          rw [inv.sound.named_eq there mem (same.trans named)]
      cases issued.verified b rfl with
      | static listed userId apiTokenId =>
          refine .static b rfl userId ⟨?_, ?_, inv.listed _ listed⟩
          · rw [issued.static]
            simp [userId]
          · rw [issued.key]
            simp [userId]
      | account row mem userId named plain =>
          exact account mem userId named fun tokenId used => by simp [plain] at used
      | apiToken row mem userId named token held owned used scope =>
          refine account mem userId named fun tokenId same => ?_
          cases Option.some.inj (used.symm.trans same)
          refine ⟨inv.drawn token held, fun other there twin => ?_⟩
          rw [List.inj_on_of_nodup_map inv.ids there held twin]
          exact ⟨owned, scope⟩

theorem Bought.step {event : Event} (inv : Bought d w) (taken : w.step d event = some v)
    (vacated : Vacated d w event v) : Bought d v := by
  cases event with
  | store act =>
      rw [World.step] at taken
      split at taken
      · cases taken
      · rename_i fresh
        obtain ⟨t, wrote, rfl⟩ := Option.map_eq_some_iff.mp taken
        refine inv.store (fun id drawn known => fresh ?_) vacated wrote
        rw [drawn]
        exact List.contains_iff_mem.mpr known
  | configure staticTokens =>
      cases taken
      exact { inv with
        listed := fun st mem => List.mem_append_left _ mem
        apart := vacated
        sold := fun sold mem => (inv.sold sold mem).kept rfl le_rfl (fun _ => List.mem_append_right _) rfl }
  | pass nanos =>
      cases taken
      have later : w.server.now ≤ w.server.now + nanos := le_add_of_nonneg_right (Int.natCast_nonneg nanos)
      exact { inv with sold := fun sold mem => (inv.sold sold mem).kept rfl later (fun _ => id) rfl }
  | buy credential params =>
      rw [World.step] at taken
      split at taken
      · cases taken
        exact inv
      · rename_i buyer claims bought
        cases taken
        refine { inv with sold := fun sold mem => ?_ }
        rcases List.mem_append.mp mem with old | new
        · exact (inv.sold sold old).kept rfl le_rfl (fun _ => id) rfl
        · cases List.mem_singleton.mp new
          exact (inv.rests (issueToken_issued bought)).kept rfl le_rfl (fun _ => id) rfl

theorem bought_begin (repositories : List Repository) (now : Instant) :
    Bought d (World.begin_ repositories now) where
  sound := Sound.empty repositories
  owned _ mem := by cases mem
  ids := List.nodup_nil
  drawn _ mem := by cases mem
  listed _ mem := by cases mem
  apart _ mem := by cases mem
  sold _ mem := by cases mem

/-- In every run that creates an account only under a name no registry token goes by any more, a registry
token that is accepted acts for the one it was issued to. -/
theorem acts_for_its_buyer (d : Deployment) (repositories : List Repository) (now : Instant)
    (events : List Event) (w : World)
    (run : Run (World.step d) (Vacated d) (World.begin_ repositories now) events w) : Faithful d w := by
  refine (run.invariant (Bought d) (bought_begin repositories now) ?_).faithful
  intro _ _ _ inv taken vacated
  exact inv.step taken vacated

end Rests

/-! ### An account of the same name -/

section Example

instance encodableChar : Encodable Char := .ofLeftInjection Char.toNat (fun n => some (Char.ofNat n)) fun c => by
  rw [Char.ofNat_toNat]

/-- Claims as the values of their fields. -/
def fields : Claims ≃ Option Text × Int × List Text × Bool × Option Text × Option Text where
  toFun c := (c.sub, c.exp, c.scope, c.staticToken, c.apiTokenId, c.staticKey)
  invFun := fun (sub, exp, scope, staticToken, apiTokenId, staticKey) =>
    ⟨sub, exp, scope, staticToken, apiTokenId, staticKey⟩
  left_inv _ := rfl
  right_inv _ := rfl

/-- Tokens that spell their claims out, in unary. -/
def plainSigner : Signer where
  sign claims := List.replicate (Encodable.encode (fields claims)) 'a'
  opened raw := (Encodable.decode raw.length).map fields.symm
  opened_sign claims := by simp
  fingerprint secret := secret

/-- Passwords are stored as they are; no account has to log in again. -/
def plainDeployment : Deployment where
  tokenPrefix := "trg_".toList
  anonymousRead := true
  bootstrap := none
  policy := ⟨.enabled, none, 0⟩
  signer := plainSigner
  hashToken token := token
  verifyPassword := (· == ·)

def createAlice (password : String) : Event :=
  .store (.createUser ⟨"alice".toList, none, none⟩ password.toList 0)

def aliceBuys (password : String) : Event := .buy (some (.basic "alice".toList password.toList)) []

def deleteAlice : Event := .store (.deleteUser "alice".toList)

/-- Alice buys a token, is deleted, and another Alice is created once the token has run out. -/
def inTurn : List Event :=
  [createAlice "one", aliceBuys "one", deleteAlice, .pass hour.toNat, createAlice "two", aliceBuys "two"]

/-- Another Alice is created at once. -/
def namesake : List Event := [createAlice "one", aliceBuys "one", deleteAlice, createAlice "two"]

theorem acts_for_its_buyer_in_turn : ∃ w,
    Run (World.step plainDeployment) (Vacated plainDeployment) (World.begin_ [] 0) inTurn w ∧
      w.sold.length = 2 ∧ Faithful plainDeployment w := by
  obtain ⟨w, run, two⟩ := Run.of_test (World.step plainDeployment) (Vacated plainDeployment)
    (World.begin_ [] 0) inTurn (fun w => w.sold.length == 2) (by decide +kernel)
  exact ⟨w, run, eq_of_beq two, acts_for_its_buyer plainDeployment [] 0 inTurn w run⟩

/-- The token of the Alice who is gone is accepted, and acts for the other. -/
theorem token_of_a_namesake : ¬∀ (d : Deployment) (repositories : List Repository) (now : Instant)
    (events : List Event) (w : World),
    Run (World.step d) Any (World.begin_ repositories now) events w → Faithful d w := by
  intro faithful
  obtain ⟨w, run, tested⟩ := Run.of_test (World.step plainDeployment) Any (World.begin_ [] 0) namesake
    (fun w => (w.sold.any fun sold => bindTs w.server.now < sold.claims.exp &&
      (w.server.resolved plainDeployment (plainSigner.sign sold.claims) sold.claims).isSome &&
      sold.buyer.any fun b => b.userId == some 1) && w.tables.users.all fun row => row.id != 1)
    (by decide +kernel)
  simp only [Bool.and_eq_true, List.any_eq_true, decide_eq_true_eq, List.all_eq_true, bne_iff_ne] at tested
  obtain ⟨⟨sold, mem, ⟨unexpired, accepted⟩, buyer⟩, gone⟩ := tested
  obtain ⟨a, answered⟩ := Option.isSome_iff_exists.mp accepted
  have acts := faithful plainDeployment [] 0 namesake w run sold mem a
    ((Server.registryToken_sign plainDeployment w.server unexpired).trans answered)
  cases bought : sold.buyer with
  | none => simp [bought] at buyer
  | some b =>
      have first : b.userId = some 1 := by simpa [bought] using buyer
      simp only [ActsFor, bought, first] at acts
      obtain ⟨row, there, same, _⟩ := acts
      exact gone row there same

end Example

end OpenCargo.Identity
