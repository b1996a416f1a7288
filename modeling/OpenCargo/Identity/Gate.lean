/-
Module: OpenCargo.Identity.Gate
Purpose: Whether a verified credential may still act (`crates/domain/src/identity.rs`,
  `app/login_gate.rs`): the password mode, the disabled state and the re-authentication clock of the
  account's live links; and when taking a link away opens what was shut.
Trusted boundary: none
Main exports: Tables.gate, loginAllowed_eq_false_iff, Revocation, revocation_keeps_gate_shut_iff
-/
import OpenCargo.Identity.Sessions

namespace OpenCargo.Identity

open OpenCargo.Access (canAdmin)
open OpenCargo.Lib

inductive CredentialKind where
  | password
  | apiToken
  | staticToken
  | registryToken
deriving Repr, DecidableEq, Inhabited

inductive PasswordMode where
  | enabled
  | adminsOnly
  | disabled
deriving Repr, DecidableEq, Inhabited

/-- A period during which the provider could not be reached; no end while it lasts. -/
structure Outage where
  start : Instant
  end_ : Option Instant
deriving Repr, DecidableEq, Inhabited

structure LinkState where
  lastLogin : Instant
  outages : List Outage
deriving Repr, DecidableEq, Inhabited

structure LoginState where
  disabled : Bool
  bootstrap : Bool
  /-- The live links. -/
  links : List LinkState
deriving Repr, DecidableEq, Inhabited

/-- The durations are signed, as `chrono`'s are. -/
structure GatePolicy where
  passwordMode : PasswordMode
  reauthAfter : Option Int
  graceMax : Int
deriving Repr, DecidableEq, Inhabited

/-- One turn of the loop of `reauth_expired`: what of the outage lies between the login and now. -/
def Outage.elapsed (o : Outage) (lastLogin now : Instant) : Int :=
  let start := max o.start lastLogin
  let end_ := min (o.end_.getD now) now
  if start < end_ then end_ - start else 0

/-- The time the clock of a link stood still. -/
def suspended (link : LinkState) (now : Instant) : Int :=
  link.outages.foldl (fun total o => total + o.elapsed link.lastLogin now) 0

/-- The same, capped by the grace. -/
def suspension (link : LinkState) (now : Instant) (graceMax : Int) : Int :=
  min (suspended link now) graceMax

def reauthExpired (link : LinkState) (now : Instant) (after graceMax : Int) : Bool :=
  decide (now - link.lastLogin - suspension link now graceMax > after)

/-- Whether the password mode turns the credential away. -/
def modeRefuses (role : Text) (kind : CredentialKind) (mode : PasswordMode) : Bool :=
  kind == .password &&
    match mode with
    | .enabled => false
    | .adminsOnly => !canAdmin role
    | .disabled => true

def loginAllowed (role : Text) (state : LoginState) (kind : CredentialKind) (now : Instant)
    (policy : GatePolicy) : Bool :=
  if state.bootstrap then true
  else if state.disabled then false
  else if modeRefuses role kind policy.passwordMode then false
  else
    match policy.reauthAfter with
    | none => true
    | some after =>
        if state.links.isEmpty || kind == .staticToken then true
        else state.links.any fun link => !reauthExpired link now after policy.graceMax

namespace Tables

/-- `IdentityStore::of_user`. -/
def ofUser (tables : Tables) (user : Nat) : List Link :=
  (tables.links.filter fun row => row.userId == user).insertionSort fun a b =>
    a.linkedAt ≤ b.linkedAt

/-- `IdentityStore::outages`. -/
def outagesOf (tables : Tables) (authority : Authority) : List Outage :=
  ((tables.outages.filter fun row => row.authority == authority).insertionSort fun a b =>
    a.startedAt ≤ b.startedAt).map fun row => ⟨readTs row.startedAt, row.endedAt.map readTs⟩

def linkState (tables : Tables) (link : Link) : LinkState :=
  ⟨readTs link.lastLoginAt, tables.outagesOf link.key.authority⟩

/-- `IdentityStore::login_state`. -/
def loginState (tables : Tables) (user : Nat) : LoginState where
  disabled := tables.states.any fun state => state.userId == user
  bootstrap := false
  links := ((tables.ofUser user).filter fun link => !link.disabled).map tables.linkState

/-- `PolicyGate::login_allowed`; `bootstrap` names the configured admin account. -/
def gate (tables : Tables) (bootstrap : Option Text) (policy : GatePolicy) (user : User)
    (kind : CredentialKind) (now : Instant) : Bool :=
  loginAllowed user.role
    { tables.loginState user.id with
      bootstrap := bootstrap.filter (!·.isEmpty) == some user.username }
    kind now policy

end Tables

/-! ### What shuts the gate -/

section Shut

variable {role : Text} {state : LoginState} {kind : CredentialKind} {now : Instant}
  {policy : GatePolicy}

/-- The re-authentication clock is what turns a credential away: it is asked of the credential, there
is a link to ask it of, and it has run out on every one. -/
structure RunOut (links : List LinkState) (kind : CredentialKind) (now : Instant)
    (policy : GatePolicy) : Prop where
  asked : kind ≠ .staticToken
  linked : links ≠ []
  expired : ∃ after, policy.reauthAfter = some after ∧
    ∀ link ∈ links, reauthExpired link now after policy.graceMax = true

theorem loginAllowed_eq_false_iff :
    loginAllowed role state kind now policy = false ↔
      state.bootstrap = false ∧ (state.disabled = true ∨
        modeRefuses role kind policy.passwordMode = true ∨ RunOut state.links kind now policy) := by
  cases bootstrap : state.bootstrap with
  | true => simp [loginAllowed, bootstrap]
  | false =>
      cases disabled : state.disabled with
      | true => simp [loginAllowed, bootstrap, disabled]
      | false =>
          cases refuses : modeRefuses role kind policy.passwordMode with
          | true => simp [loginAllowed, bootstrap, disabled, refuses]
          | false =>
              simp only [loginAllowed, bootstrap, disabled, refuses, Bool.false_eq_true, if_false,
                false_or, true_and]
              constructor
              · intro shut
                split at shut
                · cases shut
                · rename_i after set
                  split at shut
                  · cases shut
                  · rename_i asked
                    simp only [Bool.or_eq_true, List.isEmpty_iff, beq_iff_eq, not_or] at asked
                    refine ⟨asked.2, asked.1, after, set, ?_⟩
                    simpa using shut
              · rintro ⟨asked, linked, after, set, expired⟩
                simp only [set]
                rw [if_neg (by simp [asked, linked])]
                simpa using expired

end Shut

section Revoked

variable {tables t : Tables} {user : Nat}

theorem mem_live_links {state : LinkState} :
    state ∈ (tables.loginState user).links ↔
      ∃ link ∈ tables.links, link.userId = user ∧ link.disabled = false ∧
        tables.linkState link = state := by
  simp only [Tables.loginState, Tables.ofUser, List.mem_map, List.mem_filter, List.mem_insertionSort,
    beq_iff_eq, Bool.not_eq_true']
  constructor
  · rintro ⟨link, ⟨⟨mem, owned⟩, enabled⟩, same⟩
    exact ⟨link, mem, owned, enabled, same⟩
  · rintro ⟨link, mem, owned, enabled, same⟩
    exact ⟨link, ⟨⟨mem, owned⟩, enabled⟩, same⟩

theorem live_links_ne_nil :
    (tables.loginState user).links ≠ [] ↔
      ∃ link ∈ tables.links, link.userId = user ∧ link.disabled = false := by
  rw [ne_eq, List.eq_nil_iff_forall_not_mem]
  simp only [not_forall, not_not, mem_live_links]
  constructor
  · rintro ⟨_, link, mem, owned, enabled, _⟩
    exact ⟨link, mem, owned, enabled⟩
  · rintro ⟨link, mem, owned, enabled⟩
    exact ⟨_, link, mem, owned, enabled, rfl⟩

/-- An operation that takes access away. -/
inductive Revocation where
  | disableLink (key : IdentityKey)
  | revokeAuthority (authority : Authority)
  | deprovision (key : IdentityKey) (now : Instant)
deriving Repr, DecidableEq, Inhabited

def Revocation.act : Revocation → Act
  | .disableLink key => .disableLink key
  | .revokeAuthority authority => .revokeAuthority authority
  | .deprovision key now => .deprovision key now

/-- The links the operation disables. -/
def Revocation.covers : Revocation → IdentityKey → Bool
  | .disableLink key, other => other == key
  | .revokeAuthority authority, other => other.authority == authority
  | .deprovision .., _ => false

/-- The tables after a revocation, carried out or refused. -/
def Tables.revoked (tables : Tables) (op : Revocation) : Tables :=
  (tables.act op.act).getD tables

theorem revoked_disableLink (tables : Tables) (key : IdentityKey) :
    ((∀ row ∈ tables.links, row.key ≠ key) ∧ tables.revoked (.disableLink key) = tables) ∨
      tables.revoked (.disableLink key) =
        (tables.onLink key fun row => { row with disabled := true }).revokeIdentity key := by
  cases absent : (tables.link key).isNone with
  | true =>
      left
      refine ⟨by simpa [Tables.link] using absent, ?_⟩
      simp [Tables.revoked, Revocation.act, Tables.act, Tables.disableLink, absent, committed]
  | false =>
      right
      simp [Tables.revoked, Revocation.act, Tables.act, Tables.disableLink, absent, committed]

theorem revoked_deprovision (tables : Tables) (key : IdentityKey) (now : Instant) :
    tables.revoked (.deprovision key now) = tables ∨
      ∃ id, tables.revoked (.deprovision key now) =
        (tables.markDisabled id .denied now).revokeUser id := by
  cases disabled : tables.deprovision key now with
  | error e =>
      left
      simp [Tables.revoked, Revocation.act, Tables.act, disabled, committed]
  | ok both =>
      right
      obtain ⟨link, _, same⟩ := Tables.deprovision_spec disabled
      refine ⟨link.userId, ?_⟩
      simp [Tables.revoked, Revocation.act, Tables.act, disabled, committed, same]

theorem revoked_outages (tables : Tables) (op : Revocation) :
    (tables.revoked op).outages = tables.outages := by
  cases op with
  | disableLink key =>
      rcases revoked_disableLink tables key with ⟨_, same⟩ | same
      · rw [same]
      · rw [same]
        rfl
  | revokeAuthority authority => rfl
  | deprovision key now =>
      rcases revoked_deprovision tables key now with same | ⟨id, same⟩
      · rw [same]
      · rw [same]
        rfl

theorem mem_revoked_links {op : Revocation} {link : Link} :
    (link ∈ (tables.revoked op).links ∧ link.disabled = false) ↔
      link ∈ tables.links ∧ link.disabled = false ∧ op.covers link.key = false := by
  cases op with
  | disableLink key =>
      simp only [Revocation.covers, beq_eq_false_iff_ne]
      rcases revoked_disableLink tables key with ⟨absent, same⟩ | same
      · rw [same]
        constructor
        · rintro ⟨mem, enabled⟩
          exact ⟨mem, enabled, absent link mem⟩
        · rintro ⟨mem, enabled, _⟩
          exact ⟨mem, enabled⟩
      · rw [same]
        show link ∈ updateAt Link.key key _ tables.links ∧ _ ↔ _
        rw [mem_updateAt]
        constructor
        · rintro ⟨⟨mem, other⟩ | ⟨_, _, _, rfl⟩, enabled⟩
          · exact ⟨mem, enabled, other⟩
          · cases enabled
        · rintro ⟨mem, enabled, other⟩
          exact ⟨.inl ⟨mem, other⟩, enabled⟩
  | revokeAuthority authority =>
      show link ∈ tables.links.map _ ∧ _ ↔ _
      simp only [List.mem_map, Revocation.covers, beq_eq_false_iff_ne]
      constructor
      · rintro ⟨⟨old, mem, rfl⟩, enabled⟩
        split at enabled
        · cases enabled
        · rename_i other
          rw [if_neg other]
          exact ⟨mem, enabled, other⟩
      · rintro ⟨mem, enabled, other⟩
        exact ⟨⟨link, mem, if_neg other⟩, enabled⟩
  | deprovision key now =>
      have kept : (tables.revoked (.deprovision key now)).links = tables.links := by
        rcases revoked_deprovision tables key now with same | ⟨id, same⟩
        · rw [same]
        · rw [same]
          rfl
      simp [kept, Revocation.covers]

theorem live_links_revoked {op : Revocation} {state : LinkState} :
    state ∈ ((tables.revoked op).loginState user).links ↔
      ∃ link ∈ tables.links, link.userId = user ∧ link.disabled = false ∧
        op.covers link.key = false ∧ tables.linkState link = state := by
  have reads : ∀ link, (tables.revoked op).linkState link = tables.linkState link := by
    intro link
    simp only [Tables.linkState, Tables.outagesOf, revoked_outages]
  rw [mem_live_links]
  constructor
  · rintro ⟨link, mem, owned, enabled, same⟩
    obtain ⟨mem, enabled, spared⟩ := mem_revoked_links.mp ⟨mem, enabled⟩
    exact ⟨link, mem, owned, enabled, spared, (reads link).symm.trans same⟩
  · rintro ⟨link, mem, owned, enabled, spared, same⟩
    obtain ⟨mem, enabled⟩ := mem_revoked_links.mpr ⟨mem, enabled, spared⟩
    exact ⟨link, mem, owned, enabled, (reads link).trans same⟩

theorem revoked_disabled (op : Revocation) :
    ((tables.loginState user).disabled = true →
      ((tables.revoked op).loginState user).disabled = true) ∧
    ((∃ key, op.covers key = true) →
      ((tables.revoked op).loginState user).disabled = (tables.loginState user).disabled) := by
  cases op with
  | disableLink key =>
      rcases revoked_disableLink tables key with ⟨_, same⟩ | same
      · rw [same]
        exact ⟨fun marked => marked, fun _ => rfl⟩
      · rw [same]
        exact ⟨fun marked => marked, fun _ => rfl⟩
  | revokeAuthority authority => exact ⟨fun marked => marked, fun _ => rfl⟩
  | deprovision key now =>
      refine ⟨fun marked => ?_, fun ⟨_, covers⟩ => by cases covers⟩
      rcases revoked_deprovision tables key now with same | ⟨id, same⟩
      · rw [same]
        exact marked
      · rw [same]
        simp only [Tables.loginState, List.any_eq_true, beq_iff_eq] at marked ⊢
        obtain ⟨state, mem, own⟩ := marked
        by_cases other : state.userId = id
        · exact ⟨_, mem_upsert.mpr (.inr (.inl ⟨state, mem, other, rfl⟩)), own⟩
        · exact ⟨state, mem_upsert.mpr (.inl ⟨mem, other⟩), own⟩

/-- The last live links go while the clock has run out on them: the account is enabled, the password
mode lets the credential by, and the operation covers every live link. -/
structure TakesRunOut (tables : Tables) (op : Revocation) (policy : GatePolicy) (user : User)
    (kind : CredentialKind) (now : Instant) : Prop where
  enabled : ∀ state ∈ tables.states, state.userId ≠ user.id
  mode : modeRefuses user.role kind policy.passwordMode = false
  runOut : RunOut (tables.loginState user.id).links kind now policy
  all : ∀ link ∈ tables.links, link.userId = user.id → link.disabled = false →
    op.covers link.key = true

theorem disabled_eq_false_iff :
    (tables.loginState user).disabled = false ↔ ∀ state ∈ tables.states, state.userId ≠ user := by
  simp [Tables.loginState]

/-- Revocation never opens the gate but where it takes the last live links of an account whose clock
has run out on all of them. -/
theorem revocation_keeps_gate_shut_iff (tables : Tables) (op : Revocation) (bootstrap : Option Text)
    (policy : GatePolicy) (user : User) (kind : CredentialKind) (now : Instant) :
    (tables.gate bootstrap policy user kind now = false →
      (tables.revoked op).gate bootstrap policy user kind now = false) ↔
    (bootstrap.filter (!·.isEmpty) = some user.username ∨
      ¬TakesRunOut tables op policy user kind now) := by
  simp only [Tables.gate, loginAllowed_eq_false_iff, beq_eq_false_iff_ne]
  constructor
  · intro keeps
    by_cases named : bootstrap.filter (!·.isEmpty) = some user.username
    · exact .inl named
    · refine .inr fun takes => ?_
      obtain ⟨link, mem, owned, enabled⟩ := live_links_ne_nil.mp takes.runOut.linked
      have unmarked := disabled_eq_false_iff.mpr takes.enabled
      obtain ⟨_, marked | refuses | still⟩ := keeps ⟨named, .inr (.inr takes.runOut)⟩
      · rw [(revoked_disabled op).2 ⟨_, takes.all link mem owned enabled⟩, unmarked] at marked
        cases marked
      · rw [takes.mode] at refuses
        cases refuses
      · -- nothing is left for the clock to be asked of
        obtain ⟨state, left⟩ := List.exists_mem_of_ne_nil _ still.linked
        obtain ⟨other, held, own, live, spared, _⟩ := live_links_revoked.mp left
        rw [takes.all other held own live] at spared
        cases spared
  · rintro (named | spares) ⟨other, shut⟩
    · exact absurd named other
    · refine ⟨other, ?_⟩
      rcases shut with marked | refuses | runOut
      · exact .inl ((revoked_disabled op).1 marked)
      · exact .inr (.inl refuses)
      · cases marked : (tables.loginState user.id).disabled with
        | true => exact .inl ((revoked_disabled op).1 marked)
        | false =>
            cases refuses : modeRefuses user.role kind policy.passwordMode with
            | true => exact .inr (.inl rfl)
            | false =>
                have ⟨link, mem, own, live, spared⟩ : ∃ link ∈ tables.links, link.userId = user.id ∧
                    link.disabled = false ∧ op.covers link.key = false := by
                  by_contra none
                  refine spares ⟨disabled_eq_false_iff.mp marked, refuses, runOut, ?_⟩
                  intro link mem own live
                  by_contra open_
                  exact none ⟨link, mem, own, live, by simpa using open_⟩
                obtain ⟨asked, _, after, set, expired⟩ := runOut
                refine .inr (.inr ⟨asked, ?_, after, set, fun state left => ?_⟩)
                · exact List.ne_nil_of_mem
                    (live_links_revoked.mpr ⟨link, mem, own, live, spared, rfl⟩)
                · obtain ⟨link, mem, own, live, _, same⟩ := live_links_revoked.mp left
                  exact expired state (mem_live_links.mpr ⟨link, mem, own, live, same⟩)

/-- A login is good for an hour. -/
def hourly : GatePolicy := ⟨.enabled, some hour, 0⟩

/-- Alice's token, refused ten hours after her only login, is accepted once her only link is
disabled. -/
theorem disabled_link_opens_the_gate :
    ¬∀ (acts : List Act) (s : Tables) (op : Revocation) (policy : GatePolicy) (user : User)
        (kind : CredentialKind) (now : Instant),
      Run Tables.step Any (Tables.empty []) acts s → user ∈ s.users →
      s.gate none policy user kind now = false →
      (s.revoked op).gate none policy user kind now = false := by
  intro all
  obtain ⟨s, reached, tested⟩ := Run.of_test Tables.step Any (Tables.empty []) [provisionAlice]
    (fun s => s.users.any fun user => !s.gate none hourly user .apiToken (10 * hour) &&
      (s.revoked (.disableLink aliceKey)).gate none hourly user .apiToken (10 * hour)) (by decide)
  simp only [List.any_eq_true, Bool.and_eq_true, Bool.not_eq_true'] at tested
  obtain ⟨user, mem, shut, opened⟩ := tested
  have still := all _ s (.disableLink aliceKey) hourly user .apiToken (10 * hour) reached mem shut
  rw [opened] at still
  cases still

end Revoked

end OpenCargo.Identity
