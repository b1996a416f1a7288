/-
Module: OpenCargo.Identity.Sessions
Purpose: No session outlives its link: in every run of the identity store's operations a token issued
  under an identity is one of an enabled link, owned by the token's account, and that account is
  enabled.
Trusted boundary: none
Main exports: Tables.Open, Live, Live.act, no_session_outlives_its_link
-/
import OpenCargo.Identity.System

namespace OpenCargo.Identity

open OpenCargo.Lib

/-- The token is there, and was issued under the identity. -/
def Tables.Session (tables : Tables) (token : Token) (key : IdentityKey) : Prop :=
  token ∈ tables.tokens ∧ ∃ origin ∈ tables.provenance, origin.tokenId = token.id ∧ origin.key = key

/-- The account may have sessions under the identity: its link is enabled, and so is the account. -/
def Tables.Open (tables : Tables) (user : Nat) (key : IdentityKey) : Prop :=
  (∃ link ∈ tables.links, link.key = key ∧ link.disabled = false ∧ link.userId = user) ∧
    ∀ state ∈ tables.states, state.userId ≠ user

/-- A provenance is a token's (the foreign key), and every session is open. -/
structure Live (tables : Tables) : Prop where
  issued : ∀ origin ∈ tables.provenance, ∃ token ∈ tables.tokens, token.id = origin.tokenId
  sessions : ∀ token key, tables.Session token key → tables.Open token.userId key

section Keeps

variable {s t : Tables}

/-- An operation that issues no session keeps the rest when each session it leaves was one, and stays
open. -/
theorem Live.of_kept (live : Live s)
    (issued : ∀ origin ∈ t.provenance, ∃ token ∈ t.tokens, token.id = origin.tokenId)
    (kept : ∀ token key, t.Session token key →
      s.Session token key ∧ (s.Open token.userId key → t.Open token.userId key)) : Live t where
  issued := issued
  sessions token key session :=
    have ⟨was, stays⟩ := kept token key session
    stays (live.sessions token key was)

/-- The tables the sessions are read from are as they were but for more links and fewer marks. -/
theorem Live.widened (live : Live s) (tokens : t.tokens = s.tokens)
    (provenance : t.provenance = s.provenance)
    (links : ∀ link ∈ s.links, ∃ now ∈ t.links, now.key = link.key ∧ now.disabled = link.disabled ∧
      now.userId = link.userId)
    (states : ∀ state ∈ t.states, state ∈ s.states) : Live t := by
  apply live.of_kept (by rw [tokens, provenance]; exact live.issued)
  intro token key session
  refine ⟨by rwa [Tables.Session, tokens, provenance] at session, ?_⟩
  rintro ⟨⟨link, mem, keyed, enabled, owned⟩, unmarked⟩
  obtain ⟨now, mem', keyed', enabled', owned'⟩ := links link mem
  exact ⟨⟨now, mem', keyed'.trans keyed, enabled'.trans enabled, owned'.trans owned⟩,
    fun state marked => unmarked state (states state marked)⟩

theorem session_deleteTokens {ids : List Text} {token : Token} {key : IdentityKey}
    (session : (s.deleteTokens ids).Session token key) :
    s.Session token key ∧ ∀ origin ∈ s.provenance, origin.tokenId ∈ ids → origin.tokenId ≠ token.id := by
  obtain ⟨mem, origin, from_, named, keyed⟩ := session
  simp only [Tables.deleteTokens, List.mem_filter, Bool.not_eq_true', List.contains_eq_mem,
    decide_eq_false_iff_not] at mem from_
  refine ⟨⟨mem.1, origin, from_.1, named, keyed⟩, fun other _ deleted same => ?_⟩
  exact mem.2 (same ▸ deleted)

theorem Live.issued_deleteTokens (live : Live s) (ids : List Text) :
    ∀ origin ∈ (s.deleteTokens ids).provenance,
      ∃ token ∈ (s.deleteTokens ids).tokens, token.id = origin.tokenId := by
  intro origin mem
  simp only [Tables.deleteTokens, List.mem_filter, Bool.not_eq_true', List.contains_eq_mem,
    decide_eq_false_iff_not] at mem ⊢
  obtain ⟨token, held, named⟩ := live.issued origin mem.1
  exact ⟨token, ⟨held, named ▸ mem.2⟩, named⟩

theorem Live.revoked (live : Live s) (gone : IdentityKey → Bool)
    (tokens : t.tokens = (s.deleteTokens ((s.provenance.filter fun origin => gone origin.key).map
      Provenance.tokenId)).tokens)
    (provenance : t.provenance = (s.deleteTokens ((s.provenance.filter fun origin =>
      gone origin.key).map Provenance.tokenId)).provenance)
    (links : ∀ link ∈ s.links, gone link.key = false → link ∈ t.links)
    (states : t.states = s.states) : Live t := by
  apply live.of_kept (by rw [tokens, provenance]; exact live.issued_deleteTokens _)
  intro token key session
  rw [Tables.Session, tokens, provenance] at session
  have ⟨was, spared⟩ := session_deleteTokens session
  refine ⟨was, ?_⟩
  rintro ⟨⟨link, mem, rfl, enabled, owned⟩, unmarked⟩
  obtain ⟨_, origin, from_, named, keyed⟩ := was
  have stays : gone link.key = false := by
    cases revoked : gone link.key with
    | false => rfl
    | true =>
        have listed : origin.tokenId ∈ (s.provenance.filter fun origin => gone origin.key).map
            Provenance.tokenId :=
          List.mem_map_of_mem (List.mem_filter.mpr ⟨from_, by rw [keyed]; exact revoked⟩)
        exact absurd named (spared origin from_ listed)
  exact ⟨⟨link, links link mem stays, rfl, enabled, owned⟩, by rw [states]; exact unmarked⟩

theorem Live.disableUser (live : Live s) (id : Nat) (disabledBy : DisabledBy) (now : Instant) :
    Live ((s.markDisabled id disabledBy now).revokeUser id) := by
  have issued := live.issued_deleteTokens ((s.provenance.filter fun origin =>
    s.links.any fun link => link.key == origin.key && link.userId == id).map Provenance.tokenId)
  refine live.of_kept (t := (s.markDisabled id disabledBy now).revokeUser id) issued ?_
  intro token key session
  have ⟨was, spared⟩ := session_deleteTokens (s := s) session
  refine ⟨was, ?_⟩
  rintro ⟨⟨link, mem, keyed, enabled, owned⟩, unmarked⟩
  obtain ⟨_, origin, from_, named, keyed'⟩ := was
  have other : token.userId ≠ id := by
    rintro rfl
    refine spared origin from_ (List.mem_map_of_mem (List.mem_filter.mpr ⟨from_, ?_⟩)) named
    exact List.any_eq_true.mpr ⟨link, mem, by simp [keyed, keyed', owned]⟩
  refine ⟨⟨link, mem, keyed, enabled, owned⟩, fun state marked => ?_⟩
  rcases mem_upsert.mp marked with ⟨old, _⟩ | ⟨old, held, same, rfl⟩ | ⟨_, rfl⟩
  · exact unmarked state old
  · exact unmarked old held
  · exact Ne.symm other

theorem Live.migrate (live : Live s) (source target : Authority)
    (links : t.links = s.links.map fun row =>
      { row with key := Tables.movedKey source target row.key })
    (provenance : t.provenance = s.provenance.map fun row =>
      { row with key := Tables.movedKey source target row.key })
    (tokens : t.tokens = s.tokens) (states : t.states = s.states) : Live t where
  issued origin mem := by
    rw [provenance] at mem
    obtain ⟨old, held, rfl⟩ := List.mem_map.mp mem
    rw [tokens]
    exact live.issued old held
  sessions token key session := by
    obtain ⟨mem, origin, from_, named, keyed⟩ := session
    rw [provenance] at from_
    obtain ⟨old, held, rfl⟩ := List.mem_map.mp from_
    rw [tokens] at mem
    obtain ⟨⟨link, linked, same, enabled, owned⟩, unmarked⟩ :=
      live.sessions token old.key ⟨mem, old, held, named, rfl⟩
    refine ⟨⟨{ link with key := Tables.movedKey source target link.key }, ?_, ?_, enabled, owned⟩,
      by rw [states]; exact unmarked⟩
    · rw [links]
      exact List.mem_map_of_mem linked
    · simpa [same] using keyed

theorem Live.inserted (live : Live s) {row : Token} (fresh : ∀ token ∈ s.tokens, token.id ≠ row.id)
    (tokens : t.tokens = s.tokens ++ [row]) (provenance : t.provenance = s.provenance)
    (links : t.links = s.links) (states : t.states = s.states) : Live t := by
  apply live.of_kept
  · intro origin mem
    rw [provenance] at mem
    obtain ⟨token, held, named⟩ := live.issued origin mem
    exact ⟨token, by rw [tokens]; exact List.mem_append_left _ held, named⟩
  · rintro token key ⟨mem, origin, from_, named, keyed⟩
    rw [provenance] at from_
    rw [tokens] at mem
    rcases List.mem_append.mp mem with old | new
    · refine ⟨⟨old, origin, from_, named, keyed⟩, ?_⟩
      rw [Tables.Open, Tables.Open, links, states]
      exact id
    · cases List.mem_singleton.mp new
      obtain ⟨other, held, same⟩ := live.issued origin from_
      exact absurd (same.trans named) (fresh other held)

theorem Live.issue (live : Live s) (row : Token) {key : IdentityKey} (open_ : s.Open row.userId key)
    (fresh : ∀ token ∈ s.tokens, token.id ≠ row.id) (tokens : t.tokens = s.tokens ++ [row])
    (provenance : t.provenance = s.provenance ++ [⟨row.id, key⟩]) (links : t.links = s.links)
    (states : t.states = s.states) : Live t where
  issued origin mem := by
    rw [provenance] at mem
    rw [tokens]
    rcases List.mem_append.mp mem with old | new
    · obtain ⟨token, held, named⟩ := live.issued origin old
      exact ⟨token, List.mem_append_left _ held, named⟩
    · cases List.mem_singleton.mp new
      exact ⟨row, List.mem_append_right _ (List.mem_singleton_self _), rfl⟩
  sessions token key' session := by
    rw [Tables.Open, links, states]
    obtain ⟨mem, origin, from_, named, keyed⟩ := session
    rw [provenance] at from_
    rw [tokens] at mem
    rcases List.mem_append.mp from_ with before | now
    · rcases List.mem_append.mp mem with old | new
      · exact live.sessions token key' ⟨old, origin, before, named, keyed⟩
      · cases List.mem_singleton.mp new
        obtain ⟨other, held, same⟩ := live.issued origin before
        exact absurd (same.trans named) (fresh other held)
    · cases List.mem_singleton.mp now
      cases keyed
      rcases List.mem_append.mp mem with old | new
      · exact absurd named.symm (fresh token old)
      · cases List.mem_singleton.mp new
        exact open_

theorem Live.deleteUser (live : Live s) {id : Nat}
    (tokens : t.tokens = s.tokens.filter fun token => token.userId != id)
    (provenance : t.provenance = s.provenance.filter fun origin =>
      !((s.tokens.filter fun token => token.userId == id).map Token.id).contains origin.tokenId)
    (links : t.links = s.links.filter fun link => link.userId != id)
    (states : t.states = s.states.filter fun state => state.userId != id) : Live t := by
  apply live.of_kept
  · intro origin mem
    rw [provenance] at mem
    obtain ⟨held, kept⟩ := List.mem_filter.mp mem
    obtain ⟨token, here, named⟩ := live.issued origin held
    have other : token.userId ≠ id := by
      intro own
      simp only [Bool.not_eq_true', List.contains_eq_mem, decide_eq_false_iff_not] at kept
      exact kept (named ▸ List.mem_map_of_mem (List.mem_filter.mpr ⟨here, by simpa using own⟩))
    exact ⟨token, by rw [tokens]; exact List.mem_filter.mpr ⟨here, by simpa using other⟩, named⟩
  · rintro token key ⟨mem, origin, from_, named, keyed⟩
    rw [tokens] at mem
    rw [provenance] at from_
    obtain ⟨mem, other⟩ := List.mem_filter.mp mem
    refine ⟨⟨mem, origin, (List.mem_filter.mp from_).1, named, keyed⟩, ?_⟩
    rintro ⟨⟨link, linked, same, enabled, owned⟩, unmarked⟩
    refine ⟨⟨link, ?_, same, enabled, owned⟩, fun state marked => ?_⟩
    · rw [links]
      exact List.mem_filter.mpr ⟨linked, by rw [owned]; exact other⟩
    · rw [states] at marked
      exact unmarked state (List.mem_filter.mp marked).1

end Keeps

section Runs

variable {s t : Tables}

theorem Live.act (live : Live s) {act : Act} (done : s.act act = some t) : Live t := by
  have same : ∀ link ∈ s.links, ∃ now ∈ s.links, now.key = link.key ∧ now.disabled = link.disabled ∧
      now.userId = link.userId := fun link mem => ⟨link, mem, rfl, rfl, rfl⟩
  cases act with
  | createUser account passwordHash now =>
      obtain ⟨_, created⟩ := committed_eq_some.mp done
      obtain ⟨_, _, rfl⟩ := createUser_spec created
      exact live.widened rfl rfl same fun _ mem => mem
  | updateAccount username patch admin now =>
      obtain ⟨_, updated⟩ := committed_eq_some.mp done
      obtain ⟨_, _, _, _, _, rfl⟩ := updateAccount_spec updated
      exact live.widened rfl rfl same fun _ mem => mem
  | deleteUser username =>
      obtain ⟨_, deleted⟩ := committed_eq_some.mp done
      obtain ⟨user, _, _, tokens, provenance, links, states, _⟩ := Tables.deleteUser_spec deleted
      exact live.deleteUser tokens provenance links states
  | createToken token now =>
      cases inserted : s.insertToken token now with
      | error e => simp [Tables.act, inserted, Except.toOption] at done
      | ok next =>
          simp only [Tables.act, inserted, Except.toOption, Option.some.injEq] at done
          subst done
          obtain ⟨fresh, rfl⟩ := Tables.insertToken_spec inserted
          exact live.inserted fresh rfl rfl rfl rfl
  | deleteToken id =>
      cases done
      refine live.of_kept (live.issued_deleteTokens [id]) fun token key session => ?_
      exact ⟨(session_deleteTokens session).1, fun open_ => open_⟩
  | provision user a now =>
      obtain ⟨_, provisioned⟩ := committed_eq_some.mp done
      obtain ⟨_, _, _, _, rfl⟩ := Tables.provision_spec provisioned
      exact live.widened rfl rfl
        (fun link mem => ⟨link, List.mem_append_left _ mem, rfl, rfl, rfl⟩) fun _ mem => mem
  | admit_ a now =>
      obtain ⟨_, admitted⟩ := committed_eq_some.mp done
      obtain ⟨link, _, _, _, rfl, _⟩ := Tables.admit_spec admitted
      refine live.widened rfl rfl (fun other mem => ?_) fun _ mem => (List.mem_filter.mp mem).1
      by_cases own : other.key = a.key
      · exact ⟨_, mem_updateAt.mpr (.inr ⟨other, mem, own, rfl⟩), rfl, rfl, rfl⟩
      · exact ⟨other, mem_updateAt.mpr (.inl ⟨mem, own⟩), rfl, rfl, rfl⟩
  | attach id key email now =>
      obtain ⟨_, attached⟩ := committed_eq_some.mp done
      obtain ⟨_, _, _, rfl⟩ := Tables.attach_spec attached
      exact live.widened rfl rfl
        (fun link mem => ⟨link, List.mem_append_left _ mem, rfl, rfl, rfl⟩) fun _ mem => mem
  | detach id key =>
      obtain ⟨_, detached⟩ := committed_eq_some.mp done
      obtain ⟨link, _, _, _, rfl⟩ := Tables.detach_spec detached
      refine live.revoked (· == key) rfl rfl ?_ rfl
      intro other mem kept
      exact List.mem_filter.mpr ⟨mem, by simpa using kept⟩
  | disableLink key =>
      obtain ⟨_, disabled⟩ := committed_eq_some.mp done
      cases Tables.disableLink_spec disabled
      refine live.revoked (· == key) rfl rfl ?_ rfl
      intro other mem kept
      exact mem_updateAt.mpr (.inl ⟨mem, by simpa using kept⟩)
  | disableUser id disabledBy now =>
      obtain ⟨_, disabled⟩ := committed_eq_some.mp done
      cases Tables.disableUser_spec disabled
      exact live.disableUser id disabledBy now
  | enableUser id =>
      cases done
      exact live.widened rfl rfl same fun _ mem => (List.mem_filter.mp mem).1
  | deprovision key now =>
      obtain ⟨_, disabled⟩ := committed_eq_some.mp done
      obtain ⟨link, _, rfl⟩ := Tables.deprovision_spec disabled
      exact live.disableUser link.userId .denied now
  | revokeAuthority authority =>
      cases done
      refine live.revoked (·.authority == authority) rfl rfl ?_ rfl
      intro link mem kept
      exact List.mem_map.mpr ⟨link, mem, if_neg (by simpa using kept)⟩
  | migrateAuthority source target =>
      obtain ⟨_, migrated⟩ := committed_eq_some.mp done
      obtain ⟨_, _, rfl⟩ := Tables.migrateAuthority_spec migrated
      exact live.migrate source target rfl rfl rfl rfl
  | issueSession token key now =>
      obtain ⟨_, issued⟩ := committed_eq_some.mp done
      obtain ⟨⟨link, mem, keyed, owned, enabled⟩, unmarked, fresh, rfl⟩ :=
        Tables.issueSession_spec issued
      exact live.issue (Tables.NewToken.row token now)
        ⟨⟨link, mem, keyed, enabled, owned⟩, unmarked⟩ fresh rfl rfl rfl rfl
  | recordProbe authority reachable now =>
      obtain ⟨_, probed⟩ := committed_eq_some.mp done
      obtain ⟨_, rfl⟩ := Tables.recordProbe_spec probed
      exact live.widened rfl rfl same fun _ mem => mem

theorem Live.empty (repositories : List Repository) : Live (Tables.empty repositories) where
  issued _ mem := by cases mem
  sessions _ _ session := by cases session.1

theorem Live.step (live : Live s) {act : Act} (taken : s.step act = some t) : Live t := by
  rcases Tables.step_eq_some taken with done | ⟨_, rfl⟩
  · exact live.act done
  · exact live

/-- No session outlives its link. In every state a run of any operations reaches, a token with a
provenance is one of an identity whose link is there, enabled and the token's account's, and that
account is not disabled. -/
theorem no_session_outlives_its_link {repositories : List Repository} {acts : List Act}
    (reached : Run Tables.step Any (Tables.empty repositories) acts s) :
    ∀ token ∈ s.tokens, ∀ origin ∈ s.provenance, origin.tokenId = token.id →
      (∃ link ∈ s.links, link.key = origin.key ∧ link.disabled = false ∧
        link.userId = token.userId) ∧
      ∀ state ∈ s.states, state.userId ≠ token.userId := by
  have live : Live s :=
    reached.invariant Live (Live.empty repositories) fun _ _ _ live taken _ => live.step taken
  intro token mem origin from_ named
  exact live.sessions token origin.key ⟨mem, origin, from_, named, rfl⟩

/-! ### One account and its identity -/

def corp : Authority := ⟨"corp".toList, "https://idp.example".toList⟩

def aliceKey : IdentityKey := ⟨corp, "a".toList⟩

/-- An hour, in nanoseconds. -/
def hour : Instant := 3600000000000

/-- A login the rules give the role to, and nothing else. -/
def admissionOf (key : IdentityKey) (role : Text) : Admission := ⟨key, none, role, [], []⟩

def provisionAlice : Act :=
  .provision ⟨"alice".toList, none, "!sso".toList, "reader".toList⟩
    (admissionOf aliceKey "reader".toList) 0

def sessionOf (id : Text) (user : Nat) : NewToken :=
  ⟨id, user, "sso:corp".toList, "trg_".toList, "hash".toList, some (12 * hour), .inherit_⟩

/-- Alice logs in twice, her account is disabled in between, and she holds the second session. -/
def loggedInTwice : List Act :=
  [provisionAlice, .issueSession (sessionOf "t1".toList 1) aliceKey 0, .disableUser 1 .denied hour,
    .admit_ (admissionOf aliceKey "reader".toList) (2 * hour),
    .issueSession (sessionOf "t2".toList 1) aliceKey (2 * hour)]

theorem second_session_is_under_its_link :
    ∃ (s : Tables) (token : Token) (origin : Provenance),
      Run Tables.step Any (Tables.empty []) loggedInTwice s ∧ token ∈ s.tokens ∧
      origin ∈ s.provenance ∧ origin.tokenId = token.id ∧
      (∃ link ∈ s.links, link.key = origin.key ∧ link.disabled = false ∧
        link.userId = token.userId) ∧
      ∀ state ∈ s.states, state.userId ≠ token.userId := by
  obtain ⟨s, reached, tested⟩ := Run.of_test Tables.step Any (Tables.empty []) loggedInTwice
    (fun s => s.tokens.any fun token => s.provenance.any fun origin =>
      origin.tokenId == token.id) (by decide)
  simp only [List.any_eq_true, beq_iff_eq] at tested
  obtain ⟨token, mem, origin, from_, named⟩ := tested
  exact ⟨s, token, origin, reached, mem, from_, named,
    no_session_outlives_its_link reached token mem origin from_ named⟩

end Runs

end OpenCargo.Identity
