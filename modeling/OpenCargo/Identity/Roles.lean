/-
Module: OpenCargo.Identity.Roles
Purpose: Who gave an account its role. Beside the tables a ledger keeps the role an operator last gave
  each account, by creation or by an update; a link that is removed gives back the role the account
  had when it was linked, and on an account no identity created that is the ledger's of that moment.
Trusted boundary: none
Main exports: Sound, Sound.effect, Stays, unlinking_restores_the_role_at_linking
-/
import OpenCargo.Identity.Sessions

namespace OpenCargo.Identity

open OpenCargo.Lib

/-! ### What is given by hand -/

/-- The roles given by hand, after an operation. -/
def assigned (tables : Tables) (act : Act) (byHand : Nat → Option Text) : Nat → Option Text :=
  match act with
  | .createUser account passwordHash now =>
      match createUser tables account passwordHash now with
      | .ok (user, _) => Function.update byHand user.id (some user.role)
      | .error _ => byHand
  | .updateAccount username patch admin now =>
      match updateAccount tables username patch admin now, patch.role with
      | .ok (user, _), some role => Function.update byHand user.id (some role)
      | _, _ => byHand
  | _ => byHand

theorem assigned_of_failed {tables : Tables} {act : Act} (failed : tables.act act = none)
    (byHand : Nat → Option Text) : assigned tables act byHand = byHand := by
  cases act with
  | createUser account passwordHash now =>
      cases answer : createUser tables account passwordHash now with
      | error e => simp only [assigned, answer]
      | ok both => simp [Tables.act, answer, committed] at failed
  | updateAccount username patch admin now =>
      cases answer : updateAccount tables username patch admin now with
      | error e => simp only [assigned, answer]
      | ok both => simp [Tables.act, answer, committed] at failed
  | _ => rfl

structure Ledger where
  tables : Tables
  /-- The role an operator last gave the account. -/
  byHand : Nat → Option Text

def Ledger.step (s : Ledger) (act : Act) : Option Ledger :=
  (s.tables.step act).map (⟨·, assigned s.tables act s.byHand⟩)

def Ledger.empty (repositories : List Repository) : Ledger :=
  ⟨Tables.empty repositories, fun _ => none⟩

/-! ### What an operation does to accounts and links -/

/-- A new account, under the next id and a name that is free. -/
structure Joins (s : Tables) (user : User) (t : Tables) : Prop where
  numbered : user.id = s.sequence + 1
  named : ∀ row ∈ s.users, row.username ≠ user.username
  users : t.users = s.users ++ [user]
  sequence : t.sequence = s.sequence + 1

/-- The columns of a link that are written when it is made. -/
structure SameOrigin (f : Link → Link) : Prop where
  userId : ∀ row, (f row).userId = row.userId
  provisioned : ∀ row, (f row).provisioned = row.provisioned
  roleBeforeLink : ∀ row, (f row).roleBeforeLink = row.roleBeforeLink

/-- Everything an operation can do to the accounts and the links. -/
inductive Effect (s : Tables) : Act → Tables → Prop where
  | kept {act : Act} {t : Tables} {f : Link → Link} (origin : SameOrigin f)
      (key : ∀ row, (f row).key = row.key) (users : t.users = s.users)
      (sequence : t.sequence = s.sequence) (links : t.links = s.links.map f)
      (byHand : ∀ roles, assigned s act roles = roles) : Effect s act t
  | created {account : NewAccount} {passwordHash : Text} {now : Instant} {user : User} {t : Tables}
      (joins : Joins s user t) (links : t.links = s.links)
      (byHand : ∀ roles, assigned s (.createUser account passwordHash now) roles =
        Function.update roles user.id (some user.role)) :
      Effect s (.createUser account passwordHash now) t
  | provisioned {new : NewUser} {a : Admission} {now : Instant} {user : User} {t : Tables}
      (joins : Joins s user t) (free : s.link a.key = none)
      (links : t.links = s.links ++ [Tables.provisionedLink user.id a now]) :
      Effect s (.provision new a now) t
  | updated {username : Text} {patch : AccountPatch} {admin : Bool} {now : Instant} {row : User}
      {f : User → User} {t : Tables} (found : s.userNamed username = some row)
      (keeps : ∀ row, (f row).id = row.id ∧ (f row).username = row.username ∧
        (f row).role = patch.role.getD row.role)
      (users : t.users = updateAt User.username username f s.users)
      (sequence : t.sequence = s.sequence) (links : t.links = s.links)
      (byHand : ∀ roles, assigned s (.updateAccount username patch admin now) roles =
        match patch.role with
        | some role => Function.update roles row.id (some role)
        | none => roles) : Effect s (.updateAccount username patch admin now) t
  | admitted {a : Admission} {now : Instant} {link : Link} {f : Link → Link} {t : Tables}
      (origin : SameOrigin f) (key : ∀ row, (f row).key = row.key)
      (found : s.link a.key = some link)
      (users : t.users = updateAt User.id link.userId (Tables.ruled link a now) s.users)
      (sequence : t.sequence = s.sequence) (links : t.links = s.links.map f) :
      Effect s (.admit_ a now) t
  | attached {id : Nat} {key : IdentityKey} {email : Option Text} {now : Instant} {user : User}
      {t : Tables} (found : s.user id = some user) (free : s.link key = none)
      (users : t.users = s.users) (sequence : t.sequence = s.sequence)
      (links : t.links = s.links ++
        [⟨key, id, email, false, some user.role, false, bindTs now, bindTs now⟩]) :
      Effect s (.attach id key email now) t
  | detached {id : Nat} {key : IdentityKey} {link : Link} {t : Tables} (mem : link ∈ s.links)
      (keyed : link.key = key) (owned : link.userId = id)
      (users : t.users = updateAt User.id id (Tables.restored link) s.users)
      (sequence : t.sequence = s.sequence)
      (links : t.links = s.links.filter fun row => row.key != key) : Effect s (.detach id key) t
  | deleted {username : Text} {user : User} {t : Tables} (found : s.userNamed username = some user)
      (users : t.users = s.users.filter fun row => row.username != username)
      (sequence : t.sequence = s.sequence)
      (links : t.links = s.links.filter fun link => link.userId != user.id) :
      Effect s (.deleteUser username) t
  | migrated {source target : Authority} {t : Tables} (users : t.users = s.users)
      (sequence : t.sequence = s.sequence) (unique : (t.links.map Link.key).Nodup)
      (links : t.links = s.links.map fun row =>
        { row with key := Tables.movedKey source target row.key }) :
      Effect s (.migrateAuthority source target) t

theorem SameOrigin.refl : SameOrigin fun row => row := ⟨fun _ => rfl, fun _ => rfl, fun _ => rfl⟩

theorem SameOrigin.ite {f : Link → Link} (same : SameOrigin f) (p : Link → Prop) [DecidablePred p] :
    SameOrigin fun row => if p row then f row else row where
  userId row := by
    split
    · exact same.userId row
    · rfl
  provisioned row := by
    split
    · exact same.provisioned row
    · rfl
  roleBeforeLink row := by
    split
    · exact same.roleBeforeLink row
    · rfl

variable {s t : Tables}

theorem Effect.elsewhere {act : Act} (users : t.users = s.users) (sequence : t.sequence = s.sequence)
    (links : t.links = s.links) (byHand : ∀ roles, assigned s act roles = roles) : Effect s act t :=
  .kept .refl (fun _ => rfl) users sequence (by simp [links]) byHand

theorem Tables.effect_act {act : Act} (done : s.act act = some t) : Effect s act t := by
  cases act with
  | createUser account passwordHash now =>
      obtain ⟨user, created⟩ := committed_eq_some.mp done
      obtain ⟨numbered, named, rfl⟩ := createUser_spec created
      exact .created ⟨numbered, named, rfl, rfl⟩ rfl fun roles => by simp only [assigned, created]
  | updateAccount username patch admin now =>
      obtain ⟨user, updated⟩ := committed_eq_some.mp done
      obtain ⟨row, f, found, rfl, keeps, rfl⟩ := updateAccount_spec updated
      refine .updated found keeps rfl rfl rfl fun roles => ?_
      simp only [assigned, updated]
      cases patch.role with
      | none => rfl
      | some role => simp only [(keeps row).1]
  | deleteUser username =>
      obtain ⟨_, deleted⟩ := committed_eq_some.mp done
      obtain ⟨user, found, users, _, _, links, _, _⟩ := deleteUser_spec deleted
      have sequence : t.sequence = s.sequence := by
        rw [deleteUser, found] at deleted
        cases deleted
        rfl
      exact .deleted found users sequence links
  | createToken token now =>
      cases inserted : s.insertToken token now with
      | error e => simp [act, inserted, Except.toOption] at done
      | ok next =>
          simp only [act, inserted, Except.toOption, Option.some.injEq] at done
          subst done
          obtain ⟨_, rfl⟩ := insertToken_spec inserted
          exact .elsewhere rfl rfl rfl fun _ => rfl
  | deleteToken id =>
      cases done
      exact .elsewhere rfl rfl rfl fun _ => rfl
  | provision new a now =>
      obtain ⟨user, provisioned⟩ := committed_eq_some.mp done
      obtain ⟨numbered, named, free, _, rfl⟩ := provision_spec provisioned
      exact .provisioned ⟨numbered, named, rfl, rfl⟩ free rfl
  | admit_ a now =>
      obtain ⟨_, admitted⟩ := committed_eq_some.mp done
      obtain ⟨link, found, _, _, rfl, _⟩ := admit_spec admitted
      refine .admitted (.ite ?_ fun row => row.key = a.key) (fun row => ?_) found rfl rfl rfl
      · exact ⟨fun _ => rfl, fun _ => rfl, fun _ => rfl⟩
      · split <;> rfl
  | attach id key email now =>
      obtain ⟨_, attached⟩ := committed_eq_some.mp done
      obtain ⟨user, found, free, rfl⟩ := attach_spec attached
      exact .attached found free rfl rfl rfl
  | detach id key =>
      obtain ⟨_, detached⟩ := committed_eq_some.mp done
      obtain ⟨link, mem, keyed, owned, rfl⟩ := detach_spec detached
      exact .detached mem keyed owned rfl rfl rfl
  | disableLink key =>
      obtain ⟨_, disabled⟩ := committed_eq_some.mp done
      cases disableLink_spec disabled
      refine .kept (.ite ?_ fun row => row.key = key) (fun row => ?_) rfl rfl rfl fun _ => rfl
      · exact ⟨fun _ => rfl, fun _ => rfl, fun _ => rfl⟩
      · split <;> rfl
  | disableUser id disabledBy now =>
      obtain ⟨_, disabled⟩ := committed_eq_some.mp done
      cases disableUser_spec disabled
      exact .elsewhere rfl rfl rfl fun _ => rfl
  | enableUser id =>
      cases done
      exact .elsewhere rfl rfl rfl fun _ => rfl
  | deprovision key now =>
      obtain ⟨_, disabled⟩ := committed_eq_some.mp done
      obtain ⟨_, _, rfl⟩ := deprovision_spec disabled
      exact .elsewhere rfl rfl rfl fun _ => rfl
  | revokeAuthority authority =>
      cases done
      refine .kept (.ite ?_ fun row => row.key.authority = authority) (fun row => ?_) rfl rfl rfl
        fun _ => rfl
      · exact ⟨fun _ => rfl, fun _ => rfl, fun _ => rfl⟩
      · split <;> rfl
  | migrateAuthority source target =>
      obtain ⟨_, migrated⟩ := committed_eq_some.mp done
      obtain ⟨unique, _, rfl⟩ := migrateAuthority_spec migrated
      exact .migrated rfl rfl unique rfl
  | issueSession token key now =>
      obtain ⟨_, issued⟩ := committed_eq_some.mp done
      obtain ⟨_, _, _, rfl⟩ := issueSession_spec issued
      exact .elsewhere rfl rfl rfl fun _ => rfl
  | recordProbe authority reachable now =>
      obtain ⟨_, probed⟩ := committed_eq_some.mp done
      obtain ⟨_, rfl⟩ := recordProbe_spec probed
      exact .elsewhere rfl rfl rfl fun _ => rfl

/-! ### The keys of the tables -/

/-- `PRIMARY KEY`, `UNIQUE` and `AUTOINCREMENT`. -/
structure Sound (t : Tables) : Prop where
  numbered : ∀ id ∈ t.users.map User.id, id ≤ t.sequence
  ids : (t.users.map User.id).Nodup
  names : (t.users.map User.username).Nodup
  keys : (t.links.map Link.key).Nodup

theorem Sound.empty (repositories : List Repository) : Sound (Tables.empty repositories) := by
  constructor <;> simp [Tables.empty]

section Keys

theorem Sound.user_eq (sound : Sound s) {a b : User} (mem : a ∈ s.users) (mem' : b ∈ s.users)
    (same : a.id = b.id) : a = b := List.inj_on_of_nodup_map sound.ids mem mem' same

theorem Sound.named_eq (sound : Sound s) {a b : User} (mem : a ∈ s.users) (mem' : b ∈ s.users)
    (same : a.username = b.username) : a = b := List.inj_on_of_nodup_map sound.names mem mem' same

theorem Sound.link_eq (sound : Sound s) {a b : Link} (mem : a ∈ s.links) (mem' : b ∈ s.links)
    (same : a.key = b.key) : a = b := List.inj_on_of_nodup_map sound.keys mem mem' same

theorem mem_of_userNamed {username : Text} {user : User}
    (found : s.userNamed username = some user) : user ∈ s.users ∧ user.username = username :=
  ⟨List.mem_of_find?_eq_some found, by simpa using List.find?_some found⟩

theorem Sound.of_sublist (sound : Sound s) (ids : (t.users.map User.id).Sublist (s.users.map User.id))
    (names : (t.users.map User.username).Sublist (s.users.map User.username))
    (sequence : t.sequence = s.sequence) (keys : (t.links.map Link.key).Nodup) : Sound t where
  numbered id mem := by
    rw [sequence]
    exact sound.numbered id (ids.subset mem)
  ids := sound.ids.sublist ids
  names := sound.names.sublist names
  keys := keys

theorem Sound.joins (sound : Sound s) {user : User} (joins : Joins s user t)
    (keys : (t.links.map Link.key).Nodup) : Sound t where
  numbered id mem := by
    rw [joins.users, List.map_append, List.mem_append] at mem
    rw [joins.sequence]
    rcases mem with old | new
    · exact Nat.le_succ_of_le (sound.numbered id old)
    · rw [List.mem_singleton.mp new, joins.numbered]
  ids := by
    rw [joins.users, List.map_append, List.nodup_append]
    refine ⟨sound.ids, by simp, ?_⟩
    rintro id old _ new rfl
    have := sound.numbered id old
    have := joins.numbered
    have := List.mem_singleton.mp new
    omega
  names := by
    rw [joins.users, List.map_append, List.nodup_append]
    refine ⟨sound.names, by simp, ?_⟩
    rintro _ old _ new rfl
    obtain ⟨row, mem, same⟩ := List.mem_map.mp old
    exact joins.named row mem (same.trans (List.mem_singleton.mp new))
  keys := keys

theorem Sound.linked (sound : Sound s) {link : Link} (free : s.link link.key = none)
    (links : t.links = s.links ++ [link]) : (t.links.map Link.key).Nodup := by
  rw [links, List.map_append, List.nodup_append]
  refine ⟨sound.keys, by simp, ?_⟩
  rintro _ old _ new rfl
  obtain ⟨row, mem, same⟩ := List.mem_map.mp old
  have other := List.find?_eq_none.mp free row mem
  exact other (by simpa using same.trans (List.mem_singleton.mp new))

theorem Sound.relinked (sound : Sound s) {f : Link → Link} (key : ∀ row, (f row).key = row.key)
    (links : t.links = s.links.map f) : (t.links.map Link.key).Nodup := by
  have same : t.links.map Link.key = s.links.map Link.key := by
    rw [links, List.map_map]
    exact List.map_congr_left fun row _ => key row
  exact same ▸ sound.keys

theorem Sound.effect {act : Act} (sound : Sound s) (effect : Effect s act t) : Sound t := by
  cases effect with
  | kept _ key users sequence links _ =>
      exact sound.of_sublist (by rw [users]) (by rw [users]) sequence (sound.relinked key links)
  | created joins links _ => exact sound.joins joins (links ▸ sound.keys)
  | provisioned joins free links => exact sound.joins joins (sound.linked free links)
  | @updated username _ _ _ _ f _ _ keeps users sequence links _ =>
      refine sound.of_sublist ?_ ?_ sequence (links ▸ sound.keys)
      · rw [users, map_updateAt fun row _ => (keeps row).1]
      · rw [users, map_updateAt fun row _ => (keeps row).2.1]
  | @admitted a now link _ _ _ key _ users sequence links =>
      refine sound.of_sublist ?_ ?_ sequence (sound.relinked key links)
      · rw [users, map_updateAt fun row _ => Tables.ruled_id link row]
      · rw [users, map_updateAt fun row _ => Tables.ruled_username link row]
  | attached _ free users sequence links =>
      exact sound.of_sublist (by rw [users]) (by rw [users]) sequence (sound.linked free links)
  | @detached _ _ link _ _ _ _ users sequence links =>
      refine sound.of_sublist ?_ ?_ sequence ?_
      · rw [users, map_updateAt fun row _ => Tables.restored_id link row]
      · rw [users, map_updateAt fun row _ => Tables.restored_username link row]
      · rw [links]
        exact sound.keys.sublist (List.filter_sublist.map _)
  | deleted _ users sequence links =>
      refine sound.of_sublist ?_ ?_ sequence ?_
      · rw [users]
        exact List.filter_sublist.map _
      · rw [users]
        exact List.filter_sublist.map _
      · rw [links]
        exact sound.keys.sublist (List.filter_sublist.map _)
  | migrated users sequence unique _ =>
      exact sound.of_sublist (by rw [users]) (by rw [users]) sequence unique

theorem Sound.step {act : Act} (sound : Sound s) (taken : s.step act = some t) : Sound t := by
  rcases Tables.step_eq_some taken with done | ⟨_, rfl⟩
  · exact sound.effect (Tables.effect_act done)
  · exact sound

end Keys

/-! ### Up to the link -/

/-- The account has the role the ledger gives it, but where an identity created it. -/
def Given (id : Nat) (s : Ledger) : Prop :=
  ∀ row ∈ s.tables.users, row.id = id →
    (∃ link ∈ s.tables.links, link.userId = id ∧ link.provisioned = true) ∨
      s.byHand id = some row.role

section Given

variable {id : Nat} {act : Act} {byHand : Nat → Option Text}

theorem provisioned_map {f : Link → Link} (origin : SameOrigin f) (links : t.links = s.links.map f)
    (held : ∃ link ∈ s.links, link.userId = id ∧ link.provisioned = true) :
    ∃ link ∈ t.links, link.userId = id ∧ link.provisioned = true := by
  obtain ⟨link, mem, owned, made⟩ := held
  rw [links]
  exact ⟨f link, List.mem_map_of_mem mem, (origin.userId link).trans owned,
    (origin.provisioned link).trans made⟩

theorem Given.effect (given : Given id ⟨s, byHand⟩) (sound : Sound s) (effect : Effect s act t)
    (linked : ∀ key, act ≠ .detach id key) : Given id ⟨t, assigned s act byHand⟩ := by
  intro row mem own
  simp only at mem ⊢
  cases effect with
  | kept origin _ users _ links same =>
      rw [users] at mem
      rw [same]
      exact (given row mem own).imp_left (provisioned_map origin links)
  | @created _ _ _ user _ joins links same =>
      rw [joins.users, List.mem_append] at mem
      rw [same, links]
      rcases mem with old | new
      · have low := sound.numbered row.id (List.mem_map_of_mem old)
        have high := joins.numbered
        rw [Function.update_of_ne (by omega)]
        exact given row old own
      · cases List.mem_singleton.mp new
        exact .inr (by rw [← own, Function.update_self])
  | @provisioned _ a now user _ joins _ links =>
      rw [joins.users, List.mem_append] at mem
      rw [links]
      rcases mem with old | new
      · refine (given row old own).imp_left ?_
        rintro ⟨link, mem, held⟩
        exact ⟨link, List.mem_append_left _ mem, held⟩
      · cases List.mem_singleton.mp new
        exact .inl ⟨_, List.mem_append_right _ (List.mem_singleton_self _), own, rfl⟩
  | @updated username patch _ _ found f _ read keeps users _ links same =>
      rw [users] at mem
      rw [same, links]
      obtain ⟨held, named⟩ := mem_of_userNamed read
      rcases mem_updateAt.mp mem with ⟨old, other⟩ | ⟨old, before, renamed, rfl⟩
      · refine (given row old own).imp_right fun was => ?_
        cases patch.role with
        | none => exact was
        | some role =>
            have apart : id ≠ found.id := by
              rintro rfl
              cases sound.user_eq old held own
              exact other named
            simpa only [Function.update_of_ne apart] using was
      · cases sound.named_eq before held (renamed.trans named.symm)
        have ⟨numbered, _, role⟩ := keeps found
        rw [role]
        refine (given found before (numbered ▸ own)).imp_right fun was => ?_
        cases patch.role with
        | none => exact was
        | some role =>
            have self : id = found.id := (numbered.symm.trans own).symm
            simp only [self, Function.update_self, Option.getD_some]
  | @admitted a now link f _ origin _ found users _ links =>
      rw [users] at mem
      rcases mem_updateAt.mp mem with ⟨old, _⟩ | ⟨old, before, owner, rfl⟩
      · exact (given row old own).imp_left (provisioned_map origin links)
      · -- only an account the identity created follows the rules
        cases made : link.provisioned with
        | true =>
            have self : link.userId = id := by
              simpa [Tables.ruled, made, owner] using own
            exact .inl (provisioned_map origin links
              ⟨link, (Tables.mem_of_link found).1, self, made⟩)
        | false =>
            simp only [Tables.ruled, made, Bool.false_eq_true, if_false] at own ⊢
            exact (given old before own).imp_left (provisioned_map origin links)
  | attached _ _ users _ links =>
      rw [users] at mem
      rw [links]
      refine (given row mem own).imp_left ?_
      rintro ⟨link, mem, held⟩
      exact ⟨link, List.mem_append_left _ mem, held⟩
  | @detached other key link _ held keyed owned users _ links =>
      have apart : other ≠ id := by
        rintro rfl
        exact linked key rfl
      rw [users] at mem
      rw [links]
      rcases mem_updateAt.mp mem with ⟨old, _⟩ | ⟨old, _, self, rfl⟩
      · refine (given row old own).imp_left ?_
        rintro ⟨mine, mem, belongs, made⟩
        refine ⟨mine, List.mem_filter.mpr ⟨mem, ?_⟩, belongs, made⟩
        have : mine.key ≠ key := by
          intro same
          cases sound.link_eq mem held (same.trans keyed.symm)
          exact apart (owned.symm.trans belongs)
        simpa using this
      · exact absurd (self.symm.trans own) apart
  | @deleted username user _ found users _ links =>
      obtain ⟨held, named⟩ := mem_of_userNamed found
      rw [users, List.mem_filter] at mem
      rw [links]
      refine (given row mem.1 own).imp_left ?_
      rintro ⟨link, linked, belongs, made⟩
      refine ⟨link, List.mem_filter.mpr ⟨linked, ?_⟩, belongs, made⟩
      have : link.userId ≠ user.id := by
        intro same
        cases sound.user_eq mem.1 held (own.trans (belongs.symm.trans same))
        simp [named] at mem
      simpa using this
  | @migrated source target _ users _ _ links =>
      rw [users] at mem
      refine (given row mem own).imp_left (provisioned_map ?_ links)
      exact ⟨fun _ => rfl, fun _ => rfl, fun _ => rfl⟩

end Given

/-! ### From the link on -/

/-- The account is there, and its link remembers the role. -/
def Remembers (id : Nat) (key : IdentityKey) (role : Text) (t : Tables) : Prop :=
  id ∈ t.users.map User.id ∧
    ∃ link ∈ t.links, link.key = key ∧ link.userId = id ∧ link.roleBeforeLink = some role

/-- Neither the link nor the account is removed, and the link's authority is not moved. -/
def Stays (id : Nat) (key : IdentityKey) (s : Tables) (act : Act) (_ : Tables) : Prop :=
  match act with
  | .detach _ other => other ≠ key
  | .deleteUser username => ∀ row ∈ s.users, row.username = username → row.id ≠ id
  | .migrateAuthority source _ => source ≠ key.authority
  | _ => True

section Remembers

variable {id : Nat} {key : IdentityKey} {role : Text} {act : Act}

theorem remembers_map {f : Link → Link} (origin : SameOrigin f)
    (same : ∀ row ∈ s.links, row.key = key → (f row).key = key) (links : t.links = s.links.map f)
    (held : ∃ link ∈ s.links, link.key = key ∧ link.userId = id ∧ link.roleBeforeLink = some role) :
    ∃ link ∈ t.links, link.key = key ∧ link.userId = id ∧ link.roleBeforeLink = some role := by
  obtain ⟨link, mem, keyed, owned, remembered⟩ := held
  rw [links]
  exact ⟨f link, List.mem_map_of_mem mem, same link mem keyed, (origin.userId link).trans owned,
    (origin.roleBeforeLink link).trans remembered⟩

theorem Remembers.effect (remembers : Remembers id key role s) (effect : Effect s act t)
    (stays : Stays id key s act t) : Remembers id key role t := by
  obtain ⟨there, link, mem, keyed, owned, remembered⟩ := remembers
  cases effect with
  | kept origin same users _ links _ =>
      exact ⟨users ▸ there, remembers_map origin (fun row _ keyed => (same row).trans keyed) links
        ⟨link, mem, keyed, owned, remembered⟩⟩
  | created joins links _ =>
      refine ⟨?_, link, links ▸ mem, keyed, owned, remembered⟩
      rw [joins.users, List.map_append]
      exact List.mem_append_left _ there
  | provisioned joins _ links =>
      refine ⟨?_, link, ?_, keyed, owned, remembered⟩
      · rw [joins.users, List.map_append]
        exact List.mem_append_left _ there
      · rw [links]
        exact List.mem_append_left _ mem
  | updated _ keeps users _ links _ =>
      refine ⟨?_, link, links ▸ mem, keyed, owned, remembered⟩
      rwa [users, map_updateAt fun row _ => (keeps row).1]
  | @admitted a now other _ _ origin same _ users _ links =>
      refine ⟨?_, remembers_map origin (fun row _ keyed => (same row).trans keyed) links
        ⟨link, mem, keyed, owned, remembered⟩⟩
      rwa [users, map_updateAt fun row _ => Tables.ruled_id other row]
  | attached _ _ users _ links =>
      refine ⟨users ▸ there, link, ?_, keyed, owned, remembered⟩
      rw [links]
      exact List.mem_append_left _ mem
  | @detached _ other gone _ _ _ _ users _ links =>
      refine ⟨?_, link, ?_, keyed, owned, remembered⟩
      · rwa [users, map_updateAt fun row _ => Tables.restored_id gone row]
      · have apart : key ≠ other := Ne.symm stays
        rw [links]
        exact List.mem_filter.mpr ⟨mem, by simpa [keyed] using apart⟩
  | @deleted username user _ found users _ links =>
      obtain ⟨held, named⟩ := mem_of_userNamed found
      refine ⟨?_, link, ?_, keyed, owned, remembered⟩
      · obtain ⟨row, here, own⟩ := List.mem_map.mp there
        have spared : row.username ≠ username := fun same => stays row here same own
        rw [users]
        exact List.mem_map.mpr ⟨row, List.mem_filter.mpr ⟨here, by simpa using spared⟩, own⟩
      · have apart : id ≠ user.id := Ne.symm (stays user held named)
        rw [links]
        exact List.mem_filter.mpr ⟨mem, by simpa [owned] using apart⟩
  | @migrated source target _ users _ _ links =>
      have apart : key.authority ≠ source := Ne.symm stays
      refine ⟨users ▸ there, remembers_map ?_ ?_ links ⟨link, mem, keyed, owned, remembered⟩⟩
      · exact ⟨fun _ => rfl, fun _ => rfl, fun _ => rfl⟩
      · rintro row _ rfl
        simp [Tables.movedKey, Tables.moved, apart]

theorem Remembers.detach (remembers : Remembers id key role s) (sound : Sound s) {done : Unit}
    (detached : s.detach id key = .ok (done, t)) :
    ∃ user, t.user id = some user ∧ user.role = role := by
  obtain ⟨there, link, mem, keyed, owned, remembered⟩ := remembers
  obtain ⟨found, held, same, _, rfl⟩ := Tables.detach_spec detached
  cases sound.link_eq mem held (keyed.trans same.symm)
  obtain ⟨row, here, own⟩ := List.mem_map.mp there
  have still : ((s.users.find? fun row => row.id == id)).isSome = true :=
    List.find?_isSome.mpr ⟨row, here, by simpa using own⟩
  obtain ⟨user, read⟩ := Option.isSome_iff_exists.mp still
  have numbered : user.id = id := by simpa using List.find?_some read
  refine ⟨Tables.restored link user, ?_, by simp [Tables.restored, remembered]⟩
  have after : (updateAt User.id id (Tables.restored link) s.users).find? (fun row => row.id == id) =
      (s.users.find? fun row => row.id == id).map fun row =>
        if row.id = id then Tables.restored link row else row := find?_updateAt fun _ _ => rfl
  rw [read, Option.map_some, if_pos numbered] at after
  exact after

end Remembers

/-! ### A link made and removed -/

section Runs

variable {repositories : List Repository} {pre mid : List Act} {l m : Ledger}

theorem Ledger.step_tables {act : Act} (taken : l.step act = some m) :
    l.tables.step act = some m.tables ∧ m.byHand = assigned l.tables act l.byHand := by
  obtain ⟨next, wrote, rfl⟩ := Option.map_eq_some_iff.mp taken
  exact ⟨wrote, rfl⟩

theorem Ledger.sound (run : Run Ledger.step Any (Ledger.empty repositories) pre l) :
    Sound l.tables :=
  run.invariant (fun l => Sound l.tables) (Sound.empty repositories) fun _ _ _ sound taken _ =>
    sound.step (step_tables taken).1

/-- An account no identity created has the role the ledger gives it, while no link of it is removed. -/
theorem Ledger.given {id : Nat} (run : Run Ledger.step Any (Ledger.empty repositories) pre l)
    (linked : ∀ act ∈ pre, ∀ key, act ≠ .detach id key) : Given id l := by
  have kept : Sound l.tables ∧ Given id l := by
    refine (run.of_forall linked).invariant (fun l => Sound l.tables ∧ Given id l)
      ⟨Sound.empty repositories, fun row mem => by cases mem⟩ ?_
    rintro l act m ⟨sound, given⟩ taken linked
    obtain ⟨wrote, same⟩ := step_tables taken
    refine ⟨sound.step wrote, ?_⟩
    rcases Tables.step_eq_some wrote with done | ⟨failed, unchanged⟩
    · have after := given.effect sound (Tables.effect_act done) linked
      rwa [← same] at after
    · rw [assigned_of_failed failed] at same
      rwa [Given, unchanged, same]
  exact kept.2

/-- A link gives back the role the account had when it was linked, whatever was assigned since, by hand
or by a login: on an account no identity created, and no link of which was removed before, the role
last given to it by hand before it was linked. -/
theorem unlinking_restores_the_role_at_linking {id : Nat} {key : IdentityKey} {email : Option Text}
    {now : Instant} {done done' : Unit} {linked t u : Tables}
    (reached : Run Ledger.step Any (Ledger.empty repositories) pre l)
    (attached : l.tables.attach id key email now = .ok (done, linked))
    (since : Run Tables.step (Stays id key) linked mid t)
    (detached : t.detach id key = .ok (done', u)) :
    ∃ before after, l.tables.user id = some before ∧ u.user id = some after ∧
      after.role = before.role ∧
      ((∀ link ∈ l.tables.links, link.userId = id → link.provisioned = false) →
        (∀ act ∈ pre, ∀ other, act ≠ .detach id other) → l.byHand id = some after.role) := by
  obtain ⟨user, found, _, same⟩ := Tables.attach_spec attached
  obtain ⟨here, numbered⟩ := Tables.mem_of_user found
  have sound := Ledger.sound reached
  have effect : Effect l.tables (.attach id key email now) linked :=
    Tables.effect_act (committed_eq_some.mpr ⟨done, attached⟩)
  have start : Remembers id key user.role linked := by
    rw [same]
    exact ⟨List.mem_map.mpr ⟨user, here, numbered⟩, _,
      List.mem_append_right _ (List.mem_singleton_self _), rfl, rfl, rfl⟩
  have ⟨sound', remembers⟩ : Sound t ∧ Remembers id key user.role t := by
    refine since.invariant (fun t => Sound t ∧ Remembers id key user.role t)
      ⟨sound.effect effect, start⟩ ?_
    rintro s act t ⟨sound, remembers⟩ taken stays
    refine ⟨sound.step taken, ?_⟩
    rcases Tables.step_eq_some taken with done | ⟨_, rfl⟩
    · exact remembers.effect (Tables.effect_act done) stays
    · exact remembers
  obtain ⟨after, read, restored⟩ := remembers.detach sound' detached
  refine ⟨user, after, found, read, restored, fun foreign unlinked => ?_⟩
  rcases Ledger.given reached unlinked user here numbered with ⟨link, mem, owned, made⟩ | given
  · rw [foreign link mem owned] at made
    cases made
  · rw [restored]
    exact given

end Runs

/-- Carol, created by hand. -/
def createCarol : Act := .createUser ⟨"carol".toList, none, none⟩ "hash".toList 0

def carolKey : IdentityKey := ⟨corp, "c".toList⟩

/-- An admin makes her a publisher. -/
def promoteCarol : Act :=
  .updateAccount "carol".toList ⟨none, none, some "publisher".toList⟩ true hour

/-- She logs in through her provider, whose rules would make her an admin. -/
def carolLogsIn : Act := .admit_ (admissionOf carolKey "admin".toList) (2 * hour)

def linkCarol : Act := .attach 1 carolKey none hour

def unlinkCarol : Act := .detach 1 carolKey

/-- The tables the operations leave, from none. -/
def tablesAfter (acts : List Act) : Tables :=
  (exec Tables.step (Tables.empty []) acts).getD (Tables.empty [])

theorem carol_is_a_reader_again :
    ∃ (l : Ledger) (linked t u : Tables) (before after : User),
      Run Ledger.step Any (Ledger.empty []) [createCarol] l ∧
      l.tables.attach 1 carolKey none hour = .ok ((), linked) ∧
      Run Tables.step (Stays 1 carolKey) linked [promoteCarol, carolLogsIn] t ∧
      t.detach 1 carolKey = .ok ((), u) ∧
      l.tables.user 1 = some before ∧ u.user 1 = some after ∧ after.role = before.role ∧
      l.byHand 1 = some after.role := by
  have reached : Run Ledger.step Any (Ledger.empty []) [createCarol]
      ⟨tablesAfter [createCarol], assigned (Tables.empty []) createCarol fun _ => none⟩ :=
    Run.nil.snoc rfl trivial
  have attached : (tablesAfter [createCarol]).attach 1 carolKey none hour =
      .ok ((), tablesAfter [createCarol, linkCarol]) := by decide
  have since : Run Tables.step (Stays 1 carolKey) (tablesAfter [createCarol, linkCarol])
      [promoteCarol, carolLogsIn]
      (tablesAfter [createCarol, linkCarol, promoteCarol, carolLogsIn]) :=
    (Run.nil.snoc rfl trivial).snoc rfl trivial
  have detached : (tablesAfter [createCarol, linkCarol, promoteCarol, carolLogsIn]).detach 1 carolKey =
      .ok ((), tablesAfter [createCarol, linkCarol, promoteCarol, carolLogsIn, unlinkCarol]) := by
    decide
  obtain ⟨before, after, found, read, restored, given⟩ :=
    unlinking_restores_the_role_at_linking reached attached since detached
  exact ⟨_, _, _, _, before, after, reached, attached, since, detached, found, read, restored,
    given (by decide) (by simp [createCarol])⟩

/-- An update of an account, or a login. -/
def Act.changesOrLogsIn : Act → Bool
  | .updateAccount _ _ _ _ | .admit_ _ _ => true
  | _ => false

/-- Carol is made a publisher by hand while she is linked, and is a reader once unlinked. -/
theorem unlinking_undoes_what_was_given_by_hand :
    ¬∀ (pre mid : List Act) (id : Nat) (key : IdentityKey) (email : Option Text) (now : Instant)
      (l : Ledger), (∀ act ∈ mid, act.changesOrLogsIn = true) →
      Run Ledger.step Any (Ledger.empty []) (pre ++ [.attach id key email now] ++ mid ++
        [.detach id key]) l →
      ∀ user, l.tables.user id = some user → l.byHand id = some user.role := by
  intro keeps
  obtain ⟨l, run, passed⟩ := Run.of_test Ledger.step Any (Ledger.empty [])
    ([createCarol] ++ [.attach 1 carolKey none hour] ++ [promoteCarol] ++ [.detach 1 carolKey])
    (fun l => l.byHand 1 == some "publisher".toList &&
      (l.tables.user 1).any (·.role == "reader".toList)) (by decide)
  simp only [Bool.and_eq_true, beq_iff_eq, Option.any_eq_true_iff_get] at passed
  obtain ⟨byHand, there, role⟩ := passed
  have same := keeps [createCarol] [promoteCarol] 1 carolKey none hour l (by decide) run _
    (Option.some_get there).symm
  rw [byHand, role] at same
  revert same
  decide

end OpenCargo.Identity
