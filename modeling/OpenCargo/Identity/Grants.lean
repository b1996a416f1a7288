/-
Module: OpenCargo.Identity.Grants
Purpose: What the rules of a provider make of a verified identity (`crates/domain/src/identity.rs`) and
  what a login writes of it (`app/sso.rs`): the role, and the rights on the private repositories the
  rules name. Where several rules name one repository the first that matches decides.
Trusted boundary: `toLowercase`, Rust's full Unicode lowercasing, is a parameter nothing is asked of
Main exports: Tables.recorded, LoginPolicy.matching, Strongest, recorded_right_is_the_strongest_iff
-/
import OpenCargo.Identity.Gate

namespace OpenCargo.Identity

open OpenCargo.Access (RepoAction Rights)
open OpenCargo.Lib

/-! ### The rules -/

inductive GrantRole where
  | reader
  | publisher
deriving Repr, DecidableEq, Inhabited

def GrantRole.rights : GrantRole → Rights
  | reader => ⟨true, false, false, false⟩
  | publisher => ⟨true, true, false, false⟩

structure GroupGrant where
  group : Text
  repository : Text
  role : GrantRole
deriving Repr, DecidableEq, Inhabited

inductive EmailTrust where
  | unverified
  | verified
deriving Repr, DecidableEq, Inhabited

inductive Groups where
  /-- The provider carries no group source. -/
  | notProvided
  | listed (groups : List Text)
  /-- The source exists but its value could not be read. -/
  | unreadable
deriving Repr, DecidableEq, Inhabited

structure ExternalIdentity where
  key : IdentityKey
  email : Option Text
  emailTrust : EmailTrust
  groups : Groups
  preferredName : Option Text
deriving Repr, DecidableEq, Inhabited

/-- What an operator's rules say about one verified identity. -/
structure LoginPolicy where
  /-- Any one of them admits; none admits everyone the other rules admit. -/
  requiredGroups : List Text
  allowedDomains : List Text
  defaultRole : Text
  grants : List GroupGrant
deriving Repr, DecidableEq, Inhabited

inductive DenyReason where
  | notInRequiredGroup
  | domainNotAllowed
deriving Repr, DecidableEq, Inhabited

inductive Decision where
  | access (role : Text) (grants : List (Text × GrantRole))
  | denied (reason : DenyReason)
deriving Repr, DecidableEq, Inhabited

/-- `Rejected`: the claims could not be read. -/
inductive Rejected where
  | groupsUnreadable
deriving Repr, DecidableEq, Inhabited

/-- What follows the last `@`, if anything does. -/
def emailDomain (email : Text) : Option Text :=
  if email.contains '@' then
    some ((email.reverse.takeWhile (· != '@')).reverse) |>.filter (!·.isEmpty)
  else none

def eqIgnoreAsciiCase (a b : Text) : Bool := a.map Char.toLower == b.map Char.toLower

namespace LoginPolicy

def groupsOf (identity : ExternalIdentity) : Except Rejected (List Text) :=
  match identity.groups with
  | .notProvided => .ok []
  | .listed groups => .ok groups
  | .unreadable => .error .groupsUnreadable

/-- A verified address in an allowed domain. -/
def domainAllowed (policy : LoginPolicy) (identity : ExternalIdentity) : Bool :=
  identity.emailTrust == .verified &&
    ((identity.email.bind emailDomain).any fun domain =>
      policy.allowedDomains.any (eqIgnoreAsciiCase · domain))

def decide (policy : LoginPolicy) (identity : ExternalIdentity) : Except Rejected Decision := do
  let groups ← groupsOf identity
  if !policy.allowedDomains.isEmpty && !policy.domainAllowed identity then
    return .denied .domainNotAllowed
  else if !policy.requiredGroups.isEmpty && !policy.requiredGroups.any groups.contains then
    return .denied .notInRequiredGroup
  else
    return .access policy.defaultRole
      ((policy.grants.filter fun grant => groups.contains grant.group).map fun grant =>
        (grant.repository, grant.role))

end LoginPolicy

/-! ### A login -/

/-- `SsoRefusal`, as far as a login answers it. -/
inductive SsoRefusal where
  | nameCollision
  | rejected
  | denied
  | disabled
deriving Repr, DecidableEq, Inhabited

inductive SsoError where
  | refused (refusal : SsoRefusal)
  | store (error : StoreError)
deriving Repr, DecidableEq, Inhabited

/-- `NO_PASSWORD`: no password verifies against this. -/
def noPassword : Text := "!sso".toList

def nameChar (c : Char) : Char :=
  if c.isAlphanum || c == '.' || c == '_' || c == '-' then c else '-'

def edgeChar (c : Char) : Bool := c == '.' || c == '-' || c == '_'

/-- The account name a new identity is provisioned under. -/
def provisionedName (toLowercase : Text → Text) (identity : ExternalIdentity) : Option Text := do
  let source ← identity.preferredName.or (identity.email.map fun email => email.takeWhile (· != '@'))
  let spelled := (toLowercase source).map nameChar
  let name := ((spelled.dropWhile edgeChar).reverse.dropWhile edgeChar).reverse
  if !name.isEmpty && name.length ≤ 64 then some name else none

namespace Tables

/-- `RepositoryStore::by_name`. -/
def repository (tables : Tables) (name : Text) : Option Repository :=
  tables.repositories.find? fun row => row.name == name

/-- One turn of the loop of `grants_for`: what is given and what is managed so far. -/
def grantTurn (tables : Tables) (grants : List (Text × GrantRole))
    (sofar : List (Int × Rights) × List Int) (rule : GroupGrant) : List (Int × Rights) × List Int :=
  match tables.repository rule.repository with
  | none => sofar
  | some repo =>
      if repo.visibility ≠ .private_ then sofar
      else
        let managed := if sofar.2.contains repo.id then sofar.2 else sofar.2 ++ [repo.id]
        match grants.find? fun grant => grant.1 == repo.name with
        | none => (sofar.1, managed)
        | some (_, role) =>
            let rights := role.rights
            match sofar.1.find? fun given => given.1 == repo.id with
            | some _ =>
                if rights.write then
                  (updateAt Prod.fst repo.id (fun given => (given.1, rights)) sofar.1, managed)
                else (sofar.1, managed)
            | none => (sofar.1 ++ [(repo.id, rights)], managed)

def grantsFor (tables : Tables) (policy : LoginPolicy) (grants : List (Text × GrantRole)) :
    List (Int × Rights) × List Int :=
  policy.grants.foldl (tables.grantTurn grants) ([], [])

/-- An account an admin disabled stays out, whatever the login wrote. -/
def landed (tables : Tables) (user : User) : Except SsoError User × Tables :=
  if (tables.loginState user.id).disabled then (.error (.refused .disabled), tables)
  else (.ok user, tables)

/-- `login`: what it answers, and the tables it leaves. -/
def login (tables : Tables) (toLowercase : Text → Text) (policy : LoginPolicy)
    (identity : ExternalIdentity) (now : Instant) : Except SsoError User × Tables :=
  let link := tables.link identity.key
  match policy.decide identity with
  | .error _ => (.error (.refused .rejected), tables)
  | .ok decision =>
      if link.any (·.disabled) then (.error (.refused .disabled), tables)
      else
        match decision with
        | .denied _ =>
            if link.isSome then
              match tables.deprovision identity.key now with
              | .ok (_, next) => (.error (.refused .denied), next)
              | .error e => (.error (.store e), tables)
            else (.error (.refused .denied), tables)
        | .access role grants =>
            let (given, managed) := tables.grantsFor policy grants
            let admission : Admission := ⟨identity.key, identity.email, role, given, managed⟩
            if link.isSome then
              match tables.admit_ admission now with
              | .ok (user, next) => next.landed user
              | .error e => (.error (.store e), tables)
            else
              match provisionedName toLowercase identity with
              | none => (.error (.refused .nameCollision), tables)
              | some name =>
                  match tables.provision ⟨name, identity.email, noPassword, role⟩ admission now with
                  | .ok (user, next) => next.landed user
                  | .error .conflict => (.error (.refused .nameCollision), tables)
                  | .error e => (.error (.store e), tables)

/-- The right recorded for the account on the repository. -/
def recorded (tables : Tables) (user : Nat) (repo : Int) : Option Rights :=
  (tables.permissions.find? fun row => row.slot == (user, repo)).map Permission.rights

end Tables

/-! ### What is recorded -/

section Recorded

variable {tables t : Tables} {id : Nat} {a : Admission} {now : Instant} {user : Nat} {repo : Int}

/-- One turn records what is granted on its repository, or takes away what was recorded. -/
theorem recorded_applyGrant {managed : Int}
    (done : Tables.applyGrant id a now tables managed = .ok t) :
    t.recorded user repo =
      if user = id ∧ repo = managed then (a.grants.find? fun grant => grant.1 == repo).map Prod.snd
      else tables.recorded user repo := by
  rw [Tables.applyGrant] at done
  split at done
  · rename_i rights granted
    split at done
    · cases done
      let new : Permission := ⟨id, managed, rights, bindTs now⟩
      have keeps (row : Permission) (_ : row.slot = new.slot) :
          { row with rights := rights }.slot = row.slot := rfl
      by_cases own : user = id ∧ repo = managed
      · obtain ⟨rfl, rfl⟩ := own
        rw [if_pos ⟨rfl, rfl⟩, granted]
        have here : (upsert Permission.slot (fun row => { row with rights := rights }) new
            tables.permissions).find? (fun row => row.slot == new.slot) = _ := find?_upsert_self keeps
        refine (congrArg (Option.map Permission.rights) here).trans ?_
        cases tables.permissions.find? fun row => row.slot == new.slot with
        | none => rfl
        | some row => rfl
      · rw [if_neg own]
        have other : (user, repo) ≠ new.slot := fun same => own (Prod.ext_iff.mp same)
        exact congrArg (Option.map Permission.rights) (find?_upsert_of_ne keeps other)
    · cases done
  · rename_i nothing
    cases done
    by_cases own : user = id ∧ repo = managed
    · obtain ⟨rfl, rfl⟩ := own
      rw [if_pos ⟨rfl, rfl⟩, nothing, Tables.recorded, Option.map_eq_none_iff, List.find?_eq_none]
      intro row mem
      simpa using (List.mem_filter.mp mem).2
    · rw [if_neg own, Tables.recorded, Tables.recorded, List.find?_filter]
      congr 2
      funext row
      by_cases same : row.slot = (user, repo)
      · have other : (user, repo) ≠ (id, managed) := fun same => own (Prod.ext_iff.mp same)
        simp [same, other]
      · simp [same]

theorem recorded_foldlM {managed : List Int} {s : Tables} (user : Nat) (repo : Int)
    (done : managed.foldlM (Tables.applyGrant id a now) s = .ok t) :
    t.recorded user repo =
      if user = id ∧ repo ∈ managed then (a.grants.find? fun grant => grant.1 == repo).map Prod.snd
      else s.recorded user repo := by
  induction managed generalizing s with
  | nil =>
      cases done
      simp
  | cons first rest ih =>
      obtain ⟨next, turn, loop⟩ := foldlM_cons_eq_ok.mp done
      rw [ih loop, recorded_applyGrant turn]
      by_cases own : user = id
      · by_cases later : repo ∈ rest
        · simp [own, later]
        · simp [own, later]
      · simp [own]

end Recorded

/-! ### What a rule gives -/

section Given

variable {tables : Tables} {policy : LoginPolicy} {grants : List (Text × GrantRole)}
  {repo : Repository}

/-- The rules manage the repository: it is private, and one of them names it. -/
def Manages (tables : Tables) (rules : List GroupGrant) (repo : Repository) : Prop :=
  repo.visibility = .private_ ∧ ∃ rule ∈ rules, tables.repository rule.repository = some repo

theorem mem_of_repository {name : Text} (found : tables.repository name = some repo) :
    repo ∈ tables.repositories ∧ repo.name = name :=
  ⟨List.mem_of_find?_eq_some found, by simpa using List.find?_some found⟩

/-- What the rights given so far say of a repository. -/
def givenOn (given : List (Int × Rights)) (repo : Int) : Option Rights :=
  (given.find? fun one => one.1 == repo).map Prod.snd

theorem givenOn_append {given : List (Int × Rights)} {rights : Rights} {id other : Int}
    (absent : givenOn given id = none) :
    givenOn (given ++ [(id, rights)]) other = if other = id then some rights else givenOn given other := by
  simp only [givenOn, List.find?_append] at absent ⊢
  split
  · rename_i own
    subst own
    rw [Option.map_eq_none_iff.mp absent]
    simp
  · rename_i apart
    simp [Ne.symm apart]

theorem givenOn_updateAt {given : List (Int × Rights)} {rights : Rights} {id other : Int} :
    givenOn (updateAt Prod.fst id (fun one => (one.1, rights)) given) other =
      if other = id then (givenOn given other).map fun _ => rights else givenOn given other := by
  have read : (updateAt Prod.fst id (fun one => (one.1, rights)) given).find?
      (fun one => one.1 == other) = _ := find?_updateAt fun _ _ => rfl
  rw [givenOn, read, givenOn]
  cases found : given.find? fun one => one.1 == other with
  | none => simp
  | some one =>
      have named : one.1 = other := by simpa using List.find?_some found
      by_cases own : other = id
      · simp [named, own]
      · simp [named, own]

/-- What the grants of an identity say of a repository: the first that names it decides. -/
def firstOn (grants : List (Text × GrantRole)) (repo : Repository) : Option Rights :=
  (grants.find? fun grant => grant.1 == repo.name).map fun grant => grant.2.rights

/-- A turn manages the private repository its rule names, and gives what the grants say of it. -/
theorem grantTurn_spec {sofar : List (Int × Rights) × List Int} {rule : GroupGrant}
    (found : tables.repository rule.repository = some repo) (hidden : repo.visibility = .private_)
    (id : Int) :
    (id ∈ (tables.grantTurn grants sofar rule).2 ↔ id ∈ sofar.2 ∨ id = repo.id) ∧
    givenOn (tables.grantTurn grants sofar rule).1 id =
      if id = repo.id then
        match firstOn grants repo, givenOn sofar.1 id with
        | none, old => old
        | some rights, none => some rights
        | some rights, some old => some (if rights.write then rights else old)
      else givenOn sofar.1 id := by
  have listed : id ∈ (if sofar.2.contains repo.id then sofar.2 else sofar.2 ++ [repo.id]) ↔
      id ∈ sofar.2 ∨ id = repo.id := by
    split
    · rename_i held
      have : repo.id ∈ sofar.2 := by simpa using held
      constructor
      · exact .inl
      · rintro (old | rfl)
        · exact old
        · exact this
    · simp
  simp only [Tables.grantTurn, found, hidden, ne_eq, not_true_eq_false, if_false]
  cases first : grants.find? fun grant => grant.1 == repo.name with
  | none =>
      refine ⟨listed, ?_⟩
      simp [firstOn, first]
  | some grant =>
      cases given : sofar.1.find? fun one => one.1 == repo.id with
      | none =>
          have absent : givenOn sofar.1 repo.id = none := by simp [givenOn, given]
          refine ⟨listed, ?_⟩
          simp only [firstOn, first, Option.map_some]
          rw [givenOn_append absent]
          split
          · rename_i own
            simp [own, absent]
          · rfl
      | some old =>
          have held : givenOn sofar.1 repo.id = some old.2 := by simp [givenOn, given]
          simp only [firstOn, first, Option.map_some]
          by_cases stronger : grant.2.rights.write = true
          · rw [if_pos stronger]
            refine ⟨listed, ?_⟩
            rw [givenOn_updateAt]
            by_cases own : id = repo.id
            · simp [own, held, stronger]
            · simp [own]
          · rw [if_neg stronger]
            refine ⟨listed, ?_⟩
            by_cases own : id = repo.id
            · simp [own, held, stronger]
            · simp [own]

theorem grantTurn_of_skipped {sofar : List (Int × Rights) × List Int} {rule : GroupGrant}
    (skipped : ∀ repo, tables.repository rule.repository = some repo → repo.visibility ≠ .private_) :
    tables.grantTurn grants sofar rule = sofar := by
  rw [Tables.grantTurn]
  split
  · rfl
  · rename_i repo found
    exact if_pos (skipped repo found)

/-- The loop so far: a repository is managed when a rule named it, and what is given on it is what the
first grant that names it says. -/
structure GivesFirst (tables : Tables) (grants : List (Text × GrantRole)) (repo : Repository)
    (rules : List GroupGrant) (sofar : List (Int × Rights) × List Int) : Prop where
  managed : repo.id ∈ sofar.2 ↔ Manages tables rules repo
  given : givenOn sofar.1 repo.id = if repo.id ∈ sofar.2 then firstOn grants repo else none

theorem manages_append {rules : List GroupGrant} {rule : GroupGrant} :
    Manages tables (rules ++ [rule]) repo ↔ Manages tables rules repo ∨
      repo.visibility = .private_ ∧ tables.repository rule.repository = some repo := by
  simp only [Manages, List.mem_append, List.mem_singleton]
  constructor
  · rintro ⟨hidden, one, before | rfl, named⟩
    · exact .inl ⟨hidden, one, before, named⟩
    · exact .inr ⟨hidden, named⟩
  · rintro (⟨hidden, one, before, named⟩ | ⟨hidden, named⟩)
    · exact ⟨hidden, one, .inl before, named⟩
    · exact ⟨hidden, rule, .inr rfl, named⟩

theorem GivesFirst.turn {rules : List GroupGrant} {rule : GroupGrant}
    {sofar : List (Int × Rights) × List Int} (gives : GivesFirst tables grants repo rules sofar)
    (ids : (tables.repositories.map Repository.id).Nodup) (mem : repo ∈ tables.repositories) :
    GivesFirst tables grants repo (rules ++ [rule]) (tables.grantTurn grants sofar rule) := by
  by_cases named : ∃ found, tables.repository rule.repository = some found ∧
      found.visibility = .private_
  · obtain ⟨found, read, hidden⟩ := named
    have ⟨listed, given⟩ : (repo.id ∈ (tables.grantTurn grants sofar rule).2 ↔ _) ∧
        givenOn (tables.grantTurn grants sofar rule).1 repo.id = _ :=
      grantTurn_spec read hidden repo.id
    by_cases own : found = repo
    · subst own
      have managed : found.id ∈ (tables.grantTurn grants sofar rule).2 := listed.mpr (.inr rfl)
      refine ⟨iff_of_true managed (manages_append.mpr (.inr ⟨hidden, read⟩)), ?_⟩
      rw [if_pos managed, given, if_pos rfl, gives.given]
      -- the same grant is found at every turn: nothing to raise
      cases firstOn grants found with
      | none => simp
      | some rights => split <;> simp_all
    · have apart : repo.id ≠ found.id := fun same =>
        own (List.inj_on_of_nodup_map ids (mem_of_repository read).1 mem same.symm)
      have same : repo.id ∈ (tables.grantTurn grants sofar rule).2 ↔ repo.id ∈ sofar.2 := by
        rw [listed]
        exact or_iff_left apart
      refine ⟨?_, ?_⟩
      · rw [same, gives.managed, manages_append]
        refine (or_iff_left ?_).symm
        rintro ⟨_, other⟩
        exact own (Option.some.inj (read.symm.trans other))
      · rw [given, if_neg apart, gives.given, if_congr same rfl rfl]
  · rw [grantTurn_of_skipped fun found read hidden => named ⟨found, read, hidden⟩]
    refine ⟨?_, gives.given⟩
    rw [gives.managed, manages_append]
    refine (or_iff_left ?_).symm
    rintro ⟨hidden, read⟩
    exact named ⟨repo, read, hidden⟩

theorem GivesFirst.grantsFor (ids : (tables.repositories.map Repository.id).Nodup)
    (mem : repo ∈ tables.repositories) :
    GivesFirst tables grants repo policy.grants (tables.grantsFor policy grants) := by
  have loop : ∀ (rest rules : List GroupGrant) (sofar : List (Int × Rights) × List Int),
      GivesFirst tables grants repo rules sofar →
        GivesFirst tables grants repo (rules ++ rest) (rest.foldl (tables.grantTurn grants) sofar) := by
    intro rest
    induction rest with
    | nil => simp
    | cons rule rest ih =>
        intro rules sofar gives
        have next := ih (rules ++ [rule]) _ (gives.turn ids mem)
        simpa using next
  have start : GivesFirst tables grants repo [] ([], []) := ⟨by simp [Manages], by simp [givenOn]⟩
  exact loop policy.grants [] ([], []) start

end Given

/-! ### The strongest of the grants that match -/

/-- The provider lists the group for the identity. -/
def ExternalIdentity.belongs (identity : ExternalIdentity) (group : Text) : Bool :=
  match identity.groups with
  | .listed groups => groups.contains group
  | .notProvided | .unreadable => false

/-- The grants whose group the identity belongs to and which name the repository. -/
def LoginPolicy.matching (policy : LoginPolicy) (identity : ExternalIdentity) (name : Text) :
    List GroupGrant :=
  policy.grants.filter fun grant => identity.belongs grant.group && grant.repository == name

/-- The grant allows whatever any of the others does. -/
def GroupGrant.Tops (grant : GroupGrant) (grants : List GroupGrant) : Prop :=
  ∀ other ∈ grants, ∀ action, other.role.rights.allows action = true →
    grant.role.rights.allows action = true

/-- The right is the strongest of the grants': none where there is no grant. -/
def Strongest (grants : List GroupGrant) : Option Rights → Prop
  | none => grants = []
  | some rights => ∃ grant ∈ grants, grant.role.rights = rights ∧ grant.Tops grants

/-- The first of the grants, in the order of the rules, allows whatever any of the others does. -/
def FirstTops (grants : List GroupGrant) : Prop := ∀ first ∈ grants.head?, first.Tops grants

theorem GroupGrant.tops_of_publisher {grant : GroupGrant} (publisher : grant.role = .publisher)
    (grants : List GroupGrant) : grant.Tops grants := by
  intro other _ action allowed
  rw [publisher]
  cases action with
  | read | write => rfl
  | delete | admin => cases role : other.role <;> simp [role, GrantRole.rights, Rights.allows] at allowed

theorem strongest_head_iff (grants : List GroupGrant) :
    Strongest grants (grants.head?.map fun grant => grant.role.rights) ↔ FirstTops grants := by
  cases grants with
  | nil => simp [Strongest, FirstTops]
  | cons first rest =>
      simp only [List.head?_cons, Option.map_some, Strongest, FirstTops, Option.mem_some_iff,
        forall_eq']
      constructor
      · rintro ⟨grant, _, same, tops⟩ other mem action allowed
        rw [← same]
        exact tops other mem action allowed
      · intro tops
        exact ⟨first, List.mem_cons_self, rfl, tops⟩

section Login

variable {tables t : Tables} {toLowercase : Text → Text} {policy : LoginPolicy}
  {identity : ExternalIdentity} {now : Instant} {user : User}

theorem decide_access {role : Text} {grants : List (Text × GrantRole)}
    (decided : policy.decide identity = .ok (.access role grants)) :
    grants = (policy.grants.filter fun grant => identity.belongs grant.group).map fun grant =>
      (grant.repository, grant.role) := by
  obtain ⟨groups, listed, rest⟩ := bind_eq_ok.mp decided
  have belongs (group : Text) : groups.contains group = identity.belongs group := by
    rw [LoginPolicy.groupsOf] at listed
    rw [ExternalIdentity.belongs]
    split at listed <;> cases listed <;> simp_all
  split at rest
  · cases rest
  · split at rest
    · cases rest
    · cases rest
      simp only [belongs]

theorem firstOn_decided (repo : Repository) :
    firstOn ((policy.grants.filter fun grant => identity.belongs grant.group).map fun grant =>
      (grant.repository, grant.role)) repo =
      (policy.matching identity repo.name).head?.map fun grant => grant.role.rights := by
  rw [firstOn, LoginPolicy.matching, List.find?_map, List.find?_filter, List.head?_filter,
    Option.map_map]
  congr 2
  funext grant
  rw [Bool.eq_iff_iff]
  simp

theorem provision_applies {new : NewUser} {a : Admission}
    (done : tables.provision new a now = .ok (user, t)) :
    ∃ s : Tables, s.permissions = tables.permissions ∧ s.applyGrants user.id a now = .ok t := by
  obtain ⟨⟨created, next⟩, inserted, rest⟩ := bind_eq_ok.mp done
  obtain ⟨_, _, rfl⟩ := Tables.insertUser_spec inserted
  simp only at rest
  split at rest
  · cases rest
  · obtain ⟨granted, applied, same⟩ := bind_eq_ok.mp rest
    cases same
    refine ⟨_, ?_, applied⟩
    rfl

theorem admit_applies {a : Admission} (done : tables.admit_ a now = .ok (user, t)) :
    ∃ s : Tables, s.permissions = tables.permissions ∧ s.applyGrants user.id a now = .ok t := by
  rw [Tables.admit_] at done
  split at done
  · cases done
  · split at done
    · cases done
    · rename_i link _ _
      obtain ⟨next, follows, rest⟩ := bind_eq_ok.mp done
      obtain ⟨granted, applied, read⟩ := bind_eq_ok.mp rest
      cases Tables.followRules_spec follows
      split at read
      · rename_i row held
        cases read
        have own : user.id = link.userId := (Tables.mem_of_user held).2
        rw [own]
        refine ⟨_, ?_, applied⟩
        rfl
      · cases read

theorem landed_eq_ok {s : Tables} {found : User} (landed : s.landed found = (.ok user, t)) :
    user = found ∧ t = s := by
  rw [Tables.landed] at landed
  split at landed
  · cases landed
  · cases landed
    exact ⟨rfl, rfl⟩

/-- A login that lands has applied the grants of its admission to the account it answers with. -/
theorem login_spec (landed : tables.login toLowercase policy identity now = (.ok user, t)) :
    ∃ (role : Text) (grants : List (Text × GrantRole)) (s : Tables),
      policy.decide identity = .ok (.access role grants) ∧ s.permissions = tables.permissions ∧
      s.applyGrants user.id ⟨identity.key, identity.email, role, (tables.grantsFor policy grants).1,
        (tables.grantsFor policy grants).2⟩ now = .ok t := by
  simp only [Tables.login] at landed
  split at landed
  · cases landed
  · rename_i decision decided
    split at landed
    · cases landed
    · split at landed
      · split at landed
        · split at landed <;> cases landed
        · cases landed
      · rename_i _ role grants
        refine ⟨role, grants, ?_⟩
        split at landed
        · split at landed
          · rename_i found next admitted
            obtain ⟨rfl, rfl⟩ := landed_eq_ok landed
            obtain ⟨s, same, applied⟩ := admit_applies admitted
            exact ⟨s, decided, same, applied⟩
          · cases landed
        · split at landed
          · cases landed
          · split at landed
            · rename_i found next provisioned
              obtain ⟨rfl, rfl⟩ := landed_eq_ok landed
              obtain ⟨s, same, applied⟩ := provision_applies provisioned
              exact ⟨s, decided, same, applied⟩
            · cases landed
            · cases landed

/-- After a login the right recorded on a repository the rules manage is the strongest of the grants
that match exactly when the first that matches, in the order of the rules, is; on any other repository
it is what it was. -/
theorem recorded_right_is_the_strongest_iff
    (ids : (tables.repositories.map Repository.id).Nodup)
    (landed : tables.login toLowercase policy identity now = (.ok user, t)) {repo : Repository}
    (mem : repo ∈ tables.repositories) :
    (Manages tables policy.grants repo →
      (Strongest (policy.matching identity repo.name) (t.recorded user.id repo.id) ↔
        FirstTops (policy.matching identity repo.name))) ∧
    (¬Manages tables policy.grants repo →
      t.recorded user.id repo.id = tables.recorded user.id repo.id) := by
  obtain ⟨role, grants, s, decided, same, applied⟩ := login_spec landed
  have gives : GivesFirst tables grants repo policy.grants (tables.grantsFor policy grants) :=
    GivesFirst.grantsFor ids mem
  have read := recorded_foldlM user.id repo.id applied
  constructor
  · intro managed
    have listed := gives.managed.mpr managed
    rw [if_pos ⟨rfl, listed⟩] at read
    have decides : firstOn grants repo =
        (policy.matching identity repo.name).head?.map fun grant => grant.role.rights := by
      rw [decide_access decided]
      exact firstOn_decided repo
    have first : t.recorded user.id repo.id =
        (policy.matching identity repo.name).head?.map fun grant => grant.role.rights :=
      read.trans ((gives.given.trans (if_pos listed)).trans decides)
    rw [first]
    exact strongest_head_iff _
  · intro left
    have absent : repo.id ∉ (tables.grantsFor policy grants).2 := fun listed =>
      left (gives.managed.mp listed)
    rw [if_neg fun own => absent own.2] at read
    rw [read, Tables.recorded, same]
    rfl

end Login

/-! ### Two groups on one repository -/

def teamRepo : Repository :=
  ⟨7, "team".toList, "hosted".toList, "npm".toList, .private_, none⟩

def devsRead : GroupGrant := ⟨"devs".toList, "team".toList, .reader⟩

def opsPublish : GroupGrant := ⟨"ops".toList, "team".toList, .publisher⟩

def rulesOf (grants : List GroupGrant) : LoginPolicy := ⟨[], [], "reader".toList, grants⟩

/-- Bob is in both groups. -/
def bob : ExternalIdentity :=
  ⟨⟨corp, "b".toList⟩, none, .unverified, .listed ["devs".toList, "ops".toList], some "bob".toList⟩

theorem bob_publishes_where_the_stronger_rule_stands_first :
    ∃ (user : User) (t : Tables),
      (Tables.empty [teamRepo]).login id (rulesOf [opsPublish, devsRead]) bob 0 = (.ok user, t) ∧
      Manages (Tables.empty [teamRepo]) [opsPublish, devsRead] teamRepo ∧
      Strongest ((rulesOf [opsPublish, devsRead]).matching bob "team".toList)
        (t.recorded user.id 7) := by
  have landed : (Tables.empty [teamRepo]).login id (rulesOf [opsPublish, devsRead]) bob 0 =
      (.ok _, _) := rfl
  have manages : Manages (Tables.empty [teamRepo]) [opsPublish, devsRead] teamRepo :=
    ⟨rfl, opsPublish, by simp, by decide⟩
  have tops : FirstTops ((rulesOf [opsPublish, devsRead]).matching bob "team".toList) := by
    have first : ((rulesOf [opsPublish, devsRead]).matching bob "team".toList).head? =
        some opsPublish := by decide
    intro grant isFirst
    cases first.symm.trans isFirst
    exact GroupGrant.tops_of_publisher rfl _
  have iff := recorded_right_is_the_strongest_iff (by decide) landed (List.mem_singleton_self _)
  exact ⟨_, _, landed, manages, (iff.1 manages).mpr tops⟩

/-- The weaker rule stands first: Bob may read only, though one of his groups may publish. -/
theorem weaker_rule_that_stands_first_is_recorded :
    ¬∀ (toLowercase : Text → Text) (tables t : Tables) (policy : LoginPolicy)
      (identity : ExternalIdentity) (now : Instant) (user : User) (repo : Repository),
      (tables.repositories.map Repository.id).Nodup →
      tables.login toLowercase policy identity now = (.ok user, t) → repo ∈ tables.repositories →
      Manages tables policy.grants repo →
      Strongest (policy.matching identity repo.name) (t.recorded user.id repo.id) := by
  intro strongest
  have landed : (Tables.empty [teamRepo]).login id (rulesOf [devsRead, opsPublish]) bob 0 =
      (.ok _, _) := rfl
  have found : Strongest ((rulesOf [devsRead, opsPublish]).matching bob "team".toList)
      (some GrantRole.reader.rights) :=
    strongest id _ _ _ bob 0 _ teamRepo (by decide) landed (List.mem_singleton_self _)
      ⟨rfl, devsRead, by simp [rulesOf], by decide⟩
  obtain ⟨grant, _, same, tops⟩ := found
  have publishes := tops opsPublish (by decide) .write rfl
  rw [same] at publishes
  cases publishes

end OpenCargo.Identity
