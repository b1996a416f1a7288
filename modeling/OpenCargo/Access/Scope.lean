/-
Module: OpenCargo.Access.Scope
Purpose: What a credential narrows its bearer to (`crates/domain/src/scope.rs`): the rights a caller
  holds (`crates/domain/src/permission.rs`), the lines of a scope, the scope as it is frozen at issue,
  and the effective right.
Trusted boundary: `toLowercase`, Rust's full Unicode lowercasing, is a parameter nothing is asked of
Main exports: narrow_le, narrow_mono, narrow_perm, narrow_resolved_eq_none
-/
import OpenCargo.Repository
import OpenCargo.Routing.Formats

namespace OpenCargo.Access

open OpenCargo.Lib

/-! ### Rights -/

/-- The four things a caller may do to a repository. -/
inductive RepoAction where
  | read
  | write
  | delete
  | admin
deriving Repr, DecidableEq, Inhabited

/-- What a caller may do, as a set. -/
@[ext]
structure Rights where
  read : Bool
  write : Bool
  delete : Bool
  admin : Bool
deriving Repr, DecidableEq, Inhabited

namespace Rights

def none : Rights where
  read := false
  write := false
  delete := false
  admin := false

def full : Rights where
  read := true
  write := true
  delete := true
  admin := true

def allows (rights : Rights) : RepoAction → Bool
  | .read => rights.read
  | .write => rights.write
  | .delete => rights.delete
  | .admin => rights.admin

@[simp] theorem none_allows (action : RepoAction) : none.allows action = false := by
  cases action <;> rfl

@[simp] theorem full_allows (action : RepoAction) : full.allows action = true := by
  cases action <;> rfl

theorem ext_allows {a b : Rights} (same : ∀ action, a.allows action = b.allows action) : a = b :=
  Rights.ext (same .read) (same .write) (same .delete) (same .admin)

/-- `allowed |= rights`. -/
def union (a b : Rights) : Rights where
  read := a.read || b.read
  write := a.write || b.write
  delete := a.delete || b.delete
  admin := a.admin || b.admin

def inter (a b : Rights) : Rights where
  read := a.read && b.read
  write := a.write && b.write
  delete := a.delete && b.delete
  admin := a.admin && b.admin

@[simp] theorem union_allows (a b : Rights) (action : RepoAction) :
    (a.union b).allows action = (a.allows action || b.allows action) := by
  cases action <;> rfl

@[simp] theorem inter_allows (a b : Rights) (action : RepoAction) :
    (a.inter b).allows action = (a.allows action && b.allows action) := by
  cases action <;> rfl

end Rights

/-- Which rung of the ladder answered. -/
inductive RightsSource where
  | admin
  | grant
  | role
  | scope
deriving Repr, DecidableEq, Inhabited

def canAdmin (role : Text) : Bool := role == "admin".toList

/-- What a role carries without a grant. -/
def roleDefault (role : Text) : Rights :=
  if role == "publisher".toList then
    { read := true, write := true, delete := true, admin := false }
  else if role == "reader".toList then
    { read := true, write := false, delete := false, admin := false }
  else Rights.none

/-- The ladder, with the rung it stopped on. -/
def effectiveRights (role : Text) (grant : Option Rights) : Rights × RightsSource :=
  if canAdmin role then (Rights.full, .admin)
  else
    match grant with
    | some rights => (rights, .grant)
    | none => (roleDefault role, .role)

/-! ### Patterns of a scope -/

inductive AdminDomain where
  | repos
  | users
  | permissions
  | tokens
  | webhooks
  | policy
  | audit
  | storage
  | sso
deriving Repr, DecidableEq, Inhabited

def AdminDomain.asStr : AdminDomain → Text
  | repos => "repos".toList
  | users => "users".toList
  | permissions => "permissions".toList
  | tokens => "tokens".toList
  | webhooks => "webhooks".toList
  | policy => "policy".toList
  | audit => "audit".toList
  | storage => "storage".toList
  | sso => "sso".toList

/-- The domains a scoped credential may only read. -/
def AdminDomain.readOnlyUnderScope : AdminDomain → Bool
  | users | tokens | permissions | sso | webhooks => true
  | _ => false

inductive ScopeError where
  | emptyPattern
  | patternTooLong
  | tooManyStars
  | controlCharacter
  | tooManyGrants
  | noAction
  | actionNotOnSelector (action : Text)
  | writeForbidden (domain : Text)
  | incarnationsNotOnSelector
  | packagePattern (why : Text)
deriving Repr, DecidableEq, Inhabited

def maxGrants : Nat := 32

def maxPatternChars : Nat := 200

def maxWildcards : Nat := 4

/-- `char::is_control`: the category `Cc`. -/
def isControl (c : Char) : Bool := c.toNat < 32 || (127 ≤ c.toNat && c.toNat < 160)

/-- A name pattern: `*` covers any substring. -/
structure NamePattern where
  raw : Text
deriving Repr, DecidableEq, Inhabited

def NamePattern.parse (raw : Text) : Except ScopeError NamePattern :=
  if raw.isEmpty then .error .emptyPattern
  else if raw.length > maxPatternChars then .error .patternTooLong
  else if raw.any isControl then .error .controlCharacter
  else if raw.count '*' > maxWildcards then .error .tooManyStars
  else .ok ⟨raw⟩

/-- Linear, with one fallback mark. -/
def NamePattern.matches (pattern : NamePattern) (subject : Text) : Bool :=
  marked '*' pattern.raw subject

/-- Repository names are compared lowercase on both sides. -/
def NamePattern.matchesRepo (pattern : NamePattern) (name : Text) : Bool :=
  NamePattern.matches ⟨Routing.asciiFold pattern.raw⟩ (Routing.asciiFold name)

/-- An account name, folded the way the login limiter keys one. -/
def NamePattern.matchesAccount (toLowercase : Text → Text) (pattern : NamePattern) (name : Text) :
    Bool :=
  NamePattern.matches ⟨toLowercase pattern.raw⟩ (toLowercase name)

/-! ### The lines of a scope -/

inductive ScopeAction where
  | read
  | write
  | delete
  | admin
deriving Repr, DecidableEq, Inhabited

def ScopeAction.asStr : ScopeAction → Text
  | read => "read".toList
  | write => "write".toList
  | delete => "delete".toList
  | admin => "admin".toList

inductive Selector where
  | repo (repo : NamePattern)
  | package (repo package : NamePattern)
  | admin (domain : AdminDomain)
  | account (account : NamePattern)
deriving Repr, DecidableEq, Inhabited

/-- What a request is judged against: a repository by its incarnation, never by its name. -/
inductive Subject where
  | repository (incarnation : Text)
  /-- The format's rules key the package and canonicalize the line's pattern. -/
  | package (incarnation package : Text) (format : Format)
  | admin (domain : AdminDomain)
  | account (username : Text)
deriving Repr, DecidableEq, Inhabited

/-- The repository incarnation a subject is about. -/
def Subject.incarnation? : Subject → Option Text
  | repository incarnation => some incarnation
  | package incarnation _ _ => some incarnation
  | admin _ => none
  | account _ => none

/-- One line of a scope: what it selects, what it allows there, and the incarnations its repository
pattern resolved to when the token was issued. -/
structure Grant where
  selector : Selector
  actions : List ScopeAction
  incarnations : List Text
deriving Repr, DecidableEq, Inhabited

namespace Grant

/-- The body of `rights`' loop. -/
def allow (rights : Rights) : ScopeAction → Rights
  | .read => { rights with read := true }
  | .write => { rights with write := true }
  | .delete => { rights with delete := true }
  | .admin => { rights with admin := true }

def rights (grant : Grant) : Rights := grant.actions.foldl allow Rights.none

/-- What an action of an administrative line is refused for. -/
def adminAction (domain : AdminDomain) : ScopeAction → Except ScopeError Unit
  | .read => .ok ()
  | .write =>
      if !domain.readOnlyUnderScope then .ok () else .error (.writeForbidden domain.asStr)
  | other => .error (.actionNotOnSelector other.asStr)

/-- A line the current vocabulary cannot hold is refused at creation. -/
def validate (grant : Grant) : Except ScopeError Unit :=
  if grant.actions.isEmpty then .error .noAction
  else
    match grant.selector with
    | .repo _ => .ok ()
    | .package _ package =>
        match Routing.compilePattern package.raw id with
        | .ok _ => .ok ()
        | .error err => .error (.packagePattern err.toText)
    | .admin domain =>
        if !grant.incarnations.isEmpty then .error .incarnationsNotOnSelector
        else grant.actions.forM (adminAction domain)
    | .account _ =>
        if !grant.incarnations.isEmpty then .error .incarnationsNotOnSelector
        else if grant.actions = [.read] then .ok ()
        else .error (.actionNotOnSelector "write".toList)

/-- A name retired and recreated is a new incarnation. -/
def holds (grant : Grant) (incarnation : Text) : Bool :=
  grant.incarnations.any fun known => known == incarnation

variable (toLowercase : Text → Text)

def covers (grant : Grant) (subject : Subject) : Bool :=
  match grant.selector, subject with
  | .repo _, .repository incarnation => grant.holds incarnation
  | .repo _, .package incarnation _ _ => grant.holds incarnation
  | .package _ package, .package incarnation name format =>
      grant.holds incarnation &&
        match Routing.canonicalPattern format package.raw with
        | .ok pattern => pattern.matches (Routing.matchKey format name)
        | .error _ => false
  | .admin domain, .admin asked => domain == asked
  | .account account, .account username => account.matchesAccount toLowercase username
  | _, _ => false

end Grant

/-- A repository as the resolution sees it. -/
structure Incarnation where
  name : Text
  incarnation : Text
deriving Repr, DecidableEq, Inhabited

/-- `inherit_` is every right its bearer holds. -/
inductive TokenScope where
  | inherit_
  | limited (grants : List Grant)
deriving Repr, DecidableEq, Inhabited

namespace TokenScope

def isInherit : TokenScope → Bool
  | inherit_ => true
  | limited _ => false

def validate : TokenScope → Except ScopeError Unit
  | inherit_ => .ok ()
  | limited grants =>
      if grants.length > maxGrants then .error .tooManyGrants else grants.forM Grant.validate

/-- One line as it is frozen: a repository pattern becomes the incarnations it names now. -/
def freeze (repositories : List Incarnation) (grant : Grant) : Grant :=
  match grant.selector with
  | .repo pattern | .package pattern _ =>
      { grant with
        incarnations :=
          (repositories.filter fun repo => pattern.matchesRepo repo.name).map (·.incarnation) }
  | .admin _ | .account _ => grant

/-- The scope as it is frozen at issue. -/
def resolved (repositories : List Incarnation) : TokenScope → TokenScope
  | inherit_ => inherit_
  | limited grants => limited (grants.map (freeze repositories))

end TokenScope

variable (toLowercase : Text → Text)

/-- What the lines of a scope that cover the subject allow together. -/
def allowed (grants : List Grant) (subject : Subject) : Rights :=
  (grants.filter fun grant => grant.covers toLowercase subject).foldl
    (fun rights grant => rights.union grant.rights) Rights.none

/-- The effective right: what the bearer holds, intersected with what the credential allows. -/
def narrow (held : Rights) (scope : TokenScope) (subject : Subject) : Rights :=
  match scope with
  | .inherit_ => held
  | .limited grants => held.inter (allowed toLowercase grants subject)

/-! ### What a scope allows -/

theorem foldl_union_allows (grants : List Grant) (start : Rights) (action : RepoAction) :
    (grants.foldl (fun rights grant => rights.union grant.rights) start).allows action = true ↔
      start.allows action = true ∨ ∃ grant ∈ grants, grant.rights.allows action = true := by
  induction grants generalizing start with
  | nil => simp
  | cons grant grants ih =>
      rw [List.foldl_cons, ih, Rights.union_allows, Bool.or_eq_true, List.exists_mem_cons_iff,
        or_assoc]

/-- An action is allowed exactly when some line covers the subject and names the action. -/
theorem allowed_iff {grants : List Grant} {subject : Subject} {action : RepoAction} :
    (allowed toLowercase grants subject).allows action = true ↔
      ∃ grant ∈ grants, grant.covers toLowercase subject = true ∧
        grant.rights.allows action = true := by
  rw [allowed, foldl_union_allows, Rights.none_allows]
  simp only [Bool.false_eq_true, false_or, List.mem_filter, and_assoc]

theorem narrow_limited_allows_iff {held : Rights} {grants : List Grant} {subject : Subject}
    {action : RepoAction} :
    (narrow toLowercase held (.limited grants) subject).allows action = true ↔
      held.allows action = true ∧ ∃ grant ∈ grants, grant.covers toLowercase subject = true ∧
        grant.rights.allows action = true := by
  rw [narrow, Rights.inter_allows, Bool.and_eq_true, allowed_iff]

theorem narrow_le {held : Rights} {scope : TokenScope} {subject : Subject} {action : RepoAction}
    (effective : (narrow toLowercase held scope subject).allows action = true) :
    held.allows action = true := by
  cases scope with
  | inherit_ => exact effective
  | limited grants => exact ((narrow_limited_allows_iff toLowercase).mp effective).1

theorem narrow_mono {held : Rights} {grants more : List Grant} {subject : Subject}
    {action : RepoAction} (part : grants ⊆ more)
    (effective : (narrow toLowercase held (.limited grants) subject).allows action = true) :
    (narrow toLowercase held (.limited more) subject).allows action = true := by
  obtain ⟨holds, grant, there, rest⟩ := (narrow_limited_allows_iff toLowercase).mp effective
  exact (narrow_limited_allows_iff toLowercase).mpr ⟨holds, grant, part there, rest⟩

theorem narrow_perm {held : Rights} {grants other : List Grant} {subject : Subject}
    (same : grants.Perm other) :
    narrow toLowercase held (.limited grants) subject =
      narrow toLowercase held (.limited other) subject := by
  refine Rights.ext_allows fun action => ?_
  rw [Bool.eq_iff_iff]
  exact ⟨narrow_mono toLowercase same.subset, narrow_mono toLowercase same.symm.subset⟩

/-! ### Frozen scopes -/

theorem Grant.holds_of_covers {grant : Grant} {subject : Subject} {incarnation : Text}
    (about : subject.incarnation? = some incarnation)
    (covers : grant.covers toLowercase subject = true) :
    grant.holds incarnation = true ∧ ∃ pattern, grant.selector = .repo pattern ∨
      ∃ package, grant.selector = .package pattern package := by
  cases subject with
  | admin domain => cases about
  | account username => cases about
  | repository there =>
      cases about
      cases selected : grant.selector with
      | repo pattern =>
          simp only [Grant.covers, selected] at covers
          exact ⟨covers, pattern, .inl rfl⟩
      | package pattern package => simp [Grant.covers, selected] at covers
      | admin domain => simp [Grant.covers, selected] at covers
      | account account => simp [Grant.covers, selected] at covers
  | package there name format =>
      cases about
      cases selected : grant.selector with
      | repo pattern =>
          simp only [Grant.covers, selected] at covers
          exact ⟨covers, pattern, .inl rfl⟩
      | package pattern package =>
          simp only [Grant.covers, selected, Bool.and_eq_true] at covers
          exact ⟨covers.1, pattern, .inr ⟨package, rfl⟩⟩
      | admin domain => simp [Grant.covers, selected] at covers
      | account account => simp [Grant.covers, selected] at covers

theorem TokenScope.freeze_selector (world : List Incarnation) (grant : Grant) :
    (TokenScope.freeze world grant).selector = grant.selector := by
  rw [TokenScope.freeze]
  split <;> rfl

/-- A frozen line that covers a repository names an incarnation of the world it was frozen in. -/
theorem mem_world_of_frozen_covers {world : List Incarnation} {grant : Grant} {subject : Subject}
    {incarnation : Text} (about : subject.incarnation? = some incarnation)
    (covers : (TokenScope.freeze world grant).covers toLowercase subject = true) :
    incarnation ∈ world.map (·.incarnation) := by
  obtain ⟨holds, pattern, selected⟩ := Grant.holds_of_covers toLowercase about covers
  obtain ⟨known, there, same⟩ := List.any_eq_true.mp holds
  rw [beq_iff_eq] at same
  subst same
  rw [TokenScope.freeze_selector] at selected
  rcases selected with selected | ⟨package, selected⟩
  all_goals
    simp only [TokenScope.freeze, selected] at there
    obtain ⟨repo, held, rfl⟩ := List.mem_map.mp there
    exact List.mem_map.mpr ⟨repo, List.mem_of_mem_filter held, rfl⟩

theorem narrow_resolved_eq_none {held : Rights} {grants : List Grant} {world : List Incarnation}
    {subject : Subject} {incarnation : Text} (about : subject.incarnation? = some incarnation)
    (absent : incarnation ∉ world.map (·.incarnation)) :
    narrow toLowercase held ((TokenScope.limited grants).resolved world) subject = Rights.none := by
  refine Rights.ext_allows fun action => ?_
  rw [Rights.none_allows, ← Bool.not_eq_true, TokenScope.resolved, narrow_limited_allows_iff]
  intro effective
  obtain ⟨_, frozen, there, covers, _⟩ := effective
  obtain ⟨grant, _, rfl⟩ := List.mem_map.mp there
  exact absent (mem_world_of_frozen_covers toLowercase about covers)

end OpenCargo.Access
